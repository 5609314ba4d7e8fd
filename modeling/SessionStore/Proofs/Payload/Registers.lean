import SessionStore.Proofs.Payload.Storable

/-! Registers are read back from their payloads. -/
namespace SessionStore

open Encoding
open Msgpack (Value)
open Schema

theorem RegisterType.ofId_id (type : RegisterType) : ofId type.id = some type := by
  cases type <;> rfl

theorem RegisterType.ofId_eq_some_iff {id : UInt64} {type : RegisterType} :
    ofId id = some type ↔ type.id = id := by
  constructor
  · exact fun h => of_decide_eq_true (List.find?_some h :)
  · rintro rfl
    exact ofId_id type

theorem RegisterType.id_injective {a b : RegisterType} (h : a.id = b.id) : a = b :=
  Option.some.inj ((ofId_eq_some_iff.mpr h).symm.trans (ofId_id b))

namespace Register

theorem writes_contents {contents : List Bytes} {depth : Nat} (h : contents.length < 2 ^ 32)
    (hl : ∀ line ∈ contents, line.length < 2 ^ 32) :
    Writes (depth + 5) (array (contents.map string) []) (.array (contents.map .str)) := by
  have hw : List.Forall₂ (Writes (depth + 3)) (contents.map string) (contents.map Value.str) := by
    rw [List.forall₂_map_left_iff, List.forall₂_map_right_iff, List.forall₂_same]
    exact fun line hm => writes_string (hl line hm) depth
  have he : ExtraItems.Fit (depth + 3) (contents.map Value.str).length [] :=
    ⟨by simpa using h, by simp⟩
  simpa using writes_array _ hw he

theorem writes {r : Register} (hs : r.contents.length < 2 ^ 32)
    (hl : ∀ line ∈ r.contents, line.length < 2 ^ 32)
    (he : r.additional.Fit keys partDepth r.fields.length) :
    Writes Value.depthBudget r.encode (.map (r.fields ++ r.additional.stored)) := by
  refine writes_map 1022 ?_ he
  refine List.rel_append (List.rel_append (List.rel_append (.cons ?_ ?_) ?_) ?_) (.cons ?_ .nil)
  · exact writesPair_field 1019 (by decide) (writes_contents hs hl)
  · exact forall₂_optional (by decide) (writes_unsigned _ _)
  · exact forall₂_optional (by decide) (writes_unsigned _ _)
  · exact forall₂_optional (by decide) (writes_boolean _ _)
  · exact writesPair_field 1019 (by decide) (writes_character _ _)

theorem put_contents (draft : Draft) (contents : List Bytes) :
    draft.put .contents (.array (contents.map .str)) =
      .ok { draft with contents := some contents } := by
  have h : (contents.map Value.str).mapM (string "rc") = (.ok contents : Schema.Reading _) := by
    rw [Results.mapM_eq_ok_iff, List.forall₂_map_left_iff, List.forall₂_same]
    exact fun _ _ => rfl
  rw [Draft.put, items, Results.ok_bind, h, Results.ok_bind, Results.pure_eq_ok]

theorem put_type (draft : Draft) (type : RegisterType) :
    draft.put .type (.ofUInt64 type.id) =
      .ok { draft with register := { draft.register with type } } := by
  rw [Draft.put, unsigned_ofUInt64, Results.ok_bind, RegisterType.ofId_id]
  rfl

theorem put_width (draft : Draft) (n : UInt64) :
    draft.put .width (.ofUInt64 n) =
      .ok { draft with register := { draft.register with width := n } } := by
  rw [Draft.put, unsigned_ofUInt64, Results.ok_bind, Results.pure_eq_ok]

theorem put_name (draft : Draft) (c : Char) :
    draft.put .name (.ofUInt64 (UInt64.ofNat c.toNat)) =
      .ok { draft with register := { draft.register with name := c } } := by
  rw [Draft.put, character_toNat, Results.ok_bind, Results.pure_eq_ok]

theorem known_fields (r : Register) : ∀ pair ∈ r.fields, keyIn keys pair.1 ≠ none := by
  intro pair hp
  rcases List.mem_append.mp hp with hp | hp
  · rcases List.mem_append.mp hp with hp | hp
    · rcases List.mem_append.mp hp with hp | hp
      · rcases List.mem_cons.mp hp with rfl | hp
        · exact Option.some_ne_none Field.contents
        · exact known_optionalPair (k := .type) rfl pair hp
      · exact known_optionalPair (k := .width) rfl pair hp
    · exact known_optionalPair (k := .isUnnamed) rfl pair hp
  · rw [List.mem_singleton.mp hp]
    exact Option.some_ne_none Field.name

/-- That a register is the unnamed one is written only if it is so. -/
private theorem foldPairs_unnamed {isUnnamed : Bool} {draft : Draft}
    (hd : draft.register.isUnnamed = false) :
    foldPairs keys Draft.put draft (optionalPair isUnnamed "ru" (.bool true)) =
      .ok { draft with register := { draft.register with isUnnamed } } := by
  refine foldPairs_optional (k := .isUnnamed) rfl (fun hu => ?_) (fun hu => ?_)
  · rw [hu]
    rfl
  · rw [hu, ← hd]

/-- The pairs of a register are taken in whether or not it has a line. -/
theorem foldPairs_fields {r : Register}
    (h : ∀ pair ∈ r.additional.stored, keyIn keys pair.1 = none) :
    foldPairs keys Draft.put {} (r.fields ++ r.additional.stored) =
      .ok {
        contents := some r.contents
        register := { r with contents := [], additional := [] } } := by
  rw [foldPairs_append, fields, List.cons_append, List.cons_append, List.cons_append,
    foldPairs_cons (k := .contents) rfl (put_contents _ _), foldPairs_append, foldPairs_append,
    foldPairs_append, foldPairs_optional (k := .type) rfl (fun _ => put_type _ _) ?type,
    Results.ok_bind, foldPairs_optional (k := .width) rfl (fun _ => put_width _ _) ?width,
    Results.ok_bind, foldPairs_unnamed rfl, Results.ok_bind,
    foldPairs_cons (k := .name) rfl (put_name _ _), foldPairs, Results.ok_bind, foldPairs_unknown h]
  case type =>
    intro hz
    have hz : r.type = .charWise := by simpa using hz
    rw [hz]
  case width =>
    intro hz
    have hz : r.width = 0 := by simpa using hz
    rw [hz]

theorem ofValue_fields {r : Register} (h : r.Storable) :
    ofValue (.map (r.fields ++ r.additional.stored)) = .ok r.stored := by
  obtain ⟨line, rest, hc⟩ := List.exists_cons_of_ne_nil h.contents
  rw [ofValue, pairs, Results.ok_bind, foldPairs_fields h.extra.unknown_stored, Results.ok_bind,
    unknownPairs_append r.known_fields h.extra.unknown_stored]
  simp only [hc, Results.pure_eq_ok]
  rw [stored, ← hc]

end Register

end SessionStore
