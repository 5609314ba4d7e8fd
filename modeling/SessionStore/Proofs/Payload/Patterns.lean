import SessionStore.Proofs.Payload.Storable

/-! Search patterns are read back from their payloads. -/
namespace SessionStore

open Encoding
open Msgpack (Value)
open Schema

theorem PatternFlag.mem_all (flag : PatternFlag) : flag ∈ all := by
  cases flag <;> decide

theorem PatternFlag.nodup_all : all.Nodup := by
  decide

namespace SearchPattern

theorem keyIn_flag (flag : PatternFlag) : keyIn keys (.ofAscii flag.key) = some (.flag flag) := by
  cases flag <;> rfl

@[simp] theorem flag_setFlag (p : SearchPattern) (f g : PatternFlag) (b : Bool) :
    (p.setFlag f b).flag g = if g = f then b else p.flag g := by
  cases f <;> cases g <;> rfl

@[simp] theorem offset_setFlag (p : SearchPattern) (f : PatternFlag) (b : Bool) :
    (p.setFlag f b).offset = p.offset := by
  cases f <;> rfl

theorem ext_flag {p q : SearchPattern} (hf : ∀ flag, p.flag flag = q.flag flag)
    (hp : p.pattern = q.pattern) (ho : p.offset = q.offset) (ha : p.additional = q.additional) :
    p = q := by
  cases p
  cases q
  have h₁ := hf .magic
  have h₂ := hf .smartcase
  have h₃ := hf .lineOffset
  have h₄ := hf .cursorAtEnd
  have h₅ := hf .lastUsed
  have h₆ := hf .substitute
  have h₇ := hf .highlighted
  have h₈ := hf .backward
  simp_all [flag]

theorem writes {p : SearchPattern} (h : p.Storable) :
    Writes Value.depthBudget p.encode (.map (p.fields ++ p.additional.stored)) := by
  refine writes_map 1022 ?_ h.extra
  refine List.rel_append (.cons ?_ ?_) ?_
  · exact writesPair_field 1019 (by decide) (writes_string h.text _)
  · rw [List.forall₂_map_left_iff, List.forall₂_map_right_iff, List.forall₂_same]
    intro flag _
    refine writesPair_field 1019 ?_ (writes_boolean _ _)
    cases flag <;> decide
  · exact forall₂_optional (by decide) (writes_signed _ _)

/-- The switches that are written get their settings; the others stay as they are. -/
private theorem foldPairs_flags (p : SearchPattern) (flags : List PatternFlag) (draft : Draft) :
    ∃ q, foldPairs keys Draft.put draft
        (flags.map fun flag => (.ofAscii flag.key, .bool (p.flag flag))) =
          .ok { draft with pattern := q } ∧
      q.offset = draft.pattern.offset ∧
      ∀ flag, q.flag flag = if flag ∈ flags then p.flag flag else draft.pattern.flag flag := by
  induction flags generalizing draft with
  | nil => exact ⟨draft.pattern, rfl, rfl, by simp⟩
  | cons first rest ih =>
    obtain ⟨q, hq, ho, hf⟩ :=
      ih { draft with pattern := draft.pattern.setFlag first (p.flag first) }
    refine ⟨q, ?_, by rw [ho, offset_setFlag], fun flag => ?_⟩
    · rw [List.map_cons, foldPairs_cons (keyIn_flag first) rfl]
      exact hq
    · rw [hf flag, flag_setFlag]
      by_cases hm : flag ∈ rest
      · simp [hm]
      · by_cases he : flag = first <;> simp [hm, he]

theorem known_fields (p : SearchPattern) : ∀ pair ∈ p.fields, keyIn keys pair.1 ≠ none := by
  intro pair hp
  rcases List.mem_append.mp hp with hp | hp
  · rcases List.mem_cons.mp hp with rfl | hp
    · exact Option.some_ne_none Field.pattern
    · obtain ⟨flag, -, rfl⟩ := List.mem_map.mp hp
      rw [keyIn_flag]
      exact Option.some_ne_none _
  · exact known_optionalPair (k := .offset) rfl pair hp

theorem mem_writtenFlags {p : SearchPattern} {flag : PatternFlag} :
    flag ∈ p.writtenFlags ↔ p.flag flag ≠ flag.default := by
  simp [writtenFlags, PatternFlag.mem_all]

theorem put_offset (draft : Draft) (n : Int64) :
    draft.put .offset (.int (.ofInt64 n)) =
      .ok { draft with pattern := { draft.pattern with offset := n } } := by
  rw [Draft.put, signed_ofInt64, Results.ok_bind, Results.pure_eq_ok]

theorem ofValue_fields {p : SearchPattern} (h : p.Storable) :
    ofValue (.map (p.fields ++ p.additional.stored)) = .ok p.stored := by
  have hextra := h.extra.unknown_stored
  obtain ⟨q, hq, ho, hf⟩ := foldPairs_flags p p.writtenFlags { text := some p.pattern }
  have hfold : foldPairs keys Draft.put {} (p.fields ++ p.additional.stored) =
      .ok { text := some p.pattern, pattern := { q with offset := p.offset } } := by
    rw [foldPairs_append, fields, List.cons_append, foldPairs_cons (k := .pattern) rfl rfl,
      foldPairs_append, hq, Results.ok_bind,
        foldPairs_optional (k := .offset) rfl (fun _ => put_offset _ _) ?_,
      Results.ok_bind, foldPairs_unknown hextra]
    intro hz
    have hz : p.offset = 0 := by simpa using hz
    rw [hz]
    exact congrArg (fun offset => Draft.mk _ { q with offset }) ho.symm
  rw [ofValue, pairs, Results.ok_bind, hfold, Results.ok_bind,
    unknownPairs_append p.known_fields hextra]
  refine congrArg Except.ok (ext_flag (fun flag => ?_) rfl rfl rfl)
  have hd : flag.default = ({} : SearchPattern).flag flag := by cases flag <;> rfl
  have hq : q.flag flag = p.flag flag := by
    rw [hf flag]
    split
    · rfl
    · next hm => rw [← hd, Decidable.not_not.mp (mt mem_writtenFlags.mpr hm)]
  cases flag <;> exact hq

end SearchPattern

end SessionStore
