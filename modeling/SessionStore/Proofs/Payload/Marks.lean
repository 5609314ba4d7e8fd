import SessionStore.Proofs.Payload.Storable

/-! Places in files are read back from their pairs, with or without a name, and
so are open buffers. -/
namespace SessionStore

open Encoding
open Msgpack (Value)
open Schema

namespace Mark

theorem encode_eq_map {named : Bool} {mark : Mark} (h : mark.lnum ≠ 0) :
    mark.encode named =
      map (field "f" (string mark.file.bytes) ::
        optional (mark.lnum ≠ 1) "l" (unsigned mark.lnum) ++
        optional (mark.col ≠ 0) "c" (unsigned mark.col) ++
        optional (named && mark.name ≠ defaultName) "n" (character mark.name)) mark.additional :=
  if_neg h

theorem writes {named : Bool} {mark : Mark} (depth : Nat) (h : mark.Storable named (depth + 3)) :
    Writes (depth + 5) (mark.encode named)
      (.map (mark.fields named ++ mark.additional.stored)) := by
  rw [encode_eq_map h.lnum]
  refine writes_map (depth + 3) ?_ h.extra
  refine List.rel_append (List.rel_append (.cons ?_ ?_) ?_) ?_
  · exact writesPair_field depth (by decide) (writes_string h.file _)
  · exact forall₂_optional (by decide) (writes_unsigned _ _)
  · exact forall₂_optional (by decide) (writes_unsigned _ _)
  · exact forall₂_optional (by decide) (writes_character _ _)

theorem keyIn_file (named : Bool) : keyIn (keys named) (.ofAscii "f") = some .file := by
  cases named <;> rfl

theorem keyIn_lnum (named : Bool) : keyIn (keys named) (.ofAscii "l") = some .lnum := by
  cases named <;> rfl

theorem keyIn_col (named : Bool) : keyIn (keys named) (.ofAscii "c") = some .col := by
  cases named <;> rfl

theorem keyIn_name : keyIn (keys true) (.ofAscii "n") = some .name := rfl

theorem put_lnum (draft : Draft) {n : UInt64} (h : n ≠ 0) :
    draft.put .lnum (.ofUInt64 n) = .ok { draft with mark := { draft.mark with lnum := n } } := by
  rw [Draft.put, lineNumber_ofUInt64 h, Results.ok_bind, Results.pure_eq_ok]

theorem put_col (draft : Draft) (n : UInt64) :
    draft.put .col (.ofUInt64 n) = .ok { draft with mark := { draft.mark with col := n } } := by
  rw [Draft.put, column_ofUInt64, Results.ok_bind, Results.pure_eq_ok]

theorem put_name (draft : Draft) (c : Char) :
    draft.put .name (.ofUInt64 (UInt64.ofNat c.toNat)) =
      .ok { draft with mark := { draft.mark with name := c } } := by
  rw [Draft.put, character_toNat, Results.ok_bind, Results.pure_eq_ok]

theorem known_fields (named : Bool) (mark : Mark) :
    ∀ pair ∈ mark.fields named, keyIn (keys named) pair.1 ≠ none := by
  intro pair hp
  rcases List.mem_append.mp hp with hp | hp
  · rcases List.mem_append.mp hp with hp | hp
    · rcases List.mem_cons.mp hp with rfl | hp
      · rw [keyIn_file]
        exact Option.some_ne_none _
      · exact known_optionalPair (keyIn_lnum named) pair hp
    · exact known_optionalPair (keyIn_col named) pair hp
  · cases named with
    | false => cases hp
    | true => exact known_optionalPair keyIn_name pair hp

/-- The name is taken in only where names are known; elsewhere there is none to take in. -/
private theorem foldPairs_name {named : Bool} {mark : Mark}
    (h : named = false → mark.name = defaultName) {draft : Draft}
    (hd : draft.mark.name = defaultName) :
    foldPairs (keys named) Draft.put draft
        (optionalPair (named && mark.name ≠ defaultName) "n"
          (.ofUInt64 (UInt64.ofNat mark.name.toNat))) =
      .ok { draft with mark := { draft.mark with name := mark.name } } := by
  cases named with
  | false =>
    rw [h rfl, ← hd]
    rfl
  | true =>
    apply foldPairs_optional keyIn_name (fun _ => put_name _ _)
    intro hz
    have hz : mark.name = draft.mark.name := by simpa [hd] using hz
    rw [hz]

theorem ofPairs_fields {named : Bool} {depth : Nat} {mark : Mark} (h : mark.Storable named depth) :
    ofPairs named (mark.fields named ++ mark.additional.stored) = .ok mark.stored := by
  have hfold : foldPairs (keys named) Draft.put {} (mark.fields named ++ mark.additional.stored) =
      .ok {
        file := some mark.file.bytes
        mark := { mark with file := .empty, additional := [] } } := by
    rw [foldPairs_append, fields, List.cons_append, List.cons_append,
      foldPairs_cons (k := .file) (keyIn_file named) rfl, foldPairs_append, foldPairs_append,
      foldPairs_optional (keyIn_lnum named) (fun _ => put_lnum _ h.lnum) ?lnum, Results.ok_bind,
      foldPairs_optional (keyIn_col named) (fun _ => put_col _ _) ?col, Results.ok_bind,
      foldPairs_name h.name rfl, Results.ok_bind, foldPairs_unknown h.extra.unknown_stored]
    case lnum =>
      intro hz
      have hz : mark.lnum = 1 := by simpa using hz
      rw [hz]
    case col =>
      intro hz
      have hz : mark.col = 0 := by simpa using hz
      rw [hz]
  rw [ofPairs, hfold, Results.ok_bind,
    unknownPairs_append (known_fields named mark) h.extra.unknown_stored]
  rfl

theorem ofValue_fields {named : Bool} {depth : Nat} {mark : Mark} (h : mark.Storable named depth) :
    ofValue named (.map (mark.fields named ++ mark.additional.stored)) = .ok mark.stored :=
  ofPairs_fields h

end Mark

namespace Buffer

theorem writes {b : Buffer} (h : b.Storable) :
    Writes partDepth b.encode (.map (b.mark.fields false ++ b.additional.stored)) :=
  Mark.writes 1017 h

theorem ofValue_fields {b : Buffer} (h : b.Storable) :
    ofValue (.map (b.mark.fields false ++ b.additional.stored)) = .ok b.stored := by
  have hm : Mark.ofPairs false (b.mark.fields false ++ b.additional.stored) = .ok b.mark.stored :=
    Mark.ofPairs_fields h
  rw [ofValue, pairs, Results.ok_bind, hm]
  rfl

end Buffer

end SessionStore
