import SessionStore.Proofs.Payload.Storable

/-! What has been stored once is stored again without any change, and so is what
has no strings but text. -/
namespace SessionStore

open Msgpack (Value)

theorem Msgpack.Value.storedPair_storedPair (pair : Value × Value) :
    Value.storedPair (Value.storedPair pair) = Value.storedPair pair := by
  simp only [Value.storedPair, Value.stored_stored]

namespace ExtraPairs

theorem length_stored (extra : ExtraPairs) : extra.stored.length = extra.length :=
  List.length_map ..

theorem stored_stored (extra : ExtraPairs) : extra.stored.stored = extra.stored := by
  rw [stored, stored, List.map_map]
  exact List.map_congr_left fun pair _ => Value.storedPair_storedPair pair

theorem encodePairs_stored (extra : ExtraPairs) :
    Value.encodePairs extra.stored = Value.encodePairs extra := by
  rw [Value.encodePairs_eq_flatMap, Value.encodePairs_eq_flatMap, stored, List.flatMap_map]
  apply List.flatMap_congr
  intro pair _
  simp only [Value.encodePair, Value.storedPair, Value.encode_stored]

theorem Fit.stored {κ : Type} {keys : List (String × κ)} {depth fields : Nat} {extra : ExtraPairs}
    (h : extra.Fit keys depth fields) : extra.stored.Fit keys depth fields where
  size := by rw [length_stored]; exact h.size
  unknown := h.unknown_stored
  keys := List.forall_mem_map.mpr fun pair hp => (h.keys pair hp).stored
  values := List.forall_mem_map.mpr fun pair hp => (h.values pair hp).stored

end ExtraPairs

namespace ExtraItems

theorem length_stored (extra : ExtraItems) : extra.stored.length = extra.length :=
  List.length_map ..

theorem stored_stored (extra : ExtraItems) : extra.stored.stored = extra.stored := by
  rw [stored, stored, List.map_map]
  exact List.map_congr_left fun item _ => item.stored_stored

theorem encodeItems_stored (extra : ExtraItems) :
    Value.encodeItems extra.stored = Value.encodeItems extra := by
  rw [Value.encodeItems_eq_flatMap, Value.encodeItems_eq_flatMap, stored, List.flatMap_map]
  exact List.flatMap_congr fun item _ => item.encode_stored

theorem Fit.stored {depth elements : Nat} {extra : ExtraItems} (h : extra.Fit depth elements) :
    extra.stored.Fit depth elements where
  size := by rw [length_stored]; exact h.size
  each := List.forall_mem_map.mpr fun item hi => (h.each item hi).stored

end ExtraItems

namespace Encoding

theorem map_stored (fields : List Part) (extra : ExtraPairs) :
    map fields extra.stored = map fields extra := by
  rw [map, map, extra.length_stored, extra.encodePairs_stored]

theorem array_stored (items : List Part) (extra : ExtraItems) :
    array items extra.stored = array items extra := by
  rw [array, array, extra.length_stored, extra.encodeItems_stored]

end Encoding

open Encoding

theorem Mark.encode_stored (named : Bool) (mark : Mark) :
    mark.stored.encode named = mark.encode named := by
  unfold Mark.encode
  split
  · next h => rw [if_pos (show mark.lnum = 0 from h)]; rfl
  · next h =>
    rw [if_neg (show mark.lnum ≠ 0 from h)]
    exact map_stored _ _

theorem Mark.stored_stored (mark : Mark) : mark.stored.stored = mark.stored := by
  rw [stored, stored, ExtraPairs.stored_stored]

theorem Mark.Storable.stored {named : Bool} {depth : Nat} {mark : Mark}
    (h : mark.Storable named depth) : mark.stored.Storable named depth :=
  ⟨h.lnum, h.file, h.name, h.extra.stored⟩

theorem Buffer.encode_stored (b : Buffer) : b.stored.encode = b.encode :=
  b.mark.encode_stored false

theorem Buffer.stored_stored (b : Buffer) : b.stored.stored = b.stored := by
  rw [stored, stored, ExtraPairs.stored_stored]

namespace Content

/-- Storing changes nothing that is written. -/
theorem encode_stored (content : Content) : content.stored.encode = content.encode := by
  cases content with
  | header h => exact map_stored [] h.fields
  | searchPattern p => exact map_stored _ p.additional
  | replacement r => exact array_stored _ r.additional
  | history item => exact array_stored _ item.additional
  | register r => exact map_stored _ r.additional
  | «variable» v =>
    show Encoding.array [string v.name, .ok v.value.stored.encode] v.additional.stored = _
    rw [array_stored, Value.encode_stored]
    rfl
  | globalMark mark => exact mark.encode_stored true
  | jump mark => exact mark.encode_stored false
  | bufferList buffers =>
    show array ((buffers.map Buffer.stored).map Buffer.encode) [] =
      array (buffers.map Buffer.encode) []
    rw [List.map_map]
    exact congrArg (array · []) (List.map_congr_left fun b _ => b.encode_stored)
  | localMark mark => exact mark.encode_stored true
  | change mark => exact mark.encode_stored false
  | unknown id payload => rfl

theorem stored_stored (content : Content) : content.stored.stored = content.stored := by
  cases content with
  | header h => simp only [stored, Header.stored, ExtraPairs.stored_stored]
  | searchPattern p => simp only [stored, SearchPattern.stored, ExtraPairs.stored_stored]
  | replacement r => simp only [stored, Replacement.stored, ExtraItems.stored_stored]
  | history item => simp only [stored, HistoryItem.stored, ExtraItems.stored_stored]
  | register r => simp only [stored, Register.stored, ExtraPairs.stored_stored]
  | «variable» v =>
    simp only [stored, Variable.stored, Value.stored_stored, ExtraItems.stored_stored]
  | globalMark mark | jump mark | localMark mark | change mark =>
    simp only [stored, Mark.stored_stored]
  | bufferList buffers =>
    rw [stored, stored, List.map_map]
    exact congrArg bufferList (List.map_congr_left fun b _ => b.stored_stored)
  | unknown id payload => rfl

theorem Storable.stored {content : Content} (h : content.Storable) : content.stored.Storable := by
  cases content with
  | header header => exact ExtraPairs.Fit.stored h
  | searchPattern p => exact ⟨h.text, h.extra.stored⟩
  | replacement r => exact ⟨h.text, h.extra.stored⟩
  | history item =>
    refine ⟨h.text, h.separator, h.extra.stored, fun ht hs => ?_⟩
    show item.additional.stored = []
    rw [h.unambiguous ht hs]
    rfl
  | register r => exact ⟨h.contents, h.size, h.lines, h.extra.stored⟩
  | «variable» v => exact ⟨h.name, h.value.stored, h.extra.stored⟩
  | globalMark mark | jump mark | localMark mark | change mark => exact Mark.Storable.stored h
  | bufferList buffers =>
    exact ⟨by simpa using h.1, List.forall_mem_map.mpr fun b hb => Mark.Storable.stored (h.2 b hb)⟩
  | unknown id payload => exact h

end Content

def ExtraPairs.Clean (extra : ExtraPairs) : Prop := ∀ pair ∈ extra, pair.1.Clean ∧ pair.2.Clean

theorem ExtraPairs.Clean.stored_eq {extra : ExtraPairs} (h : extra.Clean) :
    extra.stored = extra := by
  refine (List.map_congr_left fun pair hp => ?_).trans (List.map_id _)
  rw [Value.storedPair, (h pair hp).1.stored_eq, (h pair hp).2.stored_eq]
  rfl

def ExtraItems.Clean (extra : ExtraItems) : Prop := ∀ item ∈ extra, item.Clean

theorem ExtraItems.Clean.stored_eq {extra : ExtraItems} (h : extra.Clean) : extra.stored = extra :=
  (List.map_congr_left fun item hi => (h item hi).stored_eq).trans (List.map_id _)

namespace Content

/-- Every string in the values that are only carried along is well-formed text. -/
def Clean : Content → Prop
  | .header h => ExtraPairs.Clean h.fields
  | .searchPattern p => p.additional.Clean
  | .replacement r => r.additional.Clean
  | .history item => item.additional.Clean
  | .register r => r.additional.Clean
  | .variable v => v.value.Clean ∧ v.additional.Clean
  | .globalMark mark | .jump mark | .localMark mark | .change mark => mark.additional.Clean
  | .bufferList buffers => ∀ b ∈ buffers, b.additional.Clean
  | .unknown .. => True

theorem Clean.stored_eq {content : Content} (h : content.Clean) : content.stored = content := by
  cases content with
  | header header => rw [stored, Header.stored, ExtraPairs.Clean.stored_eq h]
  | searchPattern p => rw [stored, SearchPattern.stored, ExtraPairs.Clean.stored_eq h]
  | replacement r => rw [stored, Replacement.stored, ExtraItems.Clean.stored_eq h]
  | history item => rw [stored, HistoryItem.stored, ExtraItems.Clean.stored_eq h]
  | register r => rw [stored, Register.stored, ExtraPairs.Clean.stored_eq h]
  | «variable» v => rw [stored, Variable.stored, h.1.stored_eq, h.2.stored_eq]
  | globalMark mark | jump mark | localMark mark | change mark =>
    rw [stored, Mark.stored, ExtraPairs.Clean.stored_eq h]
  | bufferList buffers =>
    refine congrArg bufferList ((List.map_congr_left fun b hb => ?_).trans (List.map_id _))
    rw [Buffer.stored, ExtraPairs.Clean.stored_eq (h b hb)]
    rfl
  | unknown id payload => rfl

end Content

end SessionStore
