import SessionStore.Proofs.Payload.Storable

/-! Headers and the entries that are lists of elements are read back from their payloads. -/
namespace SessionStore

open Encoding
open Msgpack (Value)
open Schema

namespace Header

theorem writes {header : Header} (h : header.Storable) :
    Writes Value.depthBudget header.encode (.map (ExtraPairs.stored header.fields)) :=
  writes_map 1022 .nil h

end Header

namespace Replacement

theorem writes {r : Replacement} (h : r.Storable) :
    Writes Value.depthBudget r.encode (.array ([.str r.text] ++ r.additional.stored)) :=
  writes_array 1022 (.cons (writes_string h.text 1019) .nil) h.extra

end Replacement

namespace Variable

theorem writes {v : Variable} (h : v.Storable) :
    Writes Value.depthBudget v.encode
      (.array ([.str v.name, v.value.stored] ++ v.additional.stored)) :=
  writes_array 1022
    (.cons (writes_string h.name 1019) (.cons (writes_value h.value) .nil)) h.extra

end Variable

theorem HistoryType.ofId_id (type : HistoryType) : ofId type.id = some type := by
  cases type <;> rfl

theorem HistoryType.ofId_eq_some_iff {id : UInt64} {type : HistoryType} :
    ofId id = some type ↔ type.id = id := by
  constructor
  · exact fun h => of_decide_eq_true (List.find?_some h :)
  · rintro rfl
    exact ofId_id type

namespace HistoryItem

def elements (item : HistoryItem) : List Value :=
  [.ofUInt64 item.type.id, .str item.text] ++
    item.separator.toList.map fun c => .ofUInt64 (UInt64.ofNat c.toNat)

theorem writtenSeparator_eq {item : HistoryItem} (h : item.type ≠ .search → item.separator = none) :
    item.writtenSeparator = item.separator := by
  unfold writtenSeparator
  split
  · rfl
  · next ht => exact (h ht).symm

theorem writes {item : HistoryItem} (ht : item.text.length < 2 ^ 32)
    (hs : item.type ≠ .search → item.separator = none)
    (he : item.additional.Fit partDepth (2 + item.separator.toList.length)) :
    Writes Value.depthBudget item.encode (.array (item.elements ++ item.additional.stored)) := by
  rw [encode, writtenSeparator_eq hs]
  refine writes_array 1022 (List.rel_append ?_ ?_) ?_
  · exact .cons (writes_unsigned _ _) (.cons (writes_string ht 1019) .nil)
  · rw [List.forall₂_map_left_iff, List.forall₂_map_right_iff, List.forall₂_same]
    exact fun c _ => writes_character c _
  · have hn : item.elements.length = 2 + item.separator.toList.length := by
      rw [elements, List.length_append, List.length_map]
      rfl
    exact hn ▸ he

/-- The separator is found again, and nothing else is taken for it. -/
theorem separatorOf_elements {item : HistoryItem} (h : item.Storable) :
    separatorOf item.type ((item.separator.toList.map fun c =>
      Value.ofUInt64 (UInt64.ofNat c.toNat)) ++
      item.additional.stored) = .ok (item.separator, item.additional.stored) := by
  cases hs : item.separator with
  | some c =>
    have ht : item.type = .search := Decidable.not_not.mp fun ht => by simp [h.separator ht] at hs
    rw [ht, Option.toList_some, List.map_cons, List.map_nil, List.cons_append, List.nil_append,
      separatorOf, character_toNat, Results.ok_bind, Results.pure_eq_ok]
  | none =>
    by_cases ht : item.type = .search
    · rw [ht, h.unambiguous ht hs]
      rfl
    · unfold separatorOf
      split
      · next hsearch _ => exact absurd hsearch ht
      · rfl

theorem ofValue_elements {item : HistoryItem} (h : item.Storable) :
    ofValue (.array (item.elements ++ item.additional.stored)) = .ok item.stored := by
  rw [elements, List.append_assoc, ofValue, items, Results.ok_bind]
  simp only [List.cons_append, List.nil_append, unsigned_ofUInt64, Results.ok_bind,
    HistoryType.ofId_id, Schema.string, Value.bytes?, separatorOf_elements h, Results.pure_eq_ok]
  rfl

end HistoryItem

end SessionStore
