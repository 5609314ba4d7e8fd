import SessionStore.Entry.Encoding
import SessionStore.Proofs.Msgpack.RoundTrip
import SessionStore.Proofs.Payload.Fields

/-! The parts of a payload and the values that they are read back as. -/
namespace SessionStore

open Msgpack (Value Reads)

/-- Additional pairs that can stand behind so many fields of a map, none of them
under a known key. -/
structure ExtraPairs.Fit {κ : Type} (keys : List (String × κ)) (depth fields : Nat)
    (extra : ExtraPairs) : Prop where
  size : fields + extra.length < 2 ^ 32
  unknown : ∀ pair ∈ extra, Schema.keyIn keys pair.1 = none
  keys : ∀ pair ∈ extra, pair.1.Fits depth
  values : ∀ pair ∈ extra, pair.2.Fits depth

/-- Additional elements that can stand behind so many elements of an array. -/
structure ExtraItems.Fit (depth elements : Nat) (extra : ExtraItems) : Prop where
  size : elements + extra.length < 2 ^ 32
  each : ∀ item ∈ extra, item.Fits depth

namespace Encoding

/-- A part that has bytes, which are read as a value. -/
def Writes (depth : Nat) (part : Part) (v : Value) : Prop :=
  ∃ bytes, part = .ok bytes ∧ Reads (Value.read depth) bytes v

def WritesPair (depth : Nat) (part : Part) (pair : Value × Value) : Prop :=
  ∃ bytes, part = .ok bytes ∧ Reads (Msgpack.readPair (Value.read depth)) bytes pair

theorem size_ok {n : Nat} (h : n < 2 ^ 32) : size n = .ok n := if_pos h

theorem lt_of_size {n m : Nat} (h : size n = .ok m) : n < 2 ^ 32 := by
  unfold size at h
  split at h
  · next hn => exact hn
  · cases h

theorem length_optional (isWritten : Bool) (name : String) (part : Part) :
    (optional isWritten name part).length = isWritten.toNat := by
  cases isWritten <;> rfl

theorem writes_string {bytes : Bytes} (h : bytes.length < 2 ^ 32) (depth : Nat) :
    Writes (depth + 3) (string bytes) (.str bytes) := by
  refine ⟨Msgpack.strHeader bytes.length ++ bytes, ?_, ?_⟩
  · rw [string, size_ok h, Results.ok_bind, Results.pure_eq_ok]
  · exact Value.reads_str (Msgpack.announces_strHeader h) rfl

theorem writes_boolean (b : Bool) (depth : Nat) : Writes (depth + 1) (boolean b) (.bool b) :=
  ⟨_, rfl, Value.reads_bool b depth⟩

theorem writes_unsigned (n : UInt64) (depth : Nat) :
    Writes (depth + 1) (unsigned n) (.ofUInt64 n) := by
  refine ⟨_, rfl, fun rest => ?_⟩
  rw [Value.read_encodeNat n.toNat_lt, UInt64.ofNat_toNat, Value.ofUInt64]

theorem writes_signed (n : Int64) (depth : Nat) :
    Writes (depth + 1) (signed n) (.int (.ofInt64 n)) :=
  ⟨_, rfl, Value.read_encodeInt (.ofInt64 n) depth⟩

theorem writes_character (c : Char) (depth : Nat) :
    Writes (depth + 1) (character c) (.ofUInt64 (UInt64.ofNat c.toNat)) := by
  have hc : c.toNat < 2 ^ 64 := by
    have := c.val.toNat_lt
    exact Nat.lt_trans this (by decide)
  exact ⟨_, rfl, fun rest => Value.read_encodeNat hc depth rest⟩

theorem writes_value {v : Value} {depth : Nat} (h : v.Fits depth) :
    Writes depth (.ok v.encode) v.stored :=
  ⟨_, rfl, Value.reads_encode h⟩

theorem writesPair_field {name : String} {part : Part} {v : Value} (depth : Nat)
    (hn : (Bytes.ofAscii name).length < 2 ^ 32) (h : Writes (depth + 3) part v) :
    WritesPair (depth + 3) (field name part) (.ofAscii name, v) := by
  obtain ⟨bytes, rfl, hb⟩ := h
  refine ⟨Msgpack.encodeStr (Bytes.ofAscii name) ++ bytes, rfl, Reads.pair ?_ hb⟩
  exact Value.reads_str (Msgpack.announces_strHeader hn) rfl

private theorem mapM_id_of_forall₂ {α : Type} {read : Bytes → Except Msgpack.ReadError (α × Bytes)}
    {parts : List Part} {things : List α}
    (h : List.Forall₂ (fun part a => ∃ bytes, part = .ok bytes ∧ Reads read bytes a) parts things) :
    ∃ chunks, parts.mapM id = (.ok chunks : Except EncodingError (List Bytes)) ∧
      List.Forall₂ (Reads read) chunks things := by
  induction h with
  | nil => exact ⟨[], rfl, .nil⟩
  | cons hp _ ih =>
    obtain ⟨bytes, hb, hr⟩ := hp
    obtain ⟨chunks, hm, hc⟩ := ih
    exact ⟨bytes :: chunks, Results.mapM_eq_ok_iff.mpr (.cons hb (Results.mapM_eq_ok_iff.mp hm)),
      .cons hr hc⟩

theorem writes_map {κ : Type} {keys : List (String × κ)} {fields : List Part}
    {pairs : List (Value × Value)} {extra : ExtraPairs} (depth : Nat)
    (h : List.Forall₂ (WritesPair depth) fields pairs) (he : extra.Fit keys depth pairs.length) :
    Writes (depth + 2) (map fields extra) (.map (pairs ++ extra.map Value.storedPair)) := by
  obtain ⟨chunks, hm, hc⟩ := mapM_id_of_forall₂ h
  have hextra : List.Forall₂ (Reads (Msgpack.readPair (Value.read depth)))
      (extra.map Value.encodePair) (extra.map Value.storedPair) := by
    rw [List.forall₂_map_left_iff, List.forall₂_map_right_iff, List.forall₂_same]
    exact fun pair hp =>
      (Value.reads_encode (he.keys pair hp)).pair (Value.reads_encode (he.values pair hp))
  refine ⟨Msgpack.mapHeader (pairs.length + extra.length) ++
    (chunks ++ extra.map Value.encodePair).flatten, ?_, ?_⟩
  · rw [map, h.length_eq, size_ok he.size, Results.ok_bind, hm, Results.ok_bind, Results.pure_eq_ok,
      Value.encodePairs_eq_flatMap, List.flatten_append, List.append_assoc, List.flatMap]
  · refine Value.reads_map ?_ (List.rel_append hc hextra)
    rw [List.length_append, List.length_map]
    exact Msgpack.announces_mapHeader he.size

theorem writes_array {items : List Part} {values : List Value} {extra : ExtraItems} (depth : Nat)
    (h : List.Forall₂ (Writes depth) items values) (he : extra.Fit depth values.length) :
    Writes (depth + 2) (array items extra) (.array (values ++ extra.map Value.stored)) := by
  obtain ⟨chunks, hm, hc⟩ := mapM_id_of_forall₂ h
  have hextra : List.Forall₂ (Reads (Value.read depth)) (extra.map Value.encode)
      (extra.map Value.stored) := by
    rw [List.forall₂_map_left_iff, List.forall₂_map_right_iff, List.forall₂_same]
    exact fun item hi => Value.reads_encode (he.each item hi)
  refine ⟨Msgpack.arrayHeader (values.length + extra.length) ++
    (chunks ++ extra.map Value.encode).flatten, ?_, ?_⟩
  · rw [array, h.length_eq, size_ok he.size, Results.ok_bind, hm, Results.ok_bind,
      Results.pure_eq_ok, Value.encodeItems_eq_flatMap, List.flatten_append,
        List.append_assoc, List.flatMap]
  · refine Value.reads_array ?_ (List.rel_append hc hextra)
    rw [List.length_append, List.length_map]
    exact Msgpack.announces_arrayHeader he.size

/-- A field that is left out is read back as no pair at all. -/
theorem forall₂_optional {depth : Nat} {isWritten : Bool} {name : String} {part : Part} {v : Value}
    (hn : (Bytes.ofAscii name).length < 2 ^ 32) (h : Writes (depth + 3) part v) :
    List.Forall₂ (WritesPair (depth + 3)) (optional isWritten name part)
      (Schema.optionalPair isWritten name v) := by
  unfold optional Schema.optionalPair
  split
  · exact .cons (writesPair_field depth hn h) .nil
  · exact .nil

end Encoding

end SessionStore
