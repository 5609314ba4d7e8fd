import Mathlib.Data.List.Forall2
import SessionStore.Proofs.Msgpack.Stored

/-! Whatever is written within the limits of the format is read back as it is stored. -/
namespace SessionStore.Msgpack

/-- Bytes that are read as a thing, whatever follows them. -/
def Reads {α : Type} (read : Bytes → Except ReadError (α × Bytes)) (bytes : Bytes) (a : α) : Prop :=
  ∀ rest, read (bytes ++ rest) = .ok (a, rest)

namespace Reads

variable {α : Type} {read : Bytes → Except ReadError (α × Bytes)}

theorem pair {key value : Bytes} {a b : α} (hk : Reads read key a) (hv : Reads read value b) :
    Reads (readPair read) (key ++ value) (a, b) := by
  intro rest
  rw [List.append_assoc, readPair, hk]
  simp only [Results.ok_bind, hv rest, Results.pure_eq_ok]

theorem many {chunks : List Bytes} {things : List α} (h : List.Forall₂ (Reads read) chunks things)
    (done : List α) :
    Reads (readMany read things.length done) chunks.flatten (done.reverse ++ things) := by
  induction h generalizing done with
  | nil =>
    intro rest
    simp [readMany]
  | @cons chunk a chunks things hc _ ih =>
    intro rest
    rw [List.flatten_cons, List.append_assoc, List.length_cons, readMany, hc]
    dsimp only
    rw [ih (a :: done) rest]
    simp

end Reads

namespace Value

theorem reads_str {n depth : Nat} {header bytes : Bytes} (ha : Announces .str n header)
    (hn : bytes.length = n) : Reads (read (depth + 3)) (header ++ bytes) (.str bytes) := by
  obtain ⟨first, size, digits, rfl, hm, hs⟩ := ha
  intro rest
  subst hn
  rw [List.append_assoc, List.cons_append, read, hm]
  dsimp only
  rw [hs]
  simp only [Results.ok_bind, readBody_append, Results.pure_eq_ok]
  rw [if_neg (by omega)]

theorem reads_bin {n depth : Nat} {header bytes : Bytes} (ha : Announces .bin n header)
    (hn : bytes.length = n) : Reads (read (depth + 2)) (header ++ bytes) (.bin bytes) := by
  obtain ⟨first, size, digits, rfl, hm, hs⟩ := ha
  intro rest
  subst hn
  rw [List.append_assoc, List.cons_append, read, hm]
  dsimp only
  rw [hs]
  simp only [Results.ok_bind, readBody_append, Results.pure_eq_ok]
  rw [if_neg (by omega)]

theorem reads_ext {n depth : Nat} {header bytes : Bytes} {type : Int8}
    (ha : Announces .ext n header) (hn : bytes.length = n) :
    Reads (read (depth + 3)) (header ++ type.toUInt8 :: bytes) (.ext type bytes) := by
  obtain ⟨first, size, digits, rfl, hm, hs⟩ := ha
  intro rest
  subst hn
  have ht : readNat 1 (type.toUInt8 :: (bytes ++ rest)) =
      .ok (type.toUInt8.toNat, bytes ++ rest) := by
    simp [readNat, Bytes.splitAt?, Bytes.toNat]
  rw [List.append_assoc, List.cons_append, read, hm]
  dsimp only
  rw [hs]
  simp only [Results.ok_bind, List.cons_append]
  rw [if_neg (by omega), ht, Results.ok_bind]
  dsimp only
  rw [if_neg (by omega), readBody_append]
  simp

theorem reads_array {depth : Nat} {header : Bytes} {chunks : List Bytes} {items : List Value}
    (ha : Announces .array items.length header)
    (h : List.Forall₂ (Reads (read depth)) chunks items) :
    Reads (read (depth + 2)) (header ++ chunks.flatten) (.array items) := by
  obtain ⟨first, size, digits, rfl, hm, hs⟩ := ha
  intro rest
  have hi := Reads.many h [] rest
  rw [List.append_assoc, List.cons_append, read, hm]
  dsimp only
  rw [hs]
  simp only [Results.ok_bind, hi, Results.pure_eq_ok, List.reverse_nil, List.nil_append]

theorem reads_map {depth : Nat} {header : Bytes} {chunks : List Bytes}
    {pairs : List (Value × Value)} (ha : Announces .map pairs.length header)
    (h : List.Forall₂ (Reads (readPair (read depth))) chunks pairs) :
    Reads (read (depth + 2)) (header ++ chunks.flatten) (.map pairs) := by
  obtain ⟨first, size, digits, rfl, hm, hs⟩ := ha
  intro rest
  have hi := Reads.many h [] rest
  rw [List.append_assoc, List.cons_append, read, hm]
  dsimp only
  rw [hs]
  simp only [Results.ok_bind, hi, Results.pure_eq_ok, List.reverse_nil, List.nil_append]

theorem reads_bool (b : Bool) (depth : Nat) :
    Reads (read (depth + 1)) (encodeBool b) (.bool b) := by
  intro rest
  cases b <;> rfl

private theorem word_eq {n : Nat} (h : n < 2 ^ 32) : word n = n := Nat.mod_eq_of_lt h

theorem reads_encode {depth : Nat} {v : Value} (h : v.Fits depth) :
    Reads (read depth) v.encode v.stored := by
  induction h with
  | nil => exact fun _ => rfl
  | bool b => exact reads_bool b _
  | int n => exact read_encodeInt n _
  | @float32 depth bits =>
    intro rest
    have hb : bits.toNat < 256 ^ 4 := bits.toNat_lt
    have hm : Marker.ofByte 0xCA = .float32 := rfl
    simp only [encode, List.cons_append, read, hm, readNat_append hb, Results.ok_bind,
      UInt32.ofNat_toNat, Results.pure_eq_ok, stored]
  | @float64 depth bits =>
    intro rest
    have hb : bits.toNat < 256 ^ 8 := bits.toNat_lt
    have hm : Marker.ofByte 0xCB = .float64 := rfl
    simp only [encode, List.cons_append, read, hm, readNat_append hb, Results.ok_bind,
      UInt64.ofNat_toNat, Results.pure_eq_ok, stored]
  | @text depth bytes size =>
    rw [encode, stored, word_eq size]
    split
    · exact reads_str (announces_strHeader size) rfl
    · exact reads_bin (announces_binHeader size) rfl
  | @notText depth bytes size invalid =>
    rw [encode, stored, word_eq size, if_neg (by simp [invalid]), if_neg (by simp [invalid])]
    exact reads_bin (announces_binHeader size) rfl
  | @bin depth bytes size =>
    rw [encode, stored, word_eq size]
    exact reads_bin (announces_binHeader size) rfl
  | @array depth items size each ih =>
    rw [encode, stored, word_eq size, encodeItems_eq_flatMap, storedItems_eq_map, List.flatMap]
    apply reads_array (by simpa using announces_arrayHeader size)
    rw [List.forall₂_map_left_iff, List.forall₂_map_right_iff, List.forall₂_same]
    exact ih
  | @map depth pairs size keys values ihk ihv =>
    rw [encode, stored, word_eq size, encodePairs_eq_flatMap, storedPairs_eq_map, List.flatMap]
    apply reads_map (by simpa using announces_mapHeader size)
    rw [List.forall₂_map_left_iff, List.forall₂_map_right_iff, List.forall₂_same]
    exact fun pair hp => (ihk pair hp).pair (ihv pair hp)
  | @ext depth type bytes size =>
    rw [encode, stored, word_eq size]
    exact reads_ext (announces_extHeader size) rfl

end Value

end SessionStore.Msgpack
