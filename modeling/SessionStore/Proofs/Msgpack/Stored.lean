import Mathlib.Data.List.Basic
import SessionStore.Proofs.Msgpack.Numbers

/-! Values as they come back from their bytes: the same, but for strings that are not text. -/
namespace SessionStore.Msgpack

namespace Value

def isContainer : Value → Bool
  | .array _ | .map _ => true
  | _ => false

/-- What holds of values without parts, and of arrays and maps as soon as it
holds of their parts, holds of all. -/
@[elab_as_elim]
theorem induction {P : Value → Prop} (scalar : ∀ v, v.isContainer = false → P v)
    (array : ∀ items, (∀ item ∈ items, P item) → P (.array items))
    (map : ∀ pairs, (∀ pair ∈ pairs, P pair.1 ∧ P pair.2) → P (.map pairs)) (v : Value) : P v := by
  refine Value.rec (motive_1 := P) (motive_2 := fun items => ∀ item ∈ items, P item)
    (motive_3 := fun pairs => ∀ pair ∈ pairs, P pair.1 ∧ P pair.2)
    (motive_4 := fun pair => P pair.1 ∧ P pair.2) (scalar _ rfl) (fun _ => scalar _ rfl)
    (fun _ => scalar _ rfl) (fun _ => scalar _ rfl) (fun _ => scalar _ rfl) (fun _ => scalar _ rfl)
    (fun _ => scalar _ rfl) array map (fun _ _ => scalar _ rfl) ?noItems ?item ?noPairs ?pair
    (fun _ _ hk hv => ⟨hk, hv⟩) v
  case noItems => simp
  case item => exact fun _ _ hi hr => List.forall_mem_cons.mpr ⟨hi, hr⟩
  case noPairs => simp
  case pair => exact fun _ _ hp hr => List.forall_mem_cons.mpr ⟨hp, hr⟩

mutual

/-- The value with every string that is not well-formed text turned into binary data. -/
def stored : Value → Value
  | .nil => .nil
  | .bool b => .bool b
  | .int n => .int n
  | .float32 bits => .float32 bits
  | .float64 bits => .float64 bits
  | .str bytes => if Utf8.isValid bytes then .str bytes else .bin bytes
  | .bin bytes => .bin bytes
  | .array items => .array (storedItems items)
  | .map pairs => .map (storedPairs pairs)
  | .ext type bytes => .ext type bytes

def storedItems : List Value → List Value
  | [] => []
  | item :: rest => item.stored :: storedItems rest

def storedPairs : List (Value × Value) → List (Value × Value)
  | [] => []
  | (key, value) :: rest => (key.stored, value.stored) :: storedPairs rest

end

def storedPair (pair : Value × Value) : Value × Value := (pair.1.stored, pair.2.stored)

@[simp] theorem storedItems_eq_map (items : List Value) : storedItems items = items.map stored := by
  induction items with
  | nil => rfl
  | cons item rest ih => rw [storedItems, ih, List.map_cons]

@[simp] theorem storedPairs_eq_map (pairs : List (Value × Value)) :
    storedPairs pairs = pairs.map storedPair := by
  induction pairs with
  | nil => rfl
  | cons pair rest ih => rw [storedPairs, ih, List.map_cons, storedPair]

@[simp] theorem encodeItems_eq_flatMap (items : List Value) :
    encodeItems items = items.flatMap encode := by
  induction items with
  | nil => rfl
  | cons item rest ih => rw [encodeItems, ih, List.flatMap_cons]

def encodePair (pair : Value × Value) : Bytes := pair.1.encode ++ pair.2.encode

@[simp] theorem encodePairs_eq_flatMap (pairs : List (Value × Value)) :
    encodePairs pairs = pairs.flatMap encodePair := by
  induction pairs with
  | nil => rfl
  | cons pair rest ih => rw [encodePairs, ih, List.flatMap_cons, encodePair, List.append_assoc]

theorem encode_stored (v : Value) : v.stored.encode = v.encode := by
  induction v using induction with
  | scalar v hv =>
    cases v with
    | str bytes =>
      rw [stored]
      split
      · rfl
      · next h => rw [encode, encode, if_neg h]
    | array | map => cases hv
    | _ => rfl
  | array items ih =>
    rw [stored, encode, encode, storedItems_eq_map, List.length_map, encodeItems_eq_flatMap,
      encodeItems_eq_flatMap, List.flatMap_map]
    congr 1
    exact List.flatMap_congr ih
  | map pairs ih =>
    rw [stored, encode, encode, storedPairs_eq_map, List.length_map, encodePairs_eq_flatMap,
      encodePairs_eq_flatMap, List.flatMap_map]
    congr 1
    apply List.flatMap_congr
    intro pair hp
    rw [encodePair, storedPair, (ih pair hp).1, (ih pair hp).2, encodePair]

theorem stored_stored (v : Value) : v.stored.stored = v.stored := by
  induction v using induction with
  | scalar v hv =>
    cases v with
    | str bytes =>
      rw [stored]
      split
      · next h => rw [stored, if_pos h]
      · rfl
    | array | map => cases hv
    | _ => rfl
  | array items ih =>
    simp only [stored, storedItems_eq_map, List.map_map, array.injEq]
    exact List.map_congr_left ih
  | map pairs ih =>
    simp only [stored, storedPairs_eq_map, List.map_map, map.injEq]
    apply List.map_congr_left
    intro pair hp
    simp only [Function.comp, storedPair, (ih pair hp).1, (ih pair hp).2]

/-- Values in which every string is well-formed text. -/
inductive Clean : Value → Prop
  | nil : Clean .nil
  | bool (b : Bool) : Clean (.bool b)
  | int (n : Integer) : Clean (.int n)
  | float32 (bits : UInt32) : Clean (.float32 bits)
  | float64 (bits : UInt64) : Clean (.float64 bits)
  | text {bytes : Bytes} (valid : Utf8.isValid bytes = true) : Clean (.str bytes)
  | bin (bytes : Bytes) : Clean (.bin bytes)
  | array {items : List Value} (each : ∀ item ∈ items, Clean item) : Clean (.array items)
  | map {pairs : List (Value × Value)} (keys : ∀ pair ∈ pairs, Clean pair.1)
      (values : ∀ pair ∈ pairs, Clean pair.2) : Clean (.map pairs)
  | ext (type : Int8) (bytes : Bytes) : Clean (.ext type bytes)

theorem Clean.stored_eq {v : Value} (h : v.Clean) : v.stored = v := by
  induction h with
  | text valid => rw [stored, if_pos valid]
  | array each ih =>
    rw [stored, storedItems_eq_map, List.map_congr_left ih]
    simp
  | map keys values ihk ihv =>
    rw [stored, storedPairs_eq_map]
    refine congrArg Value.map ((List.map_congr_left fun pair hp => ?_).trans (List.map_id _))
    rw [storedPair, ihk pair hp, ihv pair hp]
    rfl
  | _ => rfl

@[simp] theorem bytes?_stored (v : Value) : v.stored.bytes? = v.bytes? := by
  cases v with
  | str bytes =>
    rw [stored]
    split <;> rfl
  | _ => rfl

/-- Values whose sizes have 32 bits and which can be read within a depth. -/
inductive Fits : Nat → Value → Prop
  | nil {depth : Nat} : Fits (depth + 1) .nil
  | bool {depth : Nat} (b : Bool) : Fits (depth + 1) (.bool b)
  | int {depth : Nat} (n : Integer) : Fits (depth + 1) (.int n)
  | float32 {depth : Nat} (bits : UInt32) : Fits (depth + 1) (.float32 bits)
  | float64 {depth : Nat} (bits : UInt64) : Fits (depth + 1) (.float64 bits)
  | text {depth : Nat} {bytes : Bytes} (size : bytes.length < 2 ^ 32) :
    Fits (depth + 3) (.str bytes)
  /-- A string that is not text is written as binary data, which takes less depth. -/
  | notText {depth : Nat} {bytes : Bytes} (size : bytes.length < 2 ^ 32)
      (invalid : Utf8.isValid bytes = false) : Fits (depth + 2) (.str bytes)
  | bin {depth : Nat} {bytes : Bytes} (size : bytes.length < 2 ^ 32) : Fits (depth + 2) (.bin bytes)
  | array {depth : Nat} {items : List Value} (size : items.length < 2 ^ 32)
      (each : ∀ item ∈ items, Fits depth item) : Fits (depth + 2) (.array items)
  | map {depth : Nat} {pairs : List (Value × Value)} (size : pairs.length < 2 ^ 32)
      (keys : ∀ pair ∈ pairs, Fits depth pair.1) (values : ∀ pair ∈ pairs, Fits depth pair.2) :
      Fits (depth + 2) (.map pairs)
  | ext {depth : Nat} {type : Int8} {bytes : Bytes} (size : bytes.length < 2 ^ 32) :
      Fits (depth + 3) (.ext type bytes)

theorem Fits.stored {depth : Nat} {v : Value} (h : v.Fits depth) : v.stored.Fits depth := by
  induction h with
  | nil => exact .nil
  | bool b => exact .bool b
  | int n => exact .int n
  | float32 bits => exact .float32 bits
  | float64 bits => exact .float64 bits
  | @text depth bytes size =>
    rw [Value.stored]
    split
    · exact .text size
    · exact @Fits.bin (depth + 1) bytes size
  | notText size invalid =>
    rw [Value.stored, if_neg (by simp [invalid])]
    exact .bin size
  | bin size => exact .bin size
  | array size each ih =>
    rw [Value.stored, storedItems_eq_map]
    exact .array (by simpa using size) (List.forall_mem_map.mpr ih)
  | map size keys values ihk ihv =>
    rw [Value.stored, storedPairs_eq_map]
    exact .map (by simpa using size) (List.forall_mem_map.mpr ihk) (List.forall_mem_map.mpr ihv)
  | ext size => exact .ext size

end Value

end SessionStore.Msgpack
