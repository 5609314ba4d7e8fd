import SessionStore.Text.Utf8

/-! Values of the MessagePack format. -/
namespace SessionStore.Msgpack

/-- An integer of 64 bits, signed or unsigned. -/
structure Integer where
  toInt : Int
  lower : -9223372036854775808 ≤ toInt
  upper : toInt < 18446744073709551616
  deriving DecidableEq

namespace Integer

def ofUInt64 (n : UInt64) : Integer where
  toInt := n.toNat
  lower := by omega
  upper := by have := n.toNat_lt; omega

def ofInt64 (n : Int64) : Integer where
  toInt := n.toInt
  lower := n.le_toInt
  upper := by have := n.toInt_lt; omega

/-- The integer as an unsigned one, if it is not negative. -/
def toUInt64? (n : Integer) : Option UInt64 :=
  if 0 ≤ n.toInt then some (UInt64.ofNat n.toInt.toNat) else none

/-- The integer as a signed one, if it is in range. -/
def toInt64? (n : Integer) : Option Int64 :=
  if n.toInt < 9223372036854775808 then some (Int64.ofInt n.toInt) else none

end Integer

/-- A value. Floating-point numbers are kept as bits; a string need not be well-formed text. -/
inductive Value where
  | nil
  | bool (b : Bool)
  | int (n : Integer)
  | float32 (bits : UInt32)
  | float64 (bits : UInt64)
  | str (bytes : Bytes)
  | bin (bytes : Bytes)
  | array (items : List Value)
  | map (pairs : List (Value × Value))
  | ext (type : Int8) (bytes : Bytes)
  deriving Inhabited

namespace Value

def ofUInt64 (n : UInt64) : Value := .int (.ofUInt64 n)

def ofAscii (text : String) : Value := .str (Bytes.ofAscii text)

/-- The bytes of a string or of binary data. -/
def bytes? : Value → Option Bytes
  | .str bytes | .bin bytes => some bytes
  | _ => none

def bool? : Value → Option Bool
  | .bool b => some b
  | _ => none

def uint64? : Value → Option UInt64
  | .int n => n.toUInt64?
  | _ => none

def int64? : Value → Option Int64
  | .int n => n.toInt64?
  | _ => none

mutual

/-- Whether two values are the same, part by part. -/
def isSame : Value → Value → Bool
  | .nil, .nil => true
  | .bool a, .bool b => a = b
  | .int a, .int b => a = b
  | .float32 a, .float32 b => a = b
  | .float64 a, .float64 b => a = b
  | .str a, .str b => a = b
  | .bin a, .bin b => a = b
  | .array a, .array b => areSame a b
  | .map a, .map b => areSamePairs a b
  | .ext type a, .ext sort b => type = sort && a = b
  | _, _ => false

def areSame : List Value → List Value → Bool
  | [], [] => true
  | a :: as, b :: bs => isSame a b && areSame as bs
  | _, _ => false

def areSamePairs : List (Value × Value) → List (Value × Value) → Bool
  | [], [] => true
  | (k, v) :: as, (l, w) :: bs => isSame k l && isSame v w && areSamePairs as bs
  | _, _ => false

end

mutual

theorem isSame_iff (a b : Value) : isSame a b = true ↔ a = b := by
  cases a <;> cases b <;> simp [isSame, areSame_iff, areSamePairs_iff]

theorem areSame_iff (as bs : List Value) : areSame as bs = true ↔ as = bs := by
  cases as <;> cases bs <;> simp [areSame, isSame_iff, areSame_iff]

theorem areSamePairs_iff (as bs : List (Value × Value)) : areSamePairs as bs = true ↔ as = bs := by
  rcases as with _ | ⟨⟨k, v⟩, as⟩ <;> rcases bs with _ | ⟨⟨l, w⟩, bs⟩ <;>
    simp [areSamePairs, isSame_iff, areSamePairs_iff]

end

instance : DecidableEq Value := fun a b => decidable_of_iff (isSame a b = true) (isSame_iff a b)

end Value

end SessionStore.Msgpack
