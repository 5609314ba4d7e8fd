import SessionStore.Msgpack.Value

/-! Writing values, everything in its smallest form. -/
namespace SessionStore.Msgpack

-- Powers are those of numbers, whatever monoids are in scope.
attribute [local instance (high)] instPowNat

/-- The first form that has room for a size: within the marker, or in one, two
or four bytes after it. -/
def sizeHeader (fixed : Option (Nat × UInt8)) (one : Option UInt8) (two four : UInt8) (n : Nat) :
    Bytes :=
  match fixed with
  | some (limit, marker) => if n < limit then [marker + UInt8.ofNat n] else counted n
  | none => counted n
where
  counted (n : Nat) : Bytes :=
    match one with
    | some marker => if n < 256 then marker :: Bytes.bigEndian 1 n else wide n
    | none => wide n
  wide (n : Nat) : Bytes :=
    if n < 65536 then two :: Bytes.bigEndian 2 n else four :: Bytes.bigEndian 4 n

def strHeader (n : Nat) : Bytes := sizeHeader (some (32, 0xA0)) (some 0xD9) 0xDA 0xDB n

def binHeader (n : Nat) : Bytes := sizeHeader none (some 0xC4) 0xC5 0xC6 n

def arrayHeader (n : Nat) : Bytes := sizeHeader (some (16, 0x90)) none 0xDC 0xDD n

def mapHeader (n : Nat) : Bytes := sizeHeader (some (16, 0x80)) none 0xDE 0xDF n

/-- Bodies of 1, 2, 4, 8 and 16 bytes have markers of their own. -/
def extHeader (n : Nat) : Bytes :=
  if n = 1 then [0xD4]
  else if n = 2 then [0xD5]
  else if n = 4 then [0xD6]
  else if n = 8 then [0xD7]
  else if n = 16 then [0xD8]
  else sizeHeader none (some 0xC7) 0xC8 0xC9 n

def encodeBool (b : Bool) : Bytes := [if b then 0xC3 else 0xC2]

/-- A number from 0 on, in its smallest unsigned form. -/
def encodeNat (n : Nat) : Bytes :=
  if n < 128 then [UInt8.ofNat n]
  else if n < 256 then 0xCC :: Bytes.bigEndian 1 n
  else if n < 65536 then 0xCD :: Bytes.bigEndian 2 n
  else if n < 4294967296 then 0xCE :: Bytes.bigEndian 4 n
  else 0xCF :: Bytes.bigEndian 8 n

/-- The two's complement of an integer in `width` bytes. -/
def complement (width : Nat) (n : Int) : Bytes := Bytes.bigEndian width (n % 256 ^ width).toNat

/-- Integers from 0 on have unsigned forms, negative ones signed forms. -/
def encodeInt (n : Int) : Bytes :=
  if 0 ≤ n then encodeNat n.toNat
  else if -32 ≤ n then complement 1 n
  else if -128 ≤ n then 0xD0 :: complement 1 n
  else if -32768 ≤ n then 0xD1 :: complement 2 n
  else if -2147483648 ≤ n then 0xD2 :: complement 4 n
  else 0xD3 :: complement 8 n

def encodeStr (bytes : Bytes) : Bytes := strHeader bytes.length ++ bytes

/-- A size as a 32-bit word holds it. -/
def word (n : Nat) : Nat := n % 4294967296

namespace Value

mutual

/-- The bytes of a value. A string that is not well-formed text is written as binary data. -/
def encode : Value → Bytes
  | .nil => [0xC0]
  | .bool b => encodeBool b
  | .int n => encodeInt n.toInt
  | .float32 bits => 0xCA :: Bytes.bigEndian 4 bits.toNat
  | .float64 bits => 0xCB :: Bytes.bigEndian 8 bits.toNat
  | .str bytes =>
    (if Utf8.isValid bytes then strHeader (word bytes.length) else binHeader (word bytes.length)) ++
      bytes
  | .bin bytes => binHeader (word bytes.length) ++ bytes
  | .array items => arrayHeader (word items.length) ++ encodeItems items
  | .map pairs => mapHeader (word pairs.length) ++ encodePairs pairs
  | .ext type bytes => extHeader (word bytes.length) ++ type.toUInt8 :: bytes

def encodeItems : List Value → Bytes
  | [] => []
  | item :: rest => item.encode ++ encodeItems rest

def encodePairs : List (Value × Value) → Bytes
  | [] => []
  | (key, value) :: rest => key.encode ++ (value.encode ++ encodePairs rest)

end

end Value

end SessionStore.Msgpack
