import SessionStore.Msgpack.Value

/-! Reading values under a depth budget. -/
namespace SessionStore.Msgpack

-- Powers are those of numbers, whatever monoids are in scope.
attribute [local instance (high)] instPowNat

/-- Why no value could be read. -/
inductive ReadError where
  | depthLimit
  | endAtMarker
  | endInData
  | endInBody (declared present : Nat)
  deriving DecidableEq, Repr

def ReadError.message : ReadError → String
  | .depthLimit => "depth limit exceeded"
  | .endAtMarker => "I/O error while reading marker byte: failed to fill whole buffer"
  | .endInData => "I/O error while reading non-marker bytes: failed to fill whole buffer"
  | .endInBody declared present =>
    "I/O error while reading non-marker bytes: Expected " ++ toString declared ++ " bytes, read " ++
      toString present ++ " bytes"

/-- Where the size of a string or container stands: within the marker, or in the bytes after it. -/
inductive Size where
  | fixed (n : Nat)
  | counted (width : Nat)

/-- What a leading byte announces. -/
inductive Marker where
  | value (v : Value)
  | unsigned (width : Nat)
  | signed (width : Nat)
  | float32
  | float64
  | str (size : Size)
  | bin (size : Size)
  | array (size : Size)
  | map (size : Size)
  | ext (size : Size)

/-- The reserved byte 0xC1 reads as nil. -/
def Marker.ofByte (b : UInt8) : Marker :=
  if b < 0x80 then .value (.int (.ofUInt64 b.toUInt64))
  else if b < 0x90 then .map (.fixed (b.toNat - 0x80))
  else if b < 0xA0 then .array (.fixed (b.toNat - 0x90))
  else if b < 0xC0 then .str (.fixed (b.toNat - 0xA0))
  else if 0xE0 ≤ b then .value (.int (.ofInt64 b.toInt8.toInt64))
  else if b = 0xC2 then .value (.bool false)
  else if b = 0xC3 then .value (.bool true)
  else if b = 0xC4 then .bin (.counted 1)
  else if b = 0xC5 then .bin (.counted 2)
  else if b = 0xC6 then .bin (.counted 4)
  else if b = 0xC7 then .ext (.counted 1)
  else if b = 0xC8 then .ext (.counted 2)
  else if b = 0xC9 then .ext (.counted 4)
  else if b = 0xCA then .float32
  else if b = 0xCB then .float64
  else if b = 0xCC then .unsigned 1
  else if b = 0xCD then .unsigned 2
  else if b = 0xCE then .unsigned 4
  else if b = 0xCF then .unsigned 8
  else if b = 0xD0 then .signed 1
  else if b = 0xD1 then .signed 2
  else if b = 0xD2 then .signed 4
  else if b = 0xD3 then .signed 8
  else if b = 0xD4 then .ext (.fixed 1)
  else if b = 0xD5 then .ext (.fixed 2)
  else if b = 0xD6 then .ext (.fixed 4)
  else if b = 0xD7 then .ext (.fixed 8)
  else if b = 0xD8 then .ext (.fixed 16)
  else if b = 0xD9 then .str (.counted 1)
  else if b = 0xDA then .str (.counted 2)
  else if b = 0xDB then .str (.counted 4)
  else if b = 0xDC then .array (.counted 2)
  else if b = 0xDD then .array (.counted 4)
  else if b = 0xDE then .map (.counted 2)
  else if b = 0xDF then .map (.counted 4)
  else .value .nil

/-- A number of `width` bytes. -/
def readNat (width : Nat) (input : Bytes) : Except ReadError (Nat × Bytes) :=
  match Bytes.splitAt? width input with
  | some (digits, rest) => .ok (digits.toNat, rest)
  | none => .error .endInData

def Size.read (size : Size) (input : Bytes) : Except ReadError (Nat × Bytes) :=
  match size with
  | .fixed n => .ok (n, input)
  | .counted width => readNat width input

/-- The body of a string or extension. -/
def readBody (n : Nat) (input : Bytes) : Except ReadError (Bytes × Bytes) :=
  match Bytes.splitAt? n input with
  | some parts => .ok parts
  | none => .error (.endInBody n input.length)

/-- The signed number whose two's complement in `width` bytes is `n`. -/
def signedOf (width n : Nat) : Int64 :=
  Int64.ofInt (if n < 128 * 256 ^ (width - 1) then n else (n : Int) - 256 ^ width)

/-- Reads `n` things one after the other behind those already read, which stand latest first. -/
def readMany {α : Type} (read : Bytes → Except ReadError (α × Bytes)) :
    Nat → List α → Bytes → Except ReadError (List α × Bytes)
  | 0, done, rest => .ok (done.reverse, rest)
  | n + 1, done, rest =>
    match read rest with
    | .ok (a, rest) => readMany read n (a :: done) rest
    | .error e => .error e

def readPair {α : Type} (read : Bytes → Except ReadError (α × Bytes)) (input : Bytes) :
    Except ReadError ((α × α) × Bytes) := do
  let (key, rest) ← read input
  let (value, rest) ← read rest
  return ((key, value), rest)

namespace Value

/-- The depth a whole value may use up. -/
def depthBudget : Nat := 1024

/-- Reads the first value of the input. A value takes one unit of depth before
its marker, an array, a map or binary data one more after its size, a string two
more, and an extension one more on either side of its type. -/
def read : Nat → Bytes → Except ReadError (Value × Bytes)
  | 0, _ => .error .depthLimit
  | _ + 1, [] => .error .endAtMarker
  | depth + 1, marker :: input =>
    match Marker.ofByte marker with
    | .value v => .ok (v, input)
    | .unsigned width => do
      let (n, rest) ← readNat width input
      return (.int (.ofUInt64 (UInt64.ofNat n)), rest)
    | .signed width => do
      let (n, rest) ← readNat width input
      return (.int (.ofInt64 (signedOf width n)), rest)
    | .float32 => do
      let (n, rest) ← readNat 4 input
      return (.float32 (UInt32.ofNat n), rest)
    | .float64 => do
      let (n, rest) ← readNat 8 input
      return (.float64 (UInt64.ofNat n), rest)
    | .str size => do
      let (n, rest) ← size.read input
      if depth < 2 then throw .depthLimit
      let (bytes, rest) ← readBody n rest
      return (.str bytes, rest)
    | .bin size => do
      let (n, rest) ← size.read input
      if depth < 1 then throw .depthLimit
      let (bytes, rest) ← readBody n rest
      return (.bin bytes, rest)
    | .array size => do
      let (n, rest) ← size.read input
      match depth with
      | 0 => throw .depthLimit
      | depth + 1 =>
        let (items, rest) ← readMany (read depth) n [] rest
        return (.array items, rest)
    | .map size => do
      let (n, rest) ← size.read input
      match depth with
      | 0 => throw .depthLimit
      | depth + 1 =>
        let (pairs, rest) ← readMany (readPair (read depth)) n [] rest
        return (.map pairs, rest)
    | .ext size => do
      let (n, rest) ← size.read input
      if depth < 1 then throw .depthLimit
      let (type, rest) ← readNat 1 rest
      if depth < 2 then throw .depthLimit
      let (bytes, rest) ← readBody n rest
      return (.ext (UInt8.ofNat type).toInt8 bytes, rest)
termination_by structural depth => depth

end Value

end SessionStore.Msgpack
