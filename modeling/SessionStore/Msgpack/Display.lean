import SessionStore.Decimal.Shortest
import SessionStore.Msgpack.Value
import SessionStore.Text.Quoted

/-! The text of a value, on one line. -/
namespace SessionStore.Msgpack

/-- Bytes as a list of numbers. -/
def byteListText (bytes : Bytes) : String :=
  "[" ++ String.intercalate ", " (bytes.map fun b => toString b.toNat) ++ "]"

namespace Value

mutual

/-- Well-formed text is quoted; other strings and binary data show their bytes. -/
def display : Value → String
  | .nil => "nil"
  | .bool b => if b then "true" else "false"
  | .int n => toString n.toInt
  | .float32 bits => Decimal.binary32.toText bits.toNat
  | .float64 bits => Decimal.binary64.toText bits.toNat
  | .str bytes =>
    match Utf8.decode? bytes with
    | some text => Text.quote text
    | none => byteListText bytes
  | .bin bytes => byteListText bytes
  | .array items => "[" ++ String.intercalate ", " (displayItems items) ++ "]"
  | .map pairs => "\x7b" ++ String.intercalate ", " (displayPairs pairs) ++ "\x7d"
  | .ext type bytes => "[" ++ toString type.toInt ++ ", " ++ byteListText bytes ++ "]"

def displayItems : List Value → List String
  | [] => []
  | item :: rest => item.display :: displayItems rest

def displayPairs : List (Value × Value) → List String
  | [] => []
  | (key, value) :: rest => (key.display ++ ": " ++ value.display) :: displayPairs rest

end

end Value

end SessionStore.Msgpack
