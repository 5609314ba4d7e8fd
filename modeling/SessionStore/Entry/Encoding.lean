import SessionStore.Entry.Schema
import SessionStore.Msgpack.Writer

/-! Writing payloads: fields with default values are left out, additional data comes last. -/
namespace SessionStore

open Msgpack (Value)

namespace Encoding

/-- The bytes of a part of a payload, or why it has none. -/
abbrev Part := Except EncodingError Bytes

/-- A size that a container can have. -/
def size (n : Nat) : Except EncodingError Nat :=
  if n < 4294967296 then .ok n else .error (.tooLong n)

/-- A map of fields and additional pairs. -/
def map (fields : List Part) (additional : ExtraPairs) : Part := do
  let n ← size (fields.length + additional.length)
  let fields ← fields.mapM id
  return Msgpack.mapHeader n ++ fields.flatten ++ Value.encodePairs additional

/-- An array of elements and additional ones. -/
def array (items : List Part) (additional : ExtraItems) : Part := do
  let n ← size (items.length + additional.length)
  let items ← items.mapM id
  return Msgpack.arrayHeader n ++ items.flatten ++ Value.encodeItems additional

/-- Texts are written as strings, well-formed or not. -/
def string (bytes : Bytes) : Part := do
  return Msgpack.strHeader (← size bytes.length) ++ bytes

def boolean (b : Bool) : Part := .ok (Msgpack.encodeBool b)

def unsigned (n : UInt64) : Part := .ok (Msgpack.encodeNat n.toNat)

def signed (n : Int64) : Part := .ok (Msgpack.encodeInt n.toInt)

/-- A character is stored as its code point. -/
def character (c : Char) : Part := .ok (Msgpack.encodeNat c.toNat)

def field (name : String) (value : Part) : Part := do
  return Msgpack.encodeStr (Bytes.ofAscii name) ++ (← value)

/-- A field that is left out unless it holds something of note. -/
def optional (isWritten : Bool) (name : String) (value : Part) : List Part :=
  if isWritten then [field name value] else []

end Encoding

open Encoding

def Header.encode (header : Header) : Part := map [] header.fields

namespace SearchPattern

/-- The switches that do not have their default setting. -/
def writtenFlags (p : SearchPattern) : List PatternFlag :=
  PatternFlag.all.filter fun flag => p.flag flag ≠ flag.default

def encode (p : SearchPattern) : Part :=
  map (field "sp" (string p.pattern) ::
    p.writtenFlags.map (fun flag => field flag.key (boolean (p.flag flag))) ++
    optional (p.offset ≠ 0) "so" (signed p.offset)) p.additional

end SearchPattern

def Replacement.encode (r : Replacement) : Part := array [string r.text] r.additional

namespace HistoryItem

/-- The separator as far as it is written. -/
def writtenSeparator (item : HistoryItem) : Option Char :=
  if item.type = .search then item.separator else none

def encode (item : HistoryItem) : Part :=
  array ([unsigned item.type.id, string item.text] ++ item.writtenSeparator.toList.map character)
    item.additional

end HistoryItem

def Register.encode (r : Register) : Part :=
  map (field "rc" (array (r.contents.map string) []) ::
    optional (r.type ≠ .charWise) "rt" (unsigned r.type.id) ++
    optional (r.width ≠ 0) "rw" (unsigned r.width) ++
    optional r.isUnnamed "ru" (boolean true) ++
    [field "n" (character r.name)]) r.additional

def Variable.encode (v : Variable) : Part :=
  array [string v.name, .ok v.value.encode] v.additional

/-- A place, its name unless that is the default one or not wanted, and the
additional pairs. A place on line 0 could not be read back and is refused. -/
def Mark.encode (named : Bool) (mark : Mark) : Part :=
  if mark.lnum = 0 then .error (.lineZero mark.file)
  else
    map (field "f" (string mark.file.bytes) ::
      optional (mark.lnum ≠ 1) "l" (unsigned mark.lnum) ++
      optional (mark.col ≠ 0) "c" (unsigned mark.col) ++
      optional (named && mark.name ≠ defaultName) "n" (character mark.name)) mark.additional

def Buffer.encode (b : Buffer) : Part :=
  Mark.encode false { file := b.file, lnum := b.lnum, col := b.col, additional := b.additional }

/-- The payload of an entry. -/
def Content.encode : Content → Part
  | .header h => h.encode
  | .searchPattern p => p.encode
  | .replacement r => r.encode
  | .history item => item.encode
  | .register r => r.encode
  | .variable v => v.encode
  | .globalMark mark | .localMark mark => mark.encode true
  | .jump mark | .change mark => mark.encode false
  | .bufferList buffers => array (buffers.map Buffer.encode) []
  | .unknown _ payload => .ok payload

def Entry.encode (entry : Entry) : Except Error Bytes :=
  match entry.content.encode with
  | .ok payload => .ok payload
  | .error cause => .error (.unencodable entry.kind cause)

end SessionStore
