import SessionStore.Error

/-! Reading payloads: which fields each kind has, and what they may hold. -/
namespace SessionStore

open Msgpack (Value)

namespace Schema

/-- The reading of one field, or why it cannot be read. -/
abbrev Reading := Except SchemaError

def string (field : String) (value : Value) : Reading Bytes :=
  match value.bytes? with
  | some bytes => .ok bytes
  | none => .error (.wrongType field "a string")

def boolean (field : String) (value : Value) : Reading Bool :=
  match value.bool? with
  | some b => .ok b
  | none => .error (.wrongType field "a boolean")

def unsigned (field : String) (value : Value) : Reading UInt64 :=
  match value.uint64? with
  | some n => .ok n
  | none => .error (.wrongType field "a non-negative integer")

def signed (field : String) (value : Value) : Reading Int64 :=
  match value.int64? with
  | some n => .ok n
  | none => .error (.wrongType field "an integer")

def pairs (field : String) : Value → Reading (List (Value × Value))
  | .map pairs => .ok pairs
  | _ => .error (.wrongType field "a map")

def items (field : String) : Value → Reading (List Value)
  | .array items => .ok items
  | _ => .error (.wrongType field "an array")

def lineNumber : Value → Reading UInt64
  | .int n =>
    match n.toUInt64? with
    | some lnum => if lnum = 0 then .error (.lineNumber 0) else .ok lnum
    | none => .error (.lineNumber n.toInt)
  | _ => .error (.wrongType "l" "an integer")

def column : Value → Reading UInt64
  | .int n =>
    match n.toUInt64? with
    | some col => .ok col
    | none => .error (.column n.toInt)
  | _ => .error (.wrongType "c" "an integer")

/-- A character is stored as its code point. -/
def character (field : String) (value : Value) : Reading Char := do
  let code ← unsigned field value
  if code.toNat.isValidChar then return Char.ofNat code.toNat
  throw (.invalidCharacter field code)

/-- What a value is the key of; keys may be strings or binary data. -/
def keyIn {κ : Type} (keys : List (String × κ)) (value : Value) : Option κ :=
  value.bytes?.bind fun bytes => (keys.find? fun key => Bytes.ofAscii key.1 = bytes).map Prod.snd

/-- The pairs whose keys are none of these. -/
def unknownPairs {κ : Type} (keys : List (String × κ)) (pairs : List (Value × Value)) :
    ExtraPairs :=
  pairs.filter fun pair => (keyIn keys pair.1).isNone

/-- Takes in the pairs with known keys one after the other, so that the last one of a key counts. -/
def foldPairs {κ σ : Type} (keys : List (String × κ)) (put : σ → κ → Value → Reading σ) :
    σ → List (Value × Value) → Reading σ
  | state, [] => .ok state
  | state, (key, value) :: rest =>
    match keyIn keys key with
    | none => foldPairs keys put state rest
    | some k =>
      match put state k value with
      | .ok state => foldPairs keys put state rest
      | .error e => .error e

end Schema

open Schema

/-- The spelling of a pattern's switch. -/
def PatternFlag.key : PatternFlag → String
  | .magic => "sm"
  | .smartcase => "sc"
  | .lineOffset => "sl"
  | .cursorAtEnd => "se"
  | .lastUsed => "su"
  | .substitute => "ss"
  | .highlighted => "sh"
  | .backward => "sb"

namespace SearchPattern

/-- The fields of a search pattern. -/
inductive Field where
  | pattern
  | flag (flag : PatternFlag)
  | offset

def keys : List (String × Field) :=
  ("sp", .pattern) :: ("so", .offset) :: PatternFlag.all.map fun flag => (flag.key, .flag flag)

/-- The pattern text, once seen, and the pattern so far. -/
structure Draft where
  text : Option Bytes := none
  pattern : SearchPattern := {}

def Draft.put (draft : Draft) (field : Field) (value : Value) : Reading Draft :=
  match field with
  | .pattern => do return { draft with text := some (← string "sp" value) }
  | .offset => do
    return { draft with pattern := { draft.pattern with offset := ← signed "so" value } }
  | .flag flag => do
    return { draft with pattern := draft.pattern.setFlag flag (← boolean flag.key value) }

def ofValue (value : Value) : Reading SearchPattern := do
  let pairs ← pairs "search pattern" value
  let draft ← foldPairs keys Draft.put {} pairs
  match draft.text with
  | some text =>
    return { draft.pattern with pattern := text, additional := unknownPairs keys pairs }
  | none => throw (.missing "sp")

end SearchPattern

def Header.ofValue (value : Value) : Reading Header := do
  return { fields := ← pairs "header" value }

def Replacement.ofValue (value : Value) : Reading Replacement := do
  match ← items "replacement string" value with
  | [] => throw (.missing "replacement text")
  | first :: additional => return { text := ← string "replacement text" first, additional }

namespace HistoryItem

/-- Only a search has its separator in front of the additional elements. -/
def separatorOf (type : HistoryType) (items : List Value) : Reading (Option Char × ExtraItems) :=
  match type, items with
  | .search, first :: rest => do return (some (← character "search separator" first), rest)
  | _, items => return (none, items)

def ofValue (value : Value) : Reading HistoryItem := do
  match ← items "history entry" value with
  | [] => throw (.missing "history type")
  | first :: rest =>
    let id ← unsigned "history type" first
    let some type := HistoryType.ofId id | throw (.unknownHistoryType id)
    match rest with
    | [] => throw (.missing "history text")
    | second :: rest =>
      let text ← string "history text" second
      let (separator, additional) ← separatorOf type rest
      return { type, text, separator, additional }

end HistoryItem

namespace Register

/-- The fields of a register. -/
inductive Field where
  | contents
  | type
  | width
  | isUnnamed
  | name

def keys : List (String × Field) :=
  [("rc", .contents), ("rt", .type), ("rw", .width), ("ru", .isUnnamed), ("n", .name)]

/-- The contents, once seen, and the register so far. -/
structure Draft where
  contents : Option (List Bytes) := none
  register : Register := {}

def Draft.put (draft : Draft) (field : Field) (value : Value) : Reading Draft :=
  match field with
  | .contents => do
    let lines ← (← items "rc" value).mapM (string "rc")
    return { draft with contents := some lines }
  | .type => do
    let id ← unsigned "rt" value
    let some type := RegisterType.ofId id | throw (.unknownRegisterType id)
    return { draft with register := { draft.register with type } }
  | .width => do
    return { draft with register := { draft.register with width := ← unsigned "rw" value } }
  | .isUnnamed => do
    return { draft with register := { draft.register with isUnnamed := ← boolean "ru" value } }
  | .name => do
    return { draft with register := { draft.register with name := ← character "n" value } }

def ofValue (value : Value) : Reading Register := do
  let pairs ← pairs "register" value
  let draft ← foldPairs keys Draft.put {} pairs
  match draft.contents with
  | none => throw (.missing "rc")
  | some [] => throw .emptyContents
  | some contents => return { draft.register with contents, additional := unknownPairs keys pairs }

end Register

def Variable.ofValue (value : Value) : Reading Variable := do
  match ← items "variable" value with
  | [] => throw (.missing "variable name")
  | first :: rest =>
    let name ← string "variable name" first
    match rest with
    | [] => throw (.missing "variable value")
    | value :: additional => return { name, value, additional }

namespace Mark

/-- The fields of a place in a file. -/
inductive Field where
  | file
  | lnum
  | col
  | name

/-- A place without name has the key of a name among its additional pairs. -/
def keys (named : Bool) : List (String × Field) :=
  [("f", .file), ("l", .lnum), ("c", .col)] ++ if named then [("n", .name)] else []

/-- The file, once seen, and the mark so far. -/
structure Draft where
  file : Option Bytes := none
  mark : Mark := { file := .empty }

def Draft.put (draft : Draft) (field : Field) (value : Value) : Reading Draft :=
  match field with
  | .file => do return { draft with file := some (← string "f" value) }
  | .lnum => do return { draft with mark := { draft.mark with lnum := ← lineNumber value } }
  | .col => do return { draft with mark := { draft.mark with col := ← column value } }
  | .name => do return { draft with mark := { draft.mark with name := ← character "n" value } }

/-- The place that the pairs describe. -/
def ofPairs (named : Bool) (pairs : List (Value × Value)) : Reading Mark := do
  let draft ← foldPairs (keys named) Draft.put {} pairs
  match draft.file with
  | some file =>
    return { draft.mark with file := ⟨file⟩, additional := unknownPairs (keys named) pairs }
  | none => throw (.missing "f")

def ofValue (named : Bool) (value : Value) : Reading Mark := do
  ofPairs named (← pairs "mark" value)

end Mark

def Buffer.ofValue (value : Value) : Reading Buffer := do
  let mark ← Mark.ofPairs false (← pairs "buffer list item" value)
  return { file := mark.file, lnum := mark.lnum, col := mark.col, additional := mark.additional }

/-- What a payload value says under a kind. -/
def Content.ofValue (kind : Kind) (value : Value) : Reading Content :=
  match kind with
  | .header => .header <$> Header.ofValue value
  | .searchPattern => .searchPattern <$> SearchPattern.ofValue value
  | .replacement => .replacement <$> Replacement.ofValue value
  | .history => .history <$> HistoryItem.ofValue value
  | .register => .register <$> Register.ofValue value
  | .variable => .variable <$> Variable.ofValue value
  | .globalMark => .globalMark <$> Mark.ofValue true value
  | .jump => .jump <$> Mark.ofValue false value
  | .bufferList => do return .bufferList (← (← items "buffer list" value).mapM Buffer.ofValue)
  | .localMark => .localMark <$> Mark.ofValue true value
  | .change => .change <$> Mark.ofValue false value
  | .unknown => .error (.wrongType "kind" "a known entry kind")

/-- The one value that makes up a payload. -/
def Schema.payloadValue (payload : Bytes) : Reading Value :=
  match Value.read Value.depthBudget payload with
  | .error cause => .error (.malformed cause)
  | .ok (value, []) => .ok value
  | .ok (_, rest) => .error (.trailingBytes rest.length)

/-- A stored entry before its payload is understood. -/
structure Frame where
  kind : UInt64
  timestamp : Timestamp
  payload : Bytes
  /-- Where the frame begins in its stream. -/
  offset : Nat := 0

/-- The entry in a frame. A frame without a known kind keeps its payload as it is. -/
def Frame.decode (frame : Frame) : Except Error Entry :=
  match (Kind.ofId frame.kind).getD .unknown with
  | .unknown => .ok ⟨frame.timestamp, .unknown frame.kind frame.payload⟩
  | kind =>
    match payloadValue frame.payload >>= Content.ofValue kind with
    | .ok content => .ok ⟨frame.timestamp, content⟩
    | .error cause => .error (.item frame.offset kind cause)

end SessionStore
