import SessionStore.Entry
import SessionStore.Msgpack.Reader

/-! What can go wrong with a session file, and how it is told. -/
namespace SessionStore

/-- Why a payload does not fit its kind. -/
inductive SchemaError where
  | malformed (cause : Msgpack.ReadError)
  | trailingBytes (n : Nat)
  | wrongType (field expected : String)
  | missing (field : String)
  | lineNumber (n : Int)
  | column (n : Int)
  | emptyContents
  | invalidCharacter (field : String) (code : UInt64)
  | unknownHistoryType (id : UInt64)
  | unknownRegisterType (id : UInt64)
  deriving DecidableEq, Repr

def SchemaError.message : SchemaError → String
  | .malformed cause => "payload is not valid msgpack: " ++ cause.message
  | .trailingBytes n => toString n ++ " trailing bytes after the payload value"
  | .wrongType field expected => field ++ " must be " ++ expected
  | .missing field => "missing mandatory field " ++ field
  | .lineNumber n => "line number must be positive, got " ++ toString n
  | .column n => "column must not be negative, got " ++ toString n
  | .emptyContents => "register contents must not be empty"
  | .invalidCharacter field code => field ++ " is not a valid character: " ++ toString code
  | .unknownHistoryType id => "unknown history type " ++ toString id
  | .unknownRegisterType id => "unknown register type " ++ toString id

/-- Why an entry has no payload. -/
inductive EncodingError where
  | lineZero (file : Path)
  | tooLong (length : Nat)

def EncodingError.message : EncodingError → String
  | .lineZero file => "line number 0 in " ++ file.display
  | .tooLong length => "length " ++ toString length ++ " does not fit in a msgpack container"

/-- The integers in front of a payload. -/
inductive EnvelopeField where
  | kind
  | timestamp
  | length
  deriving DecidableEq, Repr

def EnvelopeField.name : EnvelopeField → String
  | .kind => "kind"
  | .timestamp => "timestamp"
  | .length => "payload length"

/-- How a stream of frames can be broken. -/
inductive FormatFault where
  | endInField (field : EnvelopeField)
  | notAnInteger (field : EnvelopeField) (found : UInt8)
  | reservedKind
  | shortPayload (declared present : Nat)
  deriving DecidableEq, Repr

/-- Two hexadecimal digits. -/
def hexByte (b : UInt8) : String :=
  String.ofList [Nat.digitChar (b.toNat / 16), Nat.digitChar (b.toNat % 16)]

def FormatFault.reason : FormatFault → String
  | .endInField field => "unexpected end of file while reading entry " ++ field.name
  | .notAnInteger field found =>
    "expected positive integer for entry " ++ field.name ++ ", found byte 0x" ++ hexByte found
  | .reservedKind => "entry kind 0 is reserved and never written"
  | .shortPayload declared present =>
    "entry declares " ++ toString declared ++ " payload bytes but only " ++
      toString present ++ " remain"

/-- What was attempted when the system refused. -/
inductive Attempt where
  | readAt (offset : Nat)
  | writeEntry
  | openFile (path : Path)
  | create (path : Path)
  | inspect (path : Path)
  | setMode (path : Path)
  | write (path : Path)
  /-- Putting a complete file in the place of another one; it stays where it is if that fails. -/
  | replace (temporary target : Path)
  | readSettings (path : Path)

def Attempt.description : Attempt → String
  | .readAt offset => "failed to read ShaDa data at byte " ++ toString offset
  | .writeEntry => "failed to write ShaDa entry"
  | .openFile path => "failed to open " ++ path.display
  | .create path => "failed to create " ++ path.display
  | .inspect path => "failed to stat " ++ path.display
  | .setMode path => "failed to set the mode of " ++ path.display
  | .write path => "failed to write " ++ path.display
  | .replace temporary target =>
    "failed to rename " ++ temporary.display ++ " to " ++ target.display ++
      "; the merged data is kept in " ++ temporary.display
  | .readSettings path => "failed to read config " ++ path.display

inductive Error where
  | format (offset : Nat) (fault : FormatFault)
  | item (offset : Nat) (kind : Kind) (cause : SchemaError)
  | unencodable (kind : Kind) (cause : EncodingError)
  | system (attempt : Attempt)
  | noFreeName (path : Path)
  | missing (path : Path)
  | settings (path : Path)

namespace Error

/-- Whether the error ends what was going on. One entry that cannot be read or
written is only left out. -/
def isFatal : Error → Bool
  | .item .. | .unencodable .. => false
  | _ => true

def message : Error → String
  | .format offset fault =>
    "malformed ShaDa data at byte " ++ toString offset ++ ": " ++ fault.reason
  | .item offset kind cause =>
    "invalid " ++ kind.name ++ " entry at byte " ++ toString offset ++ ": " ++ cause.message
  | .unencodable kind cause => "cannot encode " ++ kind.name ++ " entry: " ++ cause.message
  | .system attempt => attempt.description
  | .noFreeName path =>
    "cannot write " ++ path.display ++
      ": temporary files .tmp.a through .tmp.z all exist; remove them and retry"
  | .missing path => path.display ++ " does not exist"
  | .settings path => "invalid configuration in " ++ path.display

end Error

end SessionStore
