import SessionStore.Disk
import SessionStore.Error
import SessionStore.Settings
import SessionStore.Toml.Reader

/-! Settings in a TOML document, where every key must be known and have a value of its type. -/
namespace SessionStore

namespace Toml

/-- A count, which is an integer that is not negative. -/
def Value.count? : Value → Option Nat
  | .integer n => if 0 ≤ n then some n.toNat else none
  | _ => none

def Value.switch? : Value → Option Bool
  | .boolean b => some b
  | _ => none

/-- A path, which is a text or the text of a date or time. -/
def Value.path? : Value → Option Path
  | .string text => some ⟨Bytes.ofText text⟩
  | .dateTime d => some ⟨Bytes.ofText d.text.toList⟩
  | _ => none

def Value.paths? : Value → Option (List Path)
  | .array items => items.mapM path?
  | _ => none

end Toml

namespace Settings

/-- The limits of histories named one by one, or listed in the order of their
types; those left out keep theirs. -/
def historyLimits? (limits : PerHistory Nat) : Toml.Value → Option (PerHistory Nat)
  | .table entries => entries.foldlM (fun limits (key, v) => do
      let type ← HistoryType.all.find? (·.name = String.ofList key)
      return limits.set type (← v.count?)) limits
  | .array items =>
    if items.length ≤ HistoryType.all.length then
      (HistoryType.all.zip items).foldlM (fun limits (type, v) => do
        return limits.set type (← v.count?)) limits
    else none
  | _ => none

/-- The settings with the value of one key. -/
def assign (s : Settings) (key : Toml.Key) (v : Toml.Value) : Option Settings :=
  match String.ofList key with
  | "path" => v.path?.map fun path => { s with path := some path }
  | "max-kbyte" => v.count?.map fun n => { s with maxKbyte := UInt64.ofNat n }
  | "register-lines" => v.count?.map fun n => { s with registerLines := n }
  | "marked-files" => v.count?.map fun n => { s with markedFiles := n }
  | "buffer-list" => v.count?.map fun n => { s with bufferList := some n }
  | "variables" => v.switch?.map fun b => { s with globalVariables := b }
  | "global-marks" => v.switch?.map fun b => { s with globalMarks := b }
  | "history" => (historyLimits? s.history v).map fun limits => { s with history := limits }
  | "jumps" => v.count?.map fun n => { s with jumps := n }
  | "changes" => v.count?.map fun n => { s with changes := n }
  | "removable" => v.paths?.map fun paths => { s with removable := paths }
  | _ => none

/-- The settings that a table describes; those it leaves out have their defaults. -/
def ofTable? (entries : List (Toml.Key × Toml.Value)) : Option Settings :=
  entries.foldlM (fun s (key, v) => s.assign key v) {}

/-- The table that holds the settings: the one under this name if there is one,
or else the whole document. -/
def settingsTable (entries : List (Toml.Key × Toml.Value)) : List (Toml.Key × Toml.Value) :=
  match entries.find? fun entry => entry.1 = "shada".toList with
  | some (_, .table inner) => inner
  | _ => entries

/-- The settings that a document describes. The path only says in an error where the document is. -/
def ofDocument (document : List Char) (path : Path) : Except Error Settings :=
  match (Toml.read document).bind fun entries => ofTable? (settingsTable entries) with
  | some s => .ok s
  | none => .error (.settings path)

/-- The settings in a file. -/
def load (disk : Disk) (path : Path) : Except Error Settings :=
  match disk.readFile path with
  | .error _ => .error (.system (.readSettings path))
  | .ok bytes =>
    match Utf8.decode? bytes with
    | none => .error (.system (.readSettings path))
    | some document => ofDocument document path

/-- The settings in the file asked for, or else in the usual one if it exists,
or else the defaults. -/
def discover (disk : Disk) (usual asked : Option Path) : Except Error Settings :=
  match asked, usual with
  | some path, _ => load disk path
  | none, some path => if disk.isFile path then load disk path else .ok {}
  | none, none => .ok {}

end Settings

end SessionStore
