import SessionStore.Disk
import SessionStore.Restore
import SessionStore.Save

/-! Session files on disk. A merge goes to a new file beside the target, which
then takes its place, so that a failure leaves the target as it was. -/
namespace SessionStore

inductive WriteMode where
  /-- Merges with the previous file and replaces it as a whole. -/
  | merge
  /-- Ignores the previous file and writes over it. -/
  | overwrite
  deriving DecidableEq, Repr

namespace Disk

/-- Opens a session file, none when there is no such file. -/
def openSession (disk : Disk) (path : Path) : Except Error (Option (Location × Node)) :=
  match disk.openForReading path with
  | .ok found => .ok (some found)
  | .error .notFound => .ok none
  | .error _ => .error (.system (.openFile path))

/-- What reading from an opened file gives; a directory gives a failure. -/
def contents : Node → Stream
  | .file _ bytes => { bytes }
  | .directory => { bytes := [], failing := true }

/-- The permission bits of an opened file. -/
def modeOf : Node → Nat
  | .file mode _ => mode
  | .directory => 0o755

/-- The mode of a file that replaces one of this mode: no execute or set-id
bits, and the owner can read and write. -/
def replacementMode (mode : Nat) : Nat := (mode &&& 0o666) ||| 0o600

/-- The names for a file beside the target, in the order in which they are tried. -/
def temporaryPaths (path : Path) : List Path :=
  "abcdefghijklmnopqrstuvwxyz".toList.map fun letter =>
    ⟨path.bytes ++ Bytes.ofAscii ".tmp." ++ [letter.toUInt8]⟩

/-- What fails while a file is replaced, whatever is on the disk: nothing unless it is told here. -/
structure Faults where
  /-- How many bytes of the previous file can be read. -/
  readable : Option Nat := none
  /-- How many bytes the new file has room for. -/
  room : Option Nat := none
  /-- What is left of a new file that cannot be removed again. -/
  leftover : Path → Option Node := fun _ => none
  /-- Whatever else the system refuses. -/
  refuses : Attempt → Bool := fun _ => false

/-- Removes a new file again. That it cannot be removed is no failure of its own. -/
def discard (disk : Disk) (faults : Faults) (temporary : Path) (location : Location) : Disk :=
  match faults.leftover temporary with
  | none => disk.remove location
  | some left => disk.put location left

/-- Makes the first of some files that does not exist yet. Without its mode it is removed again. -/
def createFirst (disk : Disk) (faults : Faults) (mode : Nat) (target : Path) :
    List Path → Disk × Except Error (Path × Location)
  | [] => (disk, .error (.noFreeName target))
  | candidate :: rest =>
    match disk.createNew candidate mode with
    | .ok (location, made) =>
      if faults.refuses (.create candidate) then (disk, .error (.system (.create candidate)))
      else if faults.refuses (.setMode candidate) then
        (made.discard faults candidate location, .error (.system (.setMode candidate)))
      else (made, .ok (candidate, location))
    | .error .alreadyExists => disk.createFirst faults mode target rest
    | .error _ => (disk, .error (.system (.create candidate)))

/-- Writes over a file, with the directories that lead to it. -/
def writeOver (settings : Settings) (occasion : Occasion) (session : Session) (path : Path)
    (disk : Disk) : Disk × Except Error SaveReport :=
  let (made, refused) := (path.parent?.filter (!·.isEmpty)).elim (disk, none) disk.makeDirectories
  match refused, made.openForWriting path with
  | some _, _ => (made, .error (.system (.create (path.parent?.getD .empty))))
  | none, .error _ => (made, .error (.system (.openFile path)))
  | none, .ok (location, mode) =>
    let (sink, outcome) := session.save settings occasion none {}
    (made.put location (.file mode sink.bytes), outcome)

/-- What reading the previous file gives. -/
def Faults.contents (faults : Faults) (previous : Node) : Stream :=
  match faults.readable with
  | none => Disk.contents previous
  | some n => { bytes := (Disk.contents previous).bytes.take n, failing := true }

/-- What comes of writing the merge with an opened file to a new one. -/
def Faults.fill (faults : Faults) (settings : Settings) (occasion : Occasion) (session : Session)
    (previous : Node) (temporary : Path) : Except Error (Bytes × SaveReport) :=
  match session.save settings occasion (some (faults.contents previous))
    { limit := faults.room } with
  | (_, .error e) => .error e
  | (sink, .ok report) =>
    if faults.refuses (.write temporary) then .error (.system (.write temporary))
    else .ok (sink.bytes, report)

/-- Writes the merge with an opened file to a new file beside it, which takes
its place when it is complete and is removed when it is not. -/
def writeBeside (settings : Settings) (occasion : Occasion) (session : Session) (path : Path)
    (target : Location) (previous : Node) (faults : Faults) (disk : Disk) :
    Disk × Except Error SaveReport :=
  let mode := replacementMode (modeOf previous)
  if faults.refuses (.inspect path) then (disk, .error (.system (.inspect path)))
  else
    match disk.createFirst faults mode path (temporaryPaths path) with
    | (disk, .error e) => (disk, .error e)
    | (disk, .ok (temporary, location)) =>
      match faults.fill settings occasion session previous temporary with
      | .error e => (disk.discard faults temporary location, .error e)
      | .ok (bytes, report) =>
        let complete := disk.put location (.file mode bytes)
        if faults.refuses (.replace temporary path) then
          (complete, .error (.system (.replace temporary path)))
        else (complete.rename location target, .ok report)

end Disk

namespace Session

/-- Writes the session to a file. -/
def saveFile (settings : Settings) (occasion : Occasion) (session : Session) (mode : WriteMode)
    (path : Path) (disk : Disk) (faults : Disk.Faults := {}) : Disk × Except Error SaveReport :=
  match mode with
  | .overwrite =>
    let (disk, outcome) := disk.writeOver settings occasion session path
    (disk, outcome.map fun report => { report with merge := .overwritten })
  | .merge =>
    match disk.openSession path with
    | .error e => (disk, .error e)
    | .ok none => disk.writeOver settings occasion session path
    | .ok (some (target, previous)) =>
      disk.writeBeside settings occasion session path target previous faults

/-- Restores a file into the session. -/
def restoreFile (settings : Settings) (options : RestoreOptions) (session : Session) (path : Path)
    (disk : Disk) : Session × Except Error RestoreReport :=
  match disk.openSession path with
  | .error e => (session, .error e)
  | .ok none => (session, if options.missingIsError then .error (.missing path) else .ok {})
  | .ok (some (_, node)) => session.restore settings options (Disk.contents node)

end Session

end SessionStore
