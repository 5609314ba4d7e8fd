import SessionStore.Collection.Table
import SessionStore.Path

/-! Directories and files, as their owner sees them. -/
namespace SessionStore

/-- The names that lead from the top of a disk to a file or directory. -/
abbrev Location := List Bytes

/-- A file with its permission bits and contents, or a directory. -/
inductive Node where
  | file (mode : Nat) (bytes : Bytes)
  | directory
  deriving DecidableEq

/-- Why the system refused something. -/
inductive DiskError where
  | notFound
  | notADirectory
  | isADirectory
  | alreadyExists
  | denied
  | badName
  deriving DecidableEq, Repr

/-- All that is below the top directory. -/
structure Disk where
  nodes : Table Location Node := .empty
  /-- Where relative paths start when the top is the root. Without it they start
  at the top, and absolute paths lead nowhere. -/
  workingDirectory : Option Location := none

namespace Disk

/-- What is at a location; the top directory itself is always there. -/
def node? (disk : Disk) (location : Location) : Option Node :=
  if location = [] then some .directory else disk.nodes.find? location

def isDirectoryAt (disk : Disk) (location : Location) : Bool :=
  match disk.node? location with
  | some .directory => true
  | _ => false

def put (disk : Disk) (location : Location) (node : Node) : Disk :=
  { disk with nodes := disk.nodes.insert location node }

def remove (disk : Disk) (location : Location) : Disk :=
  { disk with nodes := disk.nodes.erase location }

/-- The longest name that a directory can hold. -/
def nameLimit : Nat := 255

/-- The length from which a path is too long, wherever it leads. -/
def pathLimit : Nat := 4096

/-- The location that one more segment of a path leads to. -/
def step (disk : Disk) (location : Location) (segment : Bytes) : Except DiskError Location :=
  if disk.isDirectoryAt location then
    if segment = Bytes.ofAscii "." then .ok location
    else if segment = Bytes.ofAscii ".." then .ok location.dropLast
    else if nameLimit < segment.length then .error .badName
    else .ok (location ++ [segment])
  else if (disk.node? location).isSome then .error .notADirectory
  else .error .notFound

/-- Follows segments from a location; the last one need not lead to anything. -/
def walk (disk : Disk) : Location → List Bytes → Except DiskError Location
  | location, [] => .ok location
  | location, segment :: rest =>
    match disk.step location segment with
    | .ok next => disk.walk next rest
    | .error e => .error e

/-- Where a path starts. -/
def start (disk : Disk) (path : Path) : Except DiskError Location :=
  if path.bytes.contains 0 ∨ pathLimit ≤ path.bytes.length then .error .badName
  else if path.isEmpty ∨ (path.isAbsolute ∧ disk.workingDirectory = none) then .error .notFound
  else .ok (if path.isAbsolute then [] else disk.workingDirectory.getD [])

/-- The names between the slashes of a path. -/
def segments (path : Path) : List Bytes := (Path.pieces path.bytes).filter (· ≠ [])

/-- Whether a path can only lead to a directory. -/
def asksForDirectory (path : Path) : Bool := path.bytes.getLast? = some Path.slash

/-- The location of a path, where there need not be anything. -/
def locate (disk : Disk) (path : Path) : Except DiskError Location := do
  disk.walk (← disk.start path) (segments path)

/-- The location of a path, and what is there. -/
def find (disk : Disk) (path : Path) : Except DiskError (Location × Node) := do
  let location ← disk.locate path
  match disk.node? location with
  | none => throw .notFound
  | some .directory => return (location, .directory)
  | some node => if asksForDirectory path then throw .notADirectory else return (location, node)

def isDirectory (disk : Disk) (path : Path) : Bool :=
  match disk.find path with
  | .ok (_, .directory) => true
  | _ => false

def isFile (disk : Disk) (path : Path) : Bool :=
  match disk.find path with
  | .ok (_, .file ..) => true
  | _ => false

/-- The owner's right to read. -/
def isReadable (mode : Nat) : Bool := mode.testBit 8

/-- The owner's right to write. -/
def isWritable (mode : Nat) : Bool := mode.testBit 7

/-- Opens something for reading: a file with its contents, or a directory, which
can be opened but not read. -/
def openForReading (disk : Disk) (path : Path) : Except DiskError (Location × Node) := do
  match ← disk.find path with
  | (location, .file mode bytes) =>
    if isReadable mode then return (location, .file mode bytes) else throw .denied
  | directory => return directory

/-- The contents of a file. -/
def readFile (disk : Disk) (path : Path) : Except DiskError Bytes := do
  match ← disk.openForReading path with
  | (_, .file _ bytes) => return bytes
  | (_, .directory) => throw .isADirectory

/-- Writing takes the set-user-id bit away, and the set-group-id bit where the group may execute. -/
def modeAfterWriting (mode : Nat) : Nat :=
  let mode := if mode.testBit 11 then mode - 0o4000 else mode
  if mode.testBit 10 && mode.testBit 3 then mode - 0o2000 else mode

/-- Makes a directory in an existing one. -/
def makeDirectory (disk : Disk) (path : Path) : Except DiskError Disk := do
  let location ← disk.locate path
  if (disk.node? location).isSome then throw .alreadyExists
  return disk.put location .directory

/-- Makes a directory and those that lead to it, and keeps what it made before it was refused. -/
def makeDirectories (disk : Disk) (path : Path) : Disk × Option DiskError :=
  go disk (path.bytes.length + 1) path
where
  go (disk : Disk) : Nat → Path → Disk × Option DiskError
    | 0, _ => (disk, some .notFound)
    | fuel + 1, path =>
      match disk.makeDirectory path with
      | .ok disk => (disk, none)
      | .error .notFound =>
        match path.parent? with
        | none => (disk, some .notFound)
        | some parent =>
          if parent.isEmpty then (disk, some .notFound)
          else
            match go disk fuel parent with
            | (disk, some e) => (disk, some e)
            | (disk, none) => settle disk path (disk.makeDirectory path)
      | refused => settle disk path refused
  /-- A directory that is there already will do. -/
  settle (disk : Disk) (path : Path) : Except DiskError Disk → Disk × Option DiskError
    | .ok disk => (disk, none)
    | .error e => (disk, if disk.isDirectory path then none else some e)

/-- The mode of a file that a session file is written to for the first time. -/
def privateMode : Nat := 0o600

/-- Opens a file for writing from its start, with a private mode when it is new:
its location and its mode after the writing. -/
def openForWriting (disk : Disk) (path : Path) : Except DiskError (Location × Nat) := do
  let location ← disk.locate path
  match disk.node? location with
  | some .directory => throw .isADirectory
  | some (.file mode _) =>
    if asksForDirectory path then throw .notADirectory
    if isWritable mode then return (location, modeAfterWriting mode) else throw .denied
  | none => if asksForDirectory path then throw .isADirectory else return (location, privateMode)

/-- Makes a new empty file. -/
def createNew (disk : Disk) (path : Path) (mode : Nat) : Except DiskError (Location × Disk) := do
  let location ← disk.locate path
  if (disk.node? location).isSome then throw .alreadyExists
  return (location, disk.put location (.file mode []))

/-- Moves a file over another one. -/
def rename (disk : Disk) (source target : Location) : Disk :=
  match disk.node? source with
  | some node => (disk.remove source).put target node
  | none => disk

/-- Puts a file in place with the directories that lead to it, for whoever prepares a disk. -/
def placeFile (disk : Disk) (path : Path) (mode : Nat) (bytes : Bytes) : Except DiskError Disk := do
  let made :=
    (path.parent?.filter (!·.isEmpty)).elim disk fun parent => (disk.makeDirectories parent).1
  let location ← made.locate path
  if made.isDirectoryAt location then throw .isADirectory
  return made.put location (.file mode bytes)

end Disk

end SessionStore
