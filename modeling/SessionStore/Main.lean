import SessionStore.CommandLine.Commands
import SessionStore.Settings.Document
import SessionStore.Settings.Location
import Std.Time.DateTime.Timestamp

/-! The program. A command runs on a picture of the files that it may touch, and
what it changed there is carried over to the system. -/
namespace SessionStore.CommandLine

def UsageError.message : UsageError → String
  | .helpAsked | .versionAsked | .nothingAsked => ""
  | .missingCommand => "a command is missing"
  | .unknownCommand => "there is no such command"
  | .unknownWord => "a word has no meaning here"
  | .missingValue => "an option has no value"
  | .needlessValue => "a switch has a value"
  | .missingOption => "save needs --from"
  | .conflict => "an option is given twice, or excluded by another one"

def usage : List String :=
  ["usage: the-shada [OPTIONS] load [--force] [--missing-error] " ++
      "[--no-marks | --marks-only] [--old-files]",
    "       the-shada [OPTIONS] save --from FILE [--overwrite]",
    "       the-shada [OPTIONS] dump",
    "options: -i, --shada-file FILE   the session file instead of the configured one",
    "         -c, --config FILE       the settings",
    "         -v, --log FILE          accepted, but nothing is logged"]

/-- The place of a location in the system. -/
def systemPath (location : Location) : Path :=
  ⟨location.flatMap (Path.slash :: ·)⟩

/-- What can be read from an opened file; what cannot be read counts as a directory. -/
def contents (handle : IO.FS.Handle) : IO Node := do
  try
    return .file Disk.privateMode (← handle.readBinToEnd).toList
  catch _ => return .directory

/-- What is at a place of the system. What may not be opened counts as a file without any rights. -/
def look (place : String) : IO (Option Node) := do
  try
    return some (← contents (← IO.FS.Handle.mk place .read))
  catch e =>
    match e with
    | .noFileOrDirectory .. => return none
    | _ => return some (.file 0 [])

/-- Adds to the picture what a path leads through and to. -/
def observe (disk : Disk) (path : Path) : IO Disk := do
  match disk.start path with
  | .error _ => return disk
  | .ok start =>
    let names := start ++ Disk.segments path
    (List.range names.length).foldlM (fun disk n => do
      match disk.walk [] (names.take (n + 1)) with
      | .ok (name :: rest) =>
        match ← look (systemPath (name :: rest)).display with
        | some node => return disk.put (name :: rest) node
        | none => return disk
      | _ => return disk) disk

/-- Writes a file, in place or by way of a private file beside it that takes its
place when it is complete. -/
def writeFile (place : String) (beside : Option Path) (bytes : Bytes) : IO Unit := do
  let contents : ByteArray := ⟨bytes.toArray⟩
  match beside with
  | none => IO.FS.writeBinFile place contents
  | some temporary =>
    IO.FS.writeBinFile temporary.display contents
    IO.setAccessRights temporary.display { user := { read := true, write := true } }
    IO.FS.rename temporary.display place

/-- Makes the system agree with the picture after a command. A file that was
there is written in place only if the command overwrites. -/
def carryOver (overwrites : Bool) (before after : Disk) : IO Unit := do
  for (location, node) in after.nodes.entries do
    let held := before.node? location
    if held ≠ some node then
      let place := systemPath location
      match node with
      | .directory => IO.FS.createDir place.display
      | .file _ bytes =>
        let isFree (path : Path) := (before.find path).toOption.isNone
        let beside :=
          if overwrites && held.isSome then none else (Disk.temporaryPaths place).find? isFree
        writeFile place.display beside bytes

def environment : IO Environment := do
  let told (name : String) : IO (Option Path) :=
    return (← IO.getEnv name).map fun value => ⟨Bytes.ofText value.toList⟩
  return { home := ← told "HOME"
           configHome := ← told "XDG_CONFIG_HOME"
           stateHome := ← told "XDG_STATE_HOME"
           stateDirectory := ← told "THE_SHADA_STATE_DIR" }

/-- The present. The main thread has the id of the process. -/
def occasion : IO Occasion := do
  let now ← Std.Time.Timestamp.now
  return {
    now := UInt64.ofNat now.toSecondsSinceUnixEpoch.val.toNat
    processId := (← IO.getTID).toUInt32 }

/-- The files beside the session file that a command may touch. -/
def Command.paths (path : Path) : Command → List Path
  | .load _ | .dump => [path]
  | .save source _ => source :: path :: Disk.temporaryPaths path

def Command.overwrites : Command → Bool
  | .save _ .overwrite => true
  | _ => false

def complain (lines : List String) : IO UInt32 := do
  IO.eprint (unlines lines)
  return 1

/-- Carries out a request: the exit code is 0 unless something failed. -/
def Request.perform (request : Request) : IO UInt32 := do
  let environment ← environment
  let directory : Path := ⟨Bytes.ofText (toString (← IO.currentDir)).toList⟩
  let disk : Disk := { workingDirectory := some (Disk.segments directory) }
  let disk ← observe disk directory
  let usual := environment.settingsFile
  let disk ← (usual.toList ++ request.settingsFile.toList).foldlM observe disk
  match Settings.discover disk usual request.settingsFile with
  | .error e => complain [e.message]
  | .ok settings =>
    match request.sessionFile.orElse fun _ => settings.sessionFile environment with
    | none => complain ["no location for the ShaDa file, pass --shada-file"]
    | some path =>
      let disk ← (request.command.paths path).foldlM observe disk
      let (after, outcome) := request.command.run settings (← occasion) path disk
      carryOver request.command.overwrites disk after
      IO.print outcome.out
      match outcome.failure with
      | none => return 0
      | some failure =>
        complain (failure.attempt.toList ++ (failure.cause.map Error.message).toList)

/-- Carries out what the words of a command line ask for. Words that ask for
nothing give the exit code 2. -/
def run (words : List String) : IO UInt32 := do
  match Request.ofWords (words.map fun word => Bytes.ofText word.toList) with
  | .ok request => request.perform
  | .error .helpAsked =>
    IO.print (unlines usage)
    return 0
  | .error .versionAsked =>
    IO.println "the-shada 0.1.0"
    return 0
  | .error e =>
    IO.eprint (unlines (e.message :: usage))
    return 2

end SessionStore.CommandLine

def main (words : List String) : IO UInt32 := SessionStore.CommandLine.run words
