import SessionStore.CommandLine.Arguments
import SessionStore.CommandLine.EntryLine

/-! What the commands do and print. -/
namespace SessionStore.CommandLine

/-- Why a command failed. -/
structure Failure where
  /-- What was attempted, unless the cause says it all. -/
  attempt : Option String
  /-- None when the system refused to open the file. -/
  cause : Option Error

/-- What a command printed before it came to its end or failed. -/
structure Outcome where
  out : String := ""
  failure : Option Failure := none

namespace Outcome

def success (out : String) : Outcome := { out }

/-- The failure of an attempt before anything was printed. -/
def failed (attempt : String) (cause : Error) : Outcome := { failure := some ⟨attempt, cause⟩ }

end Outcome

def unlines (lines : List String) : String := String.join (lines.map (· ++ "\n"))

/-- A summary of what a restore brought into an empty session. -/
def loadSummary (options : RestoreOptions) (path : Path) (session : Session)
    (report : RestoreReport) : List String :=
  [path.display,
    "  entries: " ++ toString report.applied ++ " applied, " ++ toString report.skipped ++
      " skipped, " ++ toString report.unknown ++ " unknown, " ++
      toString report.invalid ++ " invalid",
    "  registers: " ++ toString session.registers.size,
    "  variables: " ++ toString session.globalVariables.size,
    "  global marks: " ++ toString session.globalMarks.size,
    "  files with marks: " ++ toString session.files.size,
    "  jumps: " ++ toString session.jumps.length] ++
  histories ++
  if options.oldFiles then
    "  old files:" :: session.oldFiles.map (fun file => "    " ++ file.display)
  else []
where
  histories : List String := HistoryType.all.filterMap fun type =>
    let count := (session.history.get type).length
    if count = 0 then none else some ("  " ++ type.name ++ " history: " ++ toString count)

def load (settings : Settings) (options : RestoreOptions) (path : Path) (disk : Disk) : Outcome :=
  match Session.restoreFile settings options {} path disk with
  | (_, .error e) => .failed ("failed to load " ++ path.display) e
  | (session, .ok report) => .success (unlines (loadSummary options path session report))

/-- How the previous file fared, as a word with its particulars. -/
def mergeText : MergeStatus → String
  | .noPreviousFile => "NoPreviousFile"
  | .clean => "Clean"
  | .overwritten => "Overwritten"
  | .recovered offset fault entries =>
    "Recovered \x7b error: Format \x7b offset: " ++ toString offset ++ ", reason: " ++
      Text.quote fault.reason.toList ++ " \x7d, entries: " ++ toString entries ++ " \x7d"

def save (settings : Settings) (occasion : Occasion) (source : Path)
    (mode : WriteMode) (path : Path) (disk : Disk) : Disk × Outcome :=
  let everything : RestoreOptions :=
    { info := true, marks := true, force := true, missingIsError := true }
  match Session.restoreFile settings everything {} source disk with
  | (_, .error e) => (disk, .failed ("failed to load the session from " ++ source.display) e)
  | (session, .ok _) =>
    match session.saveFile settings occasion mode path disk with
    | (disk, .error e) => (disk, .failed ("failed to write " ++ path.display) e)
    | (disk, .ok report) => (disk, .success (unlines
        [path.display ++ ": " ++ toString report.written ++ " entries written, " ++
          toString report.skipped ++ " skipped (" ++ mergeText report.merge ++ ")"]))

/-- The line of one result of reading. -/
def resultLine : Except Error Entry → String
  | .ok entry => entry.line
  | .error e => "invalid entry: " ++ e.message

def dump (path : Path) (disk : Disk) : Outcome :=
  match disk.openForReading path with
  | .error _ => { failure := some ⟨"failed to open " ++ path.display, none⟩ }
  | .ok (_, node) =>
    let reading := (Disk.contents node).read
    { out := unlines (reading.decoded.map resultLine)
      failure := reading.error.map fun e => ⟨none, e⟩ }

/-- Carries out a command on a session file. -/
def Command.run (settings : Settings) (occasion : Occasion) (path : Path) (disk : Disk) :
    Command → Disk × Outcome
  | .load options => (disk, CommandLine.load settings options path disk)
  | .save source mode => CommandLine.save settings occasion source mode path disk
  | .dump => (disk, CommandLine.dump path disk)

end SessionStore.CommandLine
