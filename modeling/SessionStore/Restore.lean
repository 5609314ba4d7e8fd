import SessionStore.FileMarks
import SessionStore.Frame
import SessionStore.HistoryRing
import SessionStore.Session
import SessionStore.Settings

/-! Restoring a file into a session. -/
namespace SessionStore

/-- What is to be restored. -/
structure RestoreOptions where
  /-- Patterns, replacement, histories, registers, variables and buffers. -/
  info : Bool := false
  /-- Global and local marks, jumps and changes. -/
  marks : Bool := false
  /-- Stored values replace those of the session even when these are newer. -/
  force : Bool := false
  /-- The files that have local marks are handed to the session. -/
  oldFiles : Bool := false
  /-- A missing file is an error. -/
  missingIsError : Bool := false
  deriving DecidableEq, Repr

/-- How many entries changed the session, were older or not asked for, of
unknown kind, or not to be understood. -/
structure RestoreReport where
  applied : Nat := 0
  skipped : Nat := 0
  unknown : Nat := 0
  invalid : Nat := 0
  deriving DecidableEq, Repr

/-- A restore under way. Lists are taken from the session when an entry first
needs them and handed back at the end. -/
structure Restore where
  session : Session
  report : RestoreReport := {}
  rings : PerHistory (Option HistoryRing) := .uniform none
  jumps : Option JumpList := none
  changes : Dictionary Path ChangeList := .empty
  oldFiles : Dictionary Path Unit := .empty

namespace Restore

/-- Whether an entry replaces what the session holds. -/
def wins (options : RestoreOptions) (timestamp : Timestamp) {α : Type} (live : Option (Timed α)) :
    Bool :=
  options.force || live.all (·.timestamp < timestamp)

def skip (r : Restore) : Restore := { r with report.skipped := r.report.skipped + 1 }

def countUnknown (r : Restore) : Restore := { r with report.unknown := r.report.unknown + 1 }

def countInvalid (r : Restore) : Restore := { r with report.invalid := r.report.invalid + 1 }

def count (r : Restore) (applied : Bool) : Restore :=
  if applied then { r with report.applied := r.report.applied + 1 } else r.skip

/-- Changes the session if `applies`, and counts the entry. -/
def update (r : Restore) (applies : Bool) (f : Session → Session) : Restore :=
  { r with session := if applies then f r.session else r.session }.count applies

/-- The ring of a history, at first filled from the session, newest line first. -/
def ring (settings : Settings) (r : Restore) (type : HistoryType) : HistoryRing :=
  (r.rings.get type).getD
    (HistoryRing.fill { capacity := settings.history.get type } false
      (r.session.history.get type).reverse)

/-- The jumps, at first filled from the session, newest first. -/
def jumpList (settings : Settings) (r : Restore) : JumpList :=
  r.jumps.getD (Bounded.fill { capacity := settings.jumps } (fun _ => true) r.session.jumps.reverse)

/-- The changes of a file, at first those of the session. -/
def changeList (settings : Settings) (r : Restore) (file : Path) : ChangeList :=
  (r.changes.find? file).getD
    (Bounded.extend { capacity := settings.changes } (r.session.changesOf file))

def applyHistory (settings : Settings) (options : RestoreOptions) (r : Restore)
    (item : Timed HistoryItem) : Restore :=
  let type := item.value.type
  if settings.history.get type = 0 then r.skip
  else
    let (ring, stored) := (r.ring settings type).insert item options.force
    { r with rings := r.rings.set type (some ring) }.count stored

def applyJump (settings : Settings) (r : Restore) (jump : Timed Mark) : Restore :=
  if settings.jumps = 0 then r.skip
  else
    let (jumps, outcome) := (r.jumpList settings).insert jump
    { r with jumps := some jumps }.count outcome.isStored

def applyChange (settings : Settings) (r : Restore) (change : Timed Mark) : Restore :=
  let file := change.value.file
  let (changes, outcome) := (r.changeList settings file).insert change
  { r with changes := r.changes.insert file changes }.count outcome.isStored

def noteOldFile (options : RestoreOptions) (r : Restore) (file : Path) : Restore :=
  if options.oldFiles then { r with oldFiles := r.oldFiles.insertNew file () } else r

/-- Takes one entry into the session. A header says nothing about the session and is not counted. -/
def apply (settings : Settings) (options : RestoreOptions) (r : Restore) (entry : Entry) :
    Restore :=
  let timestamp := entry.timestamp
  match entry.content with
  | .header _ => r
  | .searchPattern pattern =>
    let slot := pattern.isSubstitute
    r.update (options.info && wins options timestamp (r.session.pattern slot))
      (·.setPattern slot ⟨timestamp, pattern⟩)
  | .replacement replacement =>
    r.update (options.info && wins options timestamp r.session.replacement)
      (·.setReplacement ⟨timestamp, replacement⟩)
  | .history item =>
    if options.info then r.applyHistory settings options ⟨timestamp, item⟩ else r.skip
  | .register register =>
    r.update (options.info && isRegisterName register.name &&
        wins options timestamp (r.session.registers.find? register.name))
      (·.setRegister ⟨timestamp, register⟩)
  | .variable v =>
    r.update (options.info && settings.globalVariables &&
      (options.force || !r.session.hasVariable v.name)) (·.setVariable v.name v.value)
  | .globalMark mark =>
    r.update (options.marks && settings.globalMarks && isGlobalMarkName mark.name &&
        wins options timestamp (r.session.globalMarks.find? mark.name))
      (·.setGlobalMark ⟨timestamp, mark⟩)
  | .jump mark => if options.marks then r.applyJump settings ⟨timestamp, mark⟩ else r.skip
  | .bufferList buffers =>
    r.update (options.info && settings.bufferList.isSome) (·.setBuffers buffers)
  | .localMark mark =>
    (r.noteOldFile options mark.file).update
      (options.marks && 0 < settings.markedFiles &&
        wins options timestamp (r.session.localMark? mark.file mark.name))
      (·.setLocalMark ⟨timestamp, mark⟩)
  | .change mark =>
    if options.marks && 0 < settings.markedFiles then r.applyChange settings ⟨timestamp, mark⟩
    else r.skip
  | .unknown .. => r.countUnknown

/-- Takes one result of reading into the session. -/
def take (settings : Settings) (options : RestoreOptions) (r : Restore) :
    Except Error Entry → Restore
  | .ok entry => r.apply settings options entry
  | .error _ => r.countInvalid

/-- Hands the lists back to the session. -/
def finish (options : RestoreOptions) (r : Restore) : Session :=
  let session := HistoryType.all.foldl (fun session type =>
    (r.rings.get type).elim session fun ring => session.setHistory type ring.items) r.session
  let session := r.jumps.elim session fun jumps => session.setJumps jumps.items
  let session := r.changes.entries.foldl (fun session (file, changes) =>
    session.setChanges file changes.items) session
  if options.oldFiles then session.setOldFiles r.oldFiles.keys else session

end Restore

/-- The session after restoring a stream, and what became of the entries. An
error that ends the stream leaves in place what was restored before it. -/
def Session.restore (settings : Settings) (options : RestoreOptions) (session : Session)
    (stream : Stream) : Session × Except Error RestoreReport :=
  let reading := stream.read
  let r := reading.decoded.foldl (Restore.take settings options) { session }
  (r.finish options, match reading.error with
    | none => .ok r.report
    | some e => .error e)

end SessionStore
