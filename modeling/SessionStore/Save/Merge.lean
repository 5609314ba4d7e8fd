import SessionStore.FileMarks
import SessionStore.Frame
import SessionStore.HistoryRing
import SessionStore.Session
import SessionStore.Settings

/-! Merging a session with the file that it last wrote or another session wrote since. -/
namespace SessionStore

open Msgpack (Value)

/-- Who writes a file, and when. -/
structure Occasion where
  now : Timestamp
  processId : UInt32

/-- The description that a file of this library carries. -/
def Header.new (occasion : Occasion) (maxKbyte : UInt64) : Header where
  fields :=
    [(.ofAscii "generator", .ofAscii "the-shada"),
      (.ofAscii "version", .ofAscii "0.1.0"),
      (.ofAscii "max_kbyte", .ofUInt64 maxKbyte),
      (.ofAscii "pid", .ofUInt64 occasion.processId.toUInt64),
      (.ofAscii "encoding", .ofAscii "utf-8")]

/-- How the previous file took part in a merge. -/
inductive MergeStatus where
  | noPreviousFile
  | clean
  /-- The file was broken; the entries in front of the damage were merged. -/
  | recovered (offset : Nat) (fault : FormatFault) (entries : Nat)
  | overwritten

def MergeStatus.isRecovered : MergeStatus → Bool
  | .recovered .. => true
  | _ => false

/-- The newer of two values, the first one on a tie. -/
def Timed.keepNewer {α : Type} (held : Option (Timed α)) (incoming : Timed α) : Option (Timed α) :=
  if held.all (·.timestamp < incoming.timestamp) then some incoming else held

/-- What a session and a file hold together. -/
structure Merge where
  searchPattern : Option (Timed SearchPattern) := none
  substitutePattern : Option (Timed SearchPattern) := none
  replacement : Option (Timed Replacement) := none
  globalVariables : Dictionary Bytes (Timed Variable) := .empty
  history : PerHistory HistoryRing
  registers : Registers := { capacity := registerCapacity }
  globalMarks : GlobalMarks := { capacity := globalMarkCapacity }
  jumps : JumpList
  files : FileMarksMap
  unknown : List Entry := []
  /-- Variables of the session that cannot be stored. -/
  skipped : Nat := 0

namespace Merge

/-- Nothing yet, with room for what the settings allow. -/
def start (settings : Settings) : Merge where
  history := .ofFn fun type => { capacity := settings.history.get type }
  jumps := { capacity := settings.jumps }
  files := { changeCapacity := settings.changes }

def seedVariables (settings : Settings) (now : Timestamp) (session : Session) (m : Merge) : Merge :=
  if settings.globalVariables then
    { m with
      globalVariables := session.globalVariables.entries.foldl (fun held (name, value) =>
        held.insert name ⟨now, { name, value }⟩) m.globalVariables
      skipped := m.skipped + session.transient.length }
  else m

def seedRegisters (session : Session) (m : Merge) : Merge :=
  { m with
    registers := m.registers.extend
      (session.registers.values.filter fun register => isRegisterName register.value.name) }

def seedGlobalMarks (settings : Settings) (session : Session) (m : Merge) : Merge :=
  if settings.globalMarks then
    { m with
      globalMarks := m.globalMarks.extend
        (session.globalMarks.values.filter fun mark =>
          isGlobalMarkName mark.value.name && !settings.isRemovable mark.value.file) }
  else m

def seedFiles (settings : Settings) (session : Session) (m : Merge) : Merge :=
  if settings.markedFiles = 0 then m
  else
    { m with
      files := (session.markedFiles.filter fun file => !settings.isRemovable file).foldl
        (fun files file => files.modify file
          (·.extend (session.localMarks file) (session.changesOf file)))
        m.files }

/-- Jumps are taken newest first and only as far as they can still find room. -/
def seedJumps (settings : Settings) (session : Session) (m : Merge) : Merge :=
  { m with
    jumps := m.jumps.fill (fun mark => !settings.isRemovable mark.file) session.jumps.reverse }

/-- Takes everything but the histories from the session, so that the session wins ties. -/
def seed (settings : Settings) (now : Timestamp) (session : Session) (m : Merge) : Merge :=
  { m with
    searchPattern := session.searchPattern
    substitutePattern := session.substitutePattern
    replacement := session.replacement }
    |>.seedVariables settings now session
    |>.seedRegisters session
    |>.seedGlobalMarks settings session
    |>.seedFiles settings session
    |>.seedJumps settings session

/-- Takes one entry of the previous file. -/
def absorb (settings : Settings) (m : Merge) (entry : Entry) : Merge :=
  let timestamp := entry.timestamp
  match entry.content with
  | .header _ | .bufferList _ => m
  | .searchPattern pattern =>
    if pattern.isSubstitute then
      { m with substitutePattern := Timed.keepNewer m.substitutePattern ⟨timestamp, pattern⟩ }
    else { m with searchPattern := Timed.keepNewer m.searchPattern ⟨timestamp, pattern⟩ }
  | .replacement replacement =>
    { m with replacement := Timed.keepNewer m.replacement ⟨timestamp, replacement⟩ }
  | .history item =>
    { m with
      history :=
        m.history.set item.type ((m.history.get item.type).insert ⟨timestamp, item⟩ false).1 }
  | .register register =>
    if isRegisterName register.name then
      { m with registers := (m.registers.insert ⟨timestamp, register⟩).1 }
    else m
  | .variable v =>
    if settings.globalVariables then
      { m with globalVariables := m.globalVariables.insertNew v.name ⟨timestamp, v⟩ }
    else m
  | .globalMark mark =>
    if settings.globalMarks && isGlobalMarkName mark.name && !settings.isRemovable mark.file then
      { m with globalMarks := (m.globalMarks.insert ⟨timestamp, mark⟩).1 }
    else m
  | .jump mark =>
    if settings.isRemovable mark.file then m
    else { m with jumps := (m.jumps.insert ⟨timestamp, mark⟩).1 }
  | .localMark mark =>
    if 0 < settings.markedFiles && !settings.isRemovable mark.file then
      { m with files := m.files.insertMark mark.file ⟨timestamp, mark⟩ }
    else m
  | .change mark =>
    if 0 < settings.markedFiles && !settings.isRemovable mark.file then
      { m with files := m.files.insertChange mark.file ⟨timestamp, mark⟩ }
    else m
  | .unknown .. => { m with unknown := m.unknown ++ [entry] }

/-- Takes the entries of the previous file as far as it can be read. A broken
file ends there; one that could not be read is an error. -/
def absorbStream (settings : Settings) (m : Merge) (previous : Stream) :
    Except Error (Merge × MergeStatus) :=
  let reading := previous.read
  let entries := reading.decoded.filterMap Except.toOption
  let merged := entries.foldl (absorb settings) m
  match reading.error with
  | none => .ok (merged, .clean)
  | some (.format offset fault) => .ok (merged, .recovered offset fault entries.length)
  | some e => .error e

/-- Takes the histories of the session last and lets them win ties, newest line
first and only as far as lines can still find room. -/
def seedHistory (session : Session) (m : Merge) : Merge :=
  { m with
    history := .ofFn fun type => (m.history.get type).fill true (session.history.get type).reverse }

/-- The buffers that are written. -/
def buffers (settings : Settings) (session : Session) (limit : Nat) : List Buffer :=
  let kept := session.buffers.filter fun buffer => !settings.isRemovable buffer.file
  if limit = 0 then kept else kept.take limit

/-- The entries of some timed values. -/
def entriesOf {α : Type} (content : α → Content) (items : List (Timed α)) : List Entry :=
  items.map fun item => ⟨item.timestamp, content item.value⟩

/-- A pattern is written with the flag of the slot that it is in. -/
def patternEntries (substitute : Bool) (pattern : Option (Timed SearchPattern)) : List Entry :=
  entriesOf (fun p => .searchPattern { p with isSubstitute := substitute }) pattern.toList

def fileEntries (f : FileMarks) : List Entry :=
  entriesOf .localMark f.slotted ++ entriesOf .change f.changes.items ++
    entriesOf .localMark f.unslotted

/-- All entries of the merge in the order in which they are written. -/
def entries (settings : Settings) (occasion : Occasion) (session : Session) (m : Merge) :
    List Entry :=
  [⟨occasion.now, .header (.new occasion settings.maxKbyte)⟩] ++
    settings.bufferList.toList.map
    (fun limit => ⟨occasion.now, .bufferList (buffers settings session limit)⟩) ++
    entriesOf .variable m.globalVariables.values ++
    patternEntries false m.searchPattern ++ patternEntries true m.substitutePattern ++
    entriesOf .replacement m.replacement.toList ++
    entriesOf .jump m.jumps.items ++
    entriesOf .globalMark m.globalMarks.items ++
    entriesOf .register m.registers.items ++
    (m.files.top settings.markedFiles).flatMap (fun file => fileEntries file.2) ++
    HistoryType.all.flatMap (fun type => entriesOf .history (m.history.get type).items) ++
    m.unknown

end Merge

end SessionStore
