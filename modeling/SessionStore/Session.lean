import SessionStore.Collection.Dictionary
import SessionStore.Collection.Table
import SessionStore.Entry

/-! The state of a running session. -/
namespace SessionStore

open Msgpack (Value)

/-- The marks of a file by name, and its changes, oldest first. -/
structure FileState where
  marks : Table Char (Timed Mark) := .empty
  changes : List (Timed Mark) := []

/-- What a session holds. Histories, jumps and changes stand oldest first. -/
structure Session where
  searchPattern : Option (Timed SearchPattern) := none
  substitutePattern : Option (Timed SearchPattern) := none
  replacement : Option (Timed Replacement) := none
  history : PerHistory (List (Timed HistoryItem)) := .uniform []
  registers : Table Char (Timed Register) := .empty
  globalVariables : Dictionary Bytes Value := .empty
  /-- Names of variables whose values cannot be stored, such as functions. -/
  transient : List Bytes := []
  globalMarks : Table Char (Timed Mark) := .empty
  files : Table Path FileState := .empty
  jumps : List (Timed Mark) := []
  buffers : List Buffer := []
  /-- The files that had local marks in the file last read. -/
  oldFiles : List Path := []

namespace Session

def pattern (s : Session) (substitute : Bool) : Option (Timed SearchPattern) :=
  if substitute then s.substitutePattern else s.searchPattern

def setPattern (s : Session) (substitute : Bool) (pattern : Timed SearchPattern) : Session :=
  if substitute then { s with substitutePattern := some pattern }
  else { s with searchPattern := some pattern }

def setReplacement (s : Session) (replacement : Timed Replacement) : Session :=
  { s with replacement := some replacement }

def setHistory (s : Session) (type : HistoryType) (items : List (Timed HistoryItem)) : Session :=
  { s with history := s.history.set type items }

/-- Adds a line as the newest of its history. -/
def pushHistory (s : Session) (item : Timed HistoryItem) : Session :=
  s.setHistory item.value.type (s.history.get item.value.type ++ [item])

def setRegister (s : Session) (register : Timed Register) : Session :=
  { s with registers := s.registers.insert register.value.name register }

def setVariable (s : Session) (name : Bytes) (value : Value) : Session :=
  { s with globalVariables := s.globalVariables.insert name value }

/-- Why a variable has no value that can be stored. -/
def transientReason : String := "value has no persistent form"

/-- The variables with their values or the reason why there is none to store. -/
def offeredVariables (s : Session) : List (Bytes × Except String Value) :=
  s.globalVariables.entries.map (fun (name, value) => (name, .ok value)) ++
    s.transient.map fun name => (name, .error transientReason)

def addTransient (s : Session) (name : Bytes) : Session :=
  { s with transient := s.transient ++ [name] }

/-- Whether a variable of this name exists, with or without a value that can be stored. -/
def hasVariable (s : Session) (name : Bytes) : Bool :=
  s.globalVariables.contains name || s.transient.contains name

def setGlobalMark (s : Session) (mark : Timed Mark) : Session :=
  { s with globalMarks := s.globalMarks.insert mark.value.name mark }

/-- The files that have a state. -/
def markedFiles (s : Session) : List Path := s.files.keys

/-- Changes the state of a file; a new file starts with an empty one. -/
def alterFile (s : Session) (file : Path) (f : FileState → FileState) : Session :=
  { s with files := s.files.alter file fun held => f (held.getD {}) }

/-- The marks of a file in the order of their names. -/
def localMarks (s : Session) (file : Path) : List (Timed Mark) :=
  (s.files.find? file).elim [] fun state => state.marks.values

def localMark? (s : Session) (file : Path) (name : Char) : Option (Timed Mark) :=
  (s.files.find? file).bind fun state => state.marks.find? name

/-- Sets a mark in the file that it names. -/
def setLocalMark (s : Session) (mark : Timed Mark) : Session :=
  s.alterFile mark.value.file fun state =>
    { state with marks := state.marks.insert mark.value.name mark }

def changesOf (s : Session) (file : Path) : List (Timed Mark) :=
  (s.files.find? file).elim [] FileState.changes

def setChanges (s : Session) (file : Path) (changes : List (Timed Mark)) : Session :=
  s.alterFile file fun state => { state with changes }

/-- Adds a change as the newest of the file that it names. -/
def pushChange (s : Session) (change : Timed Mark) : Session :=
  s.setChanges change.value.file (s.changesOf change.value.file ++ [change])

def setJumps (s : Session) (jumps : List (Timed Mark)) : Session := { s with jumps }

/-- Adds a jump as the newest. -/
def pushJump (s : Session) (jump : Timed Mark) : Session := s.setJumps (s.jumps ++ [jump])

def setBuffers (s : Session) (buffers : List Buffer) : Session := { s with buffers }

def setOldFiles (s : Session) (files : List Path) : Session := { s with oldFiles := files }

end Session

end SessionStore
