import SessionStore.Bounded
import SessionStore.Collection.Dictionary

/-! The local marks and changes of files, and the files that saw something last. -/
namespace SessionStore

/-- The names with a slot of their own, in the order in which their marks are written. -/
def localMarkSlots : List Char :=
  "abcdefghijklmnopqrstuvwxyz\"^.[]<>".toList

/-- The slot of a name. -/
def localMarkSlot? (name : Char) : Option Nat := localMarkSlots.idxOf? name

/-- What is known of one file: one mark for each name, in first-seen order, its
changes, and the newest time seen. -/
structure FileMarks where
  marks : List (Timed Mark) := []
  changes : ChangeList
  greatest : Timestamp := 0

namespace FileMarks

def new (changeCapacity : Nat) : FileMarks := { changes := { capacity := changeCapacity } }

/-- The mark of a name. -/
def named? (f : FileMarks) (name : Char) : Option (Timed Mark) :=
  f.marks.find? (·.value.name = name)

/-- The mark in the slot of a name. -/
def slotted? (f : FileMarks) (name : Char) : Option (Timed Mark) :=
  (localMarkSlot? name).bind fun _ => f.named? name

/-- The marks that have a slot, in the order of the slots. -/
def slotted (f : FileMarks) : List (Timed Mark) := localMarkSlots.filterMap f.named?

/-- The marks of other names, in first-seen order. -/
def unslotted (f : FileMarks) : List (Timed Mark) :=
  f.marks.filter fun mark => (localMarkSlot? mark.value.name).isNone

/-- Takes note of a time, also of one that comes with something that is not kept. -/
def touch (f : FileMarks) (timestamp : Timestamp) : FileMarks :=
  { f with greatest := max f.greatest timestamp }

/-- Keeps the newer mark of each name, the first one on a tie. -/
def insertMark (f : FileMarks) (mark : Timed Mark) : FileMarks × Insertion :=
  let f := f.touch mark.timestamp
  match f.named? mark.value.name with
  | some held =>
    if mark.timestamp ≤ held.timestamp then (f, .discarded)
    else ({ f with marks := Recency.replaceFirst (·.name = mark.value.name) mark f.marks },
      .replaced)
  | none => ({ f with marks := f.marks ++ [mark] }, .inserted)

def insertChange (f : FileMarks) (change : Timed Mark) : FileMarks × Insertion :=
  let f := f.touch change.timestamp
  let (changes, outcome) := f.changes.insert change
  ({ f with changes }, outcome)

/-- Inserts marks, then changes. -/
def extend (f : FileMarks) (marks changes : List (Timed Mark)) : FileMarks :=
  changes.foldl (fun f change => (f.insertChange change).1)
    (marks.foldl (fun f mark => (f.insertMark mark).1) f)

end FileMarks

/-- The marks of every file, in the order in which the files were first seen. -/
structure FileMarksMap where
  changeCapacity : Nat
  files : Dictionary Path FileMarks := .empty

namespace FileMarksMap

def get? (m : FileMarksMap) (file : Path) : Option FileMarks := m.files.find? file

/-- Changes what is known of a file; an unknown file starts with nothing. -/
def modify (m : FileMarksMap) (file : Path) (f : FileMarks → FileMarks) : FileMarksMap :=
  { m with files := m.files.alter file fun held => f (held.getD (.new m.changeCapacity)) }

def insertMark (m : FileMarksMap) (file : Path) (mark : Timed Mark) : FileMarksMap :=
  m.modify file fun f => (f.insertMark mark).1

def insertChange (m : FileMarksMap) (file : Path) (change : Timed Mark) : FileMarksMap :=
  m.modify file fun f => (f.insertChange change).1

/-- The first `n` files by newest time seen; files of the same time stay in first-seen order. -/
def top (m : FileMarksMap) (n : Nat) : List (Path × FileMarks) :=
  (m.files.entries.mergeSort fun a b => b.2.greatest ≤ a.2.greatest).take n

end FileMarksMap

end SessionStore
