import SessionStore.FileMarks

/-! The marks of a file in two stores: a slot for every name that has one, and a
list of the others. -/
namespace SessionStore

/-- What is known of one file, as it is stored. -/
structure MarkStores where
  slots : Vector (Option (Timed Mark)) localMarkSlots.length := .replicate _ none
  additional : List (Timed Mark) := []
  changes : ChangeList
  greatest : Timestamp := 0

namespace MarkStores

def new (changeCapacity : Nat) : MarkStores := { changes := { capacity := changeCapacity } }

def touch (s : MarkStores) (timestamp : Timestamp) : MarkStores :=
  { s with greatest := max s.greatest timestamp }

/-- Keeps the newer mark of each name in the list, the first one on a tie. -/
def insertAdditional (s : MarkStores) (mark : Timed Mark) : MarkStores × Insertion :=
  match s.additional.findFinIdx? (·.value.name = mark.value.name) with
  | some index =>
    if mark.timestamp ≤ s.additional[index].timestamp then (s, .discarded)
    else ({ s with additional := s.additional.set index mark }, .replaced)
  | none => ({ s with additional := s.additional ++ [mark] }, .inserted)

/-- Keeps the newer mark of each name, in the slot of the name if there is one. -/
def insertMark (s : MarkStores) (mark : Timed Mark) : MarkStores × Insertion :=
  let s := s.touch mark.timestamp
  match localMarkSlots.finIdxOf? mark.value.name with
  | none => s.insertAdditional mark
  | some slot =>
    match s.slots[slot] with
    | some held =>
      if mark.timestamp ≤ held.timestamp then (s, .discarded)
      else ({ s with slots := s.slots.set slot mark }, .replaced)
    | none => ({ s with slots := s.slots.set slot mark }, .inserted)

def insertChange (s : MarkStores) (change : Timed Mark) : MarkStores × Insertion :=
  let s := s.touch change.timestamp
  let (changes, outcome) := s.changes.insert change
  ({ s with changes }, outcome)

/-- The mark in the slot of a name. -/
def mark? (s : MarkStores) (name : Char) : Option (Timed Mark) :=
  (localMarkSlots.finIdxOf? name).bind fun slot => s.slots[slot]

/-- The marks in the slots, in their order. -/
def localMarks (s : MarkStores) : List (Timed Mark) := s.slots.toList.filterMap id

end MarkStores

end SessionStore
