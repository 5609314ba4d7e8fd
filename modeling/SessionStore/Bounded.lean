import SessionStore.Recency

/-! Collections of bounded size that hold the newest item of each identity. -/
namespace SessionStore

/-- What became of an item that was to be inserted. -/
inductive Insertion where
  /-- Its identity was new. -/
  | inserted
  /-- It took the place of an older item of its identity. -/
  | replaced
  /-- An item of its identity was at least as new. -/
  | discarded
  /-- It was the oldest of a full collection, or there is no room at all. -/
  | evicted
  deriving DecidableEq, Repr

/-- Whether the item is in the collection. -/
def Insertion.isStored : Insertion → Bool
  | .inserted | .replaced => true
  | .discarded | .evicted => false

/-- Items of which no two are the same, at most as many as there is room for. -/
structure Bounded (α : Type) (same : α → α → Bool) where
  capacity : Nat
  items : List (Timed α) := []
  deriving DecidableEq

namespace Bounded

variable {α : Type} {same : α → α → Bool}

def size (c : Bounded α same) : Nat := c.items.length

def isEmpty (c : Bounded α same) : Bool := c.items.isEmpty

def isFull (c : Bounded α same) : Bool := c.capacity ≤ c.size

def oldest? (c : Bounded α same) : Option Timestamp := Recency.oldest? c.items

/-- The item with the identity of `probe`. -/
def find? (c : Bounded α same) (probe : α) : Option (Timed α) :=
  c.items.find? fun held => same held.value probe

/-- Replaces an older item of the same identity where it stands. An item of a new identity goes in
front of the first newer one; when there are too many items then, the first of the oldest goes. -/
def insert (c : Bounded α same) (item : Timed α) : Bounded α same × Insertion :=
  if c.capacity = 0 then (c, .evicted)
  else
    match c.find? item.value with
    | some held =>
      if item.timestamp ≤ held.timestamp then (c, .discarded)
      else ({ c with items := Recency.replaceFirst (same · item.value) item c.items }, .replaced)
    | none =>
      let placed := Recency.place item c.items
      if c.capacity < placed.length then
        let oldest := Recency.oldestIndex placed
        ({ c with items := placed.eraseIdx oldest },
          if oldest = (Recency.notNewer item.timestamp c.items).length then .evicted else .inserted)
      else ({ c with items := placed }, .inserted)

/-- Inserts items one after the other. -/
def extend (c : Bounded α same) (items : List (Timed α)) : Bounded α same :=
  items.foldl (fun c item => (c.insert item).1) c

/-- Inserts the wanted ones of items that come newest first, up to the first
item that is older than everything in the full collection. -/
def fill (c : Bounded α same) (isWanted : α → Bool) : List (Timed α) → Bounded α same
  | [] => c
  | item :: rest =>
    if c.isFull && c.oldest?.all (item.timestamp < ·) then c
    else if isWanted item.value then (c.insert item).1.fill isWanted rest
    else c.fill isWanted rest

end Bounded

/-- Whether two marks are the same place. -/
def Mark.sameLocation (a b : Mark) : Bool := a.lnum = b.lnum && a.col = b.col && a.file == b.file

/-- Whether two marks have the same name. -/
def Mark.sameName (a b : Mark) : Bool := a.name = b.name

/-- Whether two registers have the same name. -/
def Register.sameName (a b : Register) : Bool := a.name = b.name

abbrev JumpList := Bounded Mark Mark.sameLocation

abbrev ChangeList := Bounded Mark Mark.sameLocation

abbrev GlobalMarks := Bounded Mark Mark.sameName

abbrev Registers := Bounded Register Register.sameName

/-- A global mark is named by a capital letter or a digit of ASCII. -/
def isGlobalMarkName (name : Char) : Bool := name.isUpper || name.isDigit

/-- A register is named by a small letter or a digit of ASCII, or by one of four signs. -/
def isRegisterName (name : Char) : Bool :=
  name.isLower || name.isDigit || ['"', '-', '*', '+'].contains name

/-- One global mark for every name. -/
def globalMarkCapacity : Nat := 36

/-- One register for every name. -/
def registerCapacity : Nat := 40

end SessionStore
