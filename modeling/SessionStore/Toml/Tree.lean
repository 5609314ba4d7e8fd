import SessionStore.Toml.Value

/-! The tables of a document while it is read: where a line may still add to them. -/
namespace SessionStore.Toml

/-- How a table came about, which decides what may still be added to it. -/
inductive Standing where
  /-- By a header of one of its own tables. -/
  | implied
  /-- By a key with dots. -/
  | dotted
  /-- By its own header. -/
  | defined
  deriving DecidableEq

inductive Item where
  | value (v : Value)
  | table (standing : Standing) (entries : List (Key × Item))
  | tables (latest : List (Key × Item)) (earlier : List (List (Key × Item)))

abbrev Entries := List (Key × Item)

namespace Entries

/-- Puts `f` of what a key holds under it; `f` may refuse. -/
def alter (key : Key) (f : Option Item → Option Item) : Entries → Option Entries
  | [] => (f none).map fun item => [(key, item)]
  | (k, item) :: rest =>
    if k = key then (f (some item)).map fun item => (k, item) :: rest
    else (alter key f rest).map ((k, item) :: ·)

/-- Changes the table that a header's path leads to; tables on the way that are
missing are implied. -/
def within : List Key → (Entries → Option Entries) → Entries → Option Entries
  | [], f, entries => f entries
  | key :: rest, f, entries => entries.alter key fun
    | none => (within rest f []).map (.table .implied)
    | some (.table standing inner) => (within rest f inner).map (.table standing)
    | some (.tables latest earlier) => (within rest f latest).map (.tables · earlier)
    | some (.value _) => none

/-- The effect of a table's header. A table is defined once, and not when keys
with dots have made it. -/
def define (path : List Key) (entries : Entries) : Option Entries :=
  match path.getLast? with
  | none => none
  | some key => entries.within path.dropLast (·.alter key fun
    | none => some (.table .defined [])
    | some (.table .implied inner) => some (.table .defined inner)
    | some _ => none)

/-- The effect of the header of one of several tables. -/
def append (path : List Key) (entries : Entries) : Option Entries :=
  match path.getLast? with
  | none => none
  | some key => entries.within path.dropLast (·.alter key fun
    | none => some (.tables [] [])
    | some (.tables latest earlier) => some (.tables [] (latest :: earlier))
    | some _ => none)

/-- The effect of a key and its value. Dots lead through tables made by dots; a
table that only a header implies lets them pass, but not end there. -/
def assign (value : Value) : List Key → Entries → Option Entries
  | [], _ => none
  | [key], entries => entries.alter key fun
    | none => some (.value value)
    | some _ => none
  | key :: next :: rest, entries => entries.alter key fun
    | none => (assign value (next :: rest) []).map (.table .dotted)
    | some (.table .dotted inner) => (assign value (next :: rest) inner).map (.table .dotted)
    | some (.table .implied inner) =>
      if rest = [] then none else (assign value (next :: rest) inner).map (.table .implied)
    | some (.tables latest earlier) =>
      if rest = [] then none else (assign value (next :: rest) latest).map (.tables · earlier)
    | some (.table .defined _) | some (.value _) => none

end Entries

mutual

def Item.toValue : Item → Value
  | .value v => v
  | .table _ entries => .table (entriesToValues entries)
  | .tables latest earlier =>
    .array ((tablesToValues earlier).reverse ++ [.table (entriesToValues latest)])

def entriesToValues : List (Key × Item) → List (Key × Value)
  | [] => []
  | (key, item) :: rest => (key, item.toValue) :: entriesToValues rest

def tablesToValues : List (List (Key × Item)) → List Value
  | [] => []
  | entries :: rest => .table (entriesToValues entries) :: tablesToValues rest

end

end SessionStore.Toml
