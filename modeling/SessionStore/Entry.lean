import SessionStore.Msgpack.Value
import SessionStore.Path

/-! The entries of a session file: what an editor remembers from one session to the next. -/
namespace SessionStore

open Msgpack (Value)

/-- Seconds since 1970, the only sign of recency that is stored. -/
abbrev Timestamp := UInt64

/-- A value and the time at which it was set. -/
structure Timed (α : Type) where
  timestamp : Timestamp
  value : α
  deriving DecidableEq

inductive Kind where
  | header
  | searchPattern
  | replacement
  | history
  | register
  | variable
  | globalMark
  | jump
  | bufferList
  | localMark
  | change
  | unknown
  deriving DecidableEq, Repr

namespace Kind

/-- The kind stored under an id. Id 0 is reserved; ids without a kind of their own are unknown. -/
def ofId (id : UInt64) : Option Kind :=
  match id.toNat with
  | 0 => none
  | 1 => some .header
  | 2 => some .searchPattern
  | 3 => some .replacement
  | 4 => some .history
  | 5 => some .register
  | 6 => some .variable
  | 7 => some .globalMark
  | 8 => some .jump
  | 9 => some .bufferList
  | 10 => some .localMark
  | 11 => some .change
  | _ => some .unknown

/-- The id of a kind; an unknown entry carries its own. -/
def id? : Kind → Option UInt64
  | .header => some 1
  | .searchPattern => some 2
  | .replacement => some 3
  | .history => some 4
  | .register => some 5
  | .variable => some 6
  | .globalMark => some 7
  | .jump => some 8
  | .bufferList => some 9
  | .localMark => some 10
  | .change => some 11
  | .unknown => none

def name : Kind → String
  | .header => "header"
  | .searchPattern => "search pattern"
  | .replacement => "replacement string"
  | .history => "history"
  | .register => "register"
  | .variable => "variable"
  | .globalMark => "global mark"
  | .jump => "jump"
  | .bufferList => "buffer list"
  | .localMark => "local mark"
  | .change => "change"
  | .unknown => "unknown"

end Kind

/-- What a payload held beyond the fields of its kind, in its order. -/
abbrev ExtraPairs := List (Value × Value)

/-- What a list payload held behind the elements of its kind. -/
abbrev ExtraItems := List Value

/-- A free description of the program that wrote the file. -/
structure Header where
  fields : List (Value × Value) := []
  deriving DecidableEq

/-- The value under the first string key that reads `key`. -/
def Header.get? (header : Header) (key : String) : Option Value :=
  (header.fields.find? fun field =>
    match field.1 with
    | .str bytes => bytes = Bytes.ofText key.toList
    | _ => false).map Prod.snd

/-- The switches of a search pattern, in the order in which they are written. -/
inductive PatternFlag where
  | magic
  | smartcase
  | lineOffset
  | cursorAtEnd
  | lastUsed
  | substitute
  | highlighted
  | backward
  deriving DecidableEq, Repr

def PatternFlag.all : List PatternFlag :=
  [.magic, .smartcase, .lineOffset, .cursorAtEnd, .lastUsed, .substitute, .highlighted, .backward]

/-- The setting of a switch that is not written. -/
def PatternFlag.default : PatternFlag → Bool
  | .magic | .lastUsed => true
  | _ => false

/-- The last used search or substitute pattern. -/
structure SearchPattern where
  pattern : Bytes := []
  magic : Bool := true
  smartcase : Bool := false
  hasLineOffset : Bool := false
  placesCursorAtEnd : Bool := false
  offset : Int64 := 0
  isLastUsed : Bool := true
  isSubstitute : Bool := false
  isHighlighted : Bool := false
  searchesBackward : Bool := false
  additional : ExtraPairs := []
  deriving DecidableEq

namespace SearchPattern

def flag (p : SearchPattern) : PatternFlag → Bool
  | .magic => p.magic
  | .smartcase => p.smartcase
  | .lineOffset => p.hasLineOffset
  | .cursorAtEnd => p.placesCursorAtEnd
  | .lastUsed => p.isLastUsed
  | .substitute => p.isSubstitute
  | .highlighted => p.isHighlighted
  | .backward => p.searchesBackward

def setFlag (p : SearchPattern) (f : PatternFlag) (b : Bool) : SearchPattern :=
  match f with
  | .magic => { p with magic := b }
  | .smartcase => { p with smartcase := b }
  | .lineOffset => { p with hasLineOffset := b }
  | .cursorAtEnd => { p with placesCursorAtEnd := b }
  | .lastUsed => { p with isLastUsed := b }
  | .substitute => { p with isSubstitute := b }
  | .highlighted => { p with isHighlighted := b }
  | .backward => { p with searchesBackward := b }

end SearchPattern

/-- The last replacement text of a substitution. -/
structure Replacement where
  text : Bytes := []
  additional : ExtraItems := []
  deriving DecidableEq

/-- The separate histories of an editor, in the order of their ids. -/
inductive HistoryType where
  | command
  | search
  | expression
  | input
  | debug
  deriving DecidableEq, Repr

namespace HistoryType

def all : List HistoryType := [.command, .search, .expression, .input, .debug]

def id : HistoryType → UInt64
  | .command => 0
  | .search => 1
  | .expression => 2
  | .input => 3
  | .debug => 4

def ofId (id : UInt64) : Option HistoryType := all.find? fun type => type.id = id

def name : HistoryType → String
  | .command => "command"
  | .search => "search"
  | .expression => "expression"
  | .input => "input"
  | .debug => "debug"

end HistoryType

/-- One thing for every history. -/
structure PerHistory (α : Type) where
  command : α
  search : α
  expression : α
  input : α
  debug : α

namespace PerHistory

variable {α β : Type}

def uniform (a : α) : PerHistory α := ⟨a, a, a, a, a⟩

def get (p : PerHistory α) : HistoryType → α
  | .command => p.command
  | .search => p.search
  | .expression => p.expression
  | .input => p.input
  | .debug => p.debug

def set (p : PerHistory α) (type : HistoryType) (a : α) : PerHistory α :=
  match type with
  | .command => { p with command := a }
  | .search => { p with search := a }
  | .expression => { p with expression := a }
  | .input => { p with input := a }
  | .debug => { p with debug := a }

def ofFn (f : HistoryType → α) : PerHistory α :=
  ⟨f .command, f .search, f .expression, f .input, f .debug⟩

@[simp] theorem get_uniform (a : α) (type : HistoryType) : (uniform a).get type = a := by
  cases type <;> rfl

@[simp] theorem get_ofFn (f : HistoryType → α) (type : HistoryType) :
    (ofFn f).get type = f type := by
  cases type <;> rfl

@[simp] theorem get_set_self (p : PerHistory α) (type : HistoryType) (a : α) :
    (p.set type a).get type = a := by
  cases type <;> rfl

theorem get_set_of_ne (p : PerHistory α) {type other : HistoryType} (a : α) (h : other ≠ type) :
    (p.set type a).get other = p.get other := by
  cases type <;> cases other <;> first | rfl | exact absurd rfl h

@[ext (iff := false)] theorem ext_get {p q : PerHistory α} (h : ∀ type, p.get type = q.get type) :
    p = q := by
  cases p
  cases q
  have h₁ := h .command
  have h₂ := h .search
  have h₃ := h .expression
  have h₄ := h .input
  have h₅ := h .debug
  simp_all [get]

end PerHistory

/-- A line of a history. Only searches have a separator, which tells their direction. -/
structure HistoryItem where
  type : HistoryType
  text : Bytes := []
  separator : Option Char := none
  additional : ExtraItems := []
  deriving DecidableEq

/-- A new line; a search gets the separator of a forward search. -/
def HistoryItem.new (type : HistoryType) (text : Bytes) : HistoryItem :=
  { type, text, separator := if type = .search then some '/' else none }

inductive RegisterType where
  | charWise
  | lineWise
  | blockWise
  deriving DecidableEq, Repr

namespace RegisterType

def all : List RegisterType := [.charWise, .lineWise, .blockWise]

def id : RegisterType → UInt64
  | .charWise => 0
  | .lineWise => 1
  | .blockWise => 2

def ofId (id : UInt64) : Option RegisterType := all.find? fun type => type.id = id

def name : RegisterType → String
  | .charWise => "CharWise"
  | .lineWise => "LineWise"
  | .blockWise => "BlockWise"

end RegisterType

/-- The name of a mark or register for which none is stored. -/
def defaultName : Char := '"'

/-- Copied text; the width counts for blocks only. -/
structure Register where
  name : Char := defaultName
  contents : List Bytes := []
  type : RegisterType := .charWise
  width : UInt64 := 0
  isUnnamed : Bool := false
  additional : ExtraPairs := []
  deriving DecidableEq

/-- A global variable of the editor's script language. -/
structure Variable where
  name : Bytes
  value : Value
  additional : ExtraItems := []
  deriving DecidableEq

/-- A place in a file: lines count from 1, columns from 0. Jumps and changes
have no name of their own. -/
structure Mark where
  file : Path
  lnum : UInt64 := 1
  col : UInt64 := 0
  name : Char := defaultName
  additional : ExtraPairs := []
  deriving DecidableEq

/-- An open file and the last place in it. -/
structure Buffer where
  file : Path
  lnum : UInt64 := 1
  col : UInt64 := 0
  additional : ExtraPairs := []
  deriving DecidableEq

/-- What an entry says. An entry of an unknown kind is kept byte for byte. -/
inductive Content where
  | header (header : Header)
  | searchPattern (pattern : SearchPattern)
  | replacement (replacement : Replacement)
  | history (item : HistoryItem)
  | register (register : Register)
  | variable (v : Variable)
  | globalMark (mark : Mark)
  | jump (mark : Mark)
  | bufferList (buffers : List Buffer)
  | localMark (mark : Mark)
  | change (mark : Mark)
  | unknown (id : UInt64) (payload : Bytes)
  deriving DecidableEq

def Content.kind : Content → Kind
  | .header _ => .header
  | .searchPattern _ => .searchPattern
  | .replacement _ => .replacement
  | .history _ => .history
  | .register _ => .register
  | .variable _ => .variable
  | .globalMark _ => .globalMark
  | .jump _ => .jump
  | .bufferList _ => .bufferList
  | .localMark _ => .localMark
  | .change _ => .change
  | .unknown .. => .unknown

/-- One entry of a file. -/
structure Entry where
  timestamp : Timestamp
  content : Content
  deriving DecidableEq

namespace Entry

def kind (entry : Entry) : Kind := entry.content.kind

/-- The id under which the entry is stored. -/
def kindId (entry : Entry) : UInt64 :=
  match entry.content with
  | .unknown id _ => id
  | content => content.kind.id?.getD 0

end Entry

end SessionStore
