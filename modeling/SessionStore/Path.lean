import SessionStore.Text.Utf8

/-! File paths: byte strings that are the same file when their components agree. -/
namespace SessionStore

/-- One step of a path. -/
inductive Component where
  | root
  | current
  | parent
  | name (bytes : Bytes)
  deriving DecidableEq

/-- A spelling of a path. -/
structure Path where
  bytes : Bytes
  deriving DecidableEq

namespace Component

/-- The bytes by which components are ordered: the root first, then `.`, `..` and the names. -/
def sortKey : Component → Bytes
  | .root => [0]
  | .current => [1]
  | .parent => [2]
  | .name bytes => 3 :: bytes

theorem sortKey_injective {a b : Component} (h : a.sortKey = b.sortKey) : a = b := by
  cases a <;> cases b <;> simp_all [sortKey]

/-- What a stretch between slashes stands for; an empty one and `.` stand for nothing. -/
def ofPiece (piece : Bytes) : Option Component :=
  if piece = [] ∨ piece = Bytes.ofAscii "." then none
  else if piece = Bytes.ofAscii ".." then some .parent
  else some (.name piece)

end Component

namespace Path

def slash : UInt8 := 0x2F

def ofAscii (text : String) : Path := ⟨Bytes.ofAscii text⟩

def empty : Path := ⟨[]⟩

def isEmpty (path : Path) : Bool := path.bytes.isEmpty

def isAbsolute (path : Path) : Bool := path.bytes.head? = some slash

/-- The stretches between slashes, empty ones included. -/
def pieces (bytes : Bytes) : List Bytes := bytes.splitOnP (· = slash)

/-- Whether a relative path starts with the component `.`. -/
def startsAtCurrent (path : Path) : Bool :=
  !path.isAbsolute && (pieces path.bytes).head? = some (Bytes.ofAscii ".")

/-- The leading component that no piece stands for: the root, or a leading `.`. -/
def start (path : Path) : List Component :=
  if path.isAbsolute then [.root] else if path.startsAtCurrent then [.current] else []

/-- Repeated and trailing slashes and every `.` but a leading one leave no component. -/
def components (path : Path) : List Component :=
  path.start ++ (pieces path.bytes).filterMap Component.ofPiece

/-- Two spellings are the same file when their components agree. -/
instance : BEq Path := ⟨fun a b => a.components = b.components⟩

theorem beq_iff {a b : Path} : (a == b) = true ↔ a.components = b.components := by
  simp [BEq.beq]

instance : EquivBEq Path where
  rfl := beq_iff.2 rfl
  symm h := beq_iff.2 (beq_iff.1 h).symm
  trans h₁ h₂ := beq_iff.2 ((beq_iff.1 h₁).trans (beq_iff.1 h₂))

def sortKey (path : Path) : List Bytes := path.components.map Component.sortKey

/-- Paths are ordered by their components, the first difference deciding. -/
instance : Ord Path := ⟨fun a b => compare a.sortKey b.sortKey⟩

instance : Std.TransOrd Path where
  eq_swap {a b} :=
    show compare a.sortKey b.sortKey = (compare b.sortKey a.sortKey).swap from
      Std.OrientedOrd.eq_swap
  isLE_trans {a b c} h₁ h₂ :=
    show (compare a.sortKey c.sortKey).isLE = true from
      Std.TransOrd.isLE_trans (b := b.sortKey) h₁ h₂

/-- An absolute path replaces what it is joined to; a slash is put between where there is none. -/
def join (a b : Path) : Path :=
  if b.isAbsolute then b
  else if a.isEmpty ∨ a.bytes.getLast? = some slash then ⟨a.bytes ++ b.bytes⟩
  else ⟨a.bytes ++ slash :: b.bytes⟩

/-- Whether a piece names something. -/
private def isStep (piece : Bytes) : Bool := (Component.ofPiece piece).isSome

private def joinPieces : List Bytes → Bytes
  | [] => []
  | [piece] => piece
  | piece :: rest => piece ++ slash :: joinPieces rest

/-- The path without its last component, or none when there is nothing to take away. -/
def parent? (path : Path) : Option Path :=
  let lead := path.bytes.take path.start.length
  let body := (pieces (path.bytes.drop path.start.length)).reverse
  match body.dropWhile (!isStep ·) with
  | [] => if path.startsAtCurrent then some empty else none
  | _ :: rest => some ⟨lead ++ joinPieces (rest.dropWhile (!isStep ·)).reverse⟩

/-- The path as text, with a replacement character for every fault in it. -/
def display (path : Path) : String := Utf8.lossy path.bytes

end Path

end SessionStore
