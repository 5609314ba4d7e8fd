import SessionStore.Entry

/-! Limits and switches: what is kept from one session to the next. -/
namespace SessionStore

/-- A limit of 0 switches a list off; for payloads, register lines and buffers it means no limit. -/
structure Settings where
  /-- Where the file is, unless it is in its default place. -/
  path : Option Path := none
  /-- The longest payload, in units of 1024 bytes. -/
  maxKbyte : UInt64 := 10
  registerLines : Nat := 50
  /-- How many files keep their local marks and changes. -/
  markedFiles : Nat := 100
  /-- How many buffers are kept; none keeps no buffer list at all. -/
  bufferList : Option Nat := none
  globalVariables : Bool := true
  globalMarks : Bool := true
  history : PerHistory Nat := .uniform 100
  jumps : Nat := 100
  /-- How many changes each file keeps. -/
  changes : Nat := 100
  /-- Files whose paths start with one of these bytes are never kept. -/
  removable : List Path := []

namespace Settings

/-- The spelling counts here, byte by byte. -/
def isRemovable (s : Settings) (path : Path) : Bool :=
  s.removable.any fun start => start.bytes.isPrefixOf path.bytes

/-- The longest payload in bytes, none when there is no limit. The product stays within 64 bits. -/
def maxPayloadBytes (s : Settings) : Option Nat :=
  if s.maxKbyte = 0 then none else some (min (s.maxKbyte.toNat * 1024) 18446744073709551615)

/-- The most lines of a register, none when there is no limit. -/
def registerLineLimit (s : Settings) : Option Nat :=
  if s.registerLines = 0 then none else some s.registerLines

/-- Whether an entry is a register of too many lines. -/
def exceedsLineLimit (s : Settings) (entry : Entry) : Bool :=
  match entry.content with
  | .register register => s.registerLineLimit.any (· < register.contents.length)
  | _ => false

end Settings

end SessionStore
