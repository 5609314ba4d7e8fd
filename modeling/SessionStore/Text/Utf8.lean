import SessionStore.Bytes

/-! UTF-8 read one octet at a time; each maximal ill-formed prefix reads as one fault. -/
namespace SessionStore.Utf8

/-- An unfinished character: the octets it still owes, the range of the next one
and the bits so far. -/
structure Pending where
  owed : Nat
  low : UInt8
  high : UInt8
  bits : Nat

/-- What a leading octet begins. -/
inductive Lead where
  | char (c : Char)
  | pending (p : Pending)
  | fault

/-- Overlong forms, surrogates and values above 0x10FFFF are shut out by the
range of the second octet. -/
def lead (b : UInt8) : Lead :=
  if b < 0x80 then .char (Char.ofNat b.toNat)
  else if b < 0xC2 then .fault
  else if b < 0xE0 then .pending ⟨1, 0x80, 0xBF, b.toNat % 32⟩
  else if b = 0xE0 then .pending ⟨2, 0xA0, 0xBF, 0⟩
  else if b = 0xED then .pending ⟨2, 0x80, 0x9F, 13⟩
  else if b < 0xF0 then .pending ⟨2, 0x80, 0xBF, b.toNat % 16⟩
  else if b = 0xF0 then .pending ⟨3, 0x90, 0xBF, 0⟩
  else if b < 0xF4 then .pending ⟨3, 0x80, 0xBF, b.toNat % 8⟩
  else if b = 0xF4 then .pending ⟨3, 0x80, 0x8F, 4⟩
  else .fault

/-- Where a reading stands: the unfinished character, if any, and what was read, latest first. -/
structure State where
  pending : Option Pending := none
  read : List (Option Char) := []

/-- Takes an octet at the start of a character. -/
def State.start (s : State) (b : UInt8) : State :=
  match lead b with
  | .char c => { read := some c :: s.read }
  | .pending p => { s with pending := some p }
  | .fault => { read := none :: s.read }

/-- An octet that cannot continue the unfinished character makes it a fault and
starts the next one. -/
def State.step (s : State) (b : UInt8) : State :=
  match s.pending with
  | none => s.start b
  | some p =>
    if p.low ≤ b ∧ b ≤ p.high then
      let bits := p.bits * 64 + b.toNat % 64
      if p.owed = 1 then { read := some (Char.ofNat bits) :: s.read }
      else { s with pending := some ⟨p.owed - 1, 0x80, 0xBF, bits⟩ }
    else State.start { read := none :: s.read } b

/-- A character left unfinished at the end is a fault. -/
def State.finish (s : State) : List (Option Char) :=
  (if s.pending.isSome then none :: s.read else s.read).reverse

/-- The characters of a byte string, `none` for each maximal ill-formed prefix. -/
def scan (bytes : Bytes) : List (Option Char) := (bytes.foldl State.step {}).finish

/-- Whether a byte string is well-formed UTF-8. -/
def isValid (bytes : Bytes) : Bool := (scan bytes).all Option.isSome

/-- The text of a well-formed byte string. -/
def decode? (bytes : Bytes) : Option (List Char) :=
  if isValid bytes then some ((scan bytes).filterMap id) else none

/-- The text with a replacement character for every fault. -/
def lossy (bytes : Bytes) : String :=
  String.ofList ((scan bytes).map (·.getD '\uFFFD'))

end SessionStore.Utf8
