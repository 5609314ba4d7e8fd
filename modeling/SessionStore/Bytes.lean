/-! Byte strings and numbers in big-endian form. -/
namespace SessionStore

-- Powers are those of numbers, whatever monoids are in scope.
attribute [local instance (high)] instPowNat

abbrev Bytes := List UInt8

namespace Bytes

/-- The bytes of a text that holds ASCII characters only. -/
def ofAscii (text : String) : Bytes := text.toList.map Char.toUInt8

/-- The UTF-8 bytes of a text. -/
def ofText (text : List Char) : Bytes := text.flatMap String.utf8EncodeChar

/-- The `width` lowest base-256 digits of a number, the most significant first. -/
def bigEndian : Nat → Nat → Bytes
  | 0, _ => []
  | width + 1, n => bigEndian width (n / 256) ++ [UInt8.ofNat n]

/-- The number whose base-256 digits these are, the most significant first. -/
def toNat (digits : Bytes) : Nat := digits.foldl (fun n digit => n * 256 + digit.toNat) 0

/-- The first `n` bytes and the rest, unless there are fewer. -/
def splitAt? (n : Nat) (bytes : Bytes) : Option (Bytes × Bytes) :=
  let taken := bytes.take n
  if taken.length = n then some (taken, bytes.drop n) else none

@[simp] theorem length_bigEndian (width n : Nat) : (bigEndian width n).length = width := by
  induction width generalizing n with
  | zero => rfl
  | succ width ih => simp [bigEndian, ih]

theorem toNat_append_singleton (digits : Bytes) (digit : UInt8) :
    toNat (digits ++ [digit]) = toNat digits * 256 + digit.toNat := by
  simp [toNat]

theorem toNat_bigEndian {width n : Nat} (h : n < 256 ^ width) : toNat (bigEndian width n) = n := by
  induction width generalizing n with
  | zero =>
    have : n = 0 := by simpa using h
    subst this
    rfl
  | succ width ih =>
    have hq : n / 256 < 256 ^ width :=
      Nat.div_lt_of_lt_mul (by rwa [Nat.pow_succ, Nat.mul_comm] at h)
    rw [bigEndian, toNat_append_singleton, ih hq]
    simp only [UInt8.toNat_ofNat', Nat.reducePow]
    omega

theorem splitAt?_append (taken rest : Bytes) :
    splitAt? taken.length (taken ++ rest) = some (taken, rest) := by
  simp [splitAt?]

theorem splitAt?_eq_some_iff {n : Nat} {bytes taken rest : Bytes} :
    splitAt? n bytes = some (taken, rest) ↔ taken.length = n ∧ bytes = taken ++ rest := by
  constructor
  · intro h
    simp only [splitAt?] at h
    split at h
    · next hlen =>
      obtain ⟨rfl, rfl⟩ := Prod.mk.inj (Option.some.inj h)
      exact ⟨hlen, (List.take_append_drop n bytes).symm⟩
    · cases h
  · rintro ⟨rfl, rfl⟩
    exact splitAt?_append taken rest

end Bytes

end SessionStore
