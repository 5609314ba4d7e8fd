import Mathlib.Algebra.BigOperators.Group.List.Basic
import Mathlib.Algebra.GroupWithZero.Nat
import SessionStore.Calendar
import SessionStore.Decimal.Shortest
import SessionStore.Text.Quoted
import SessionStore.Text.Utf8

/-! Line breaks in texts: what brings none with it, and what shows those of its bytes. -/
namespace SessionStore

namespace Text

def lineBreaks (text : String) : Nat := text.toList.count '\n'

theorem lineBreaks_append (a b : String) : lineBreaks (a ++ b) = lineBreaks a + lineBreaks b := by
  simp [lineBreaks]

theorem lineBreaks_append_left {a : String} (h : lineBreaks a = 0) (b : String) :
    lineBreaks (a ++ b) = lineBreaks b := by
  rw [lineBreaks_append, h, Nat.zero_add]

theorem lineBreaks_append_right {b : String} (h : lineBreaks b = 0) (a : String) :
    lineBreaks (a ++ b) = lineBreaks a := by
  rw [lineBreaks_append, h, Nat.add_zero]

theorem lineBreaks_ofList (text : List Char) :
    lineBreaks (String.ofList text) = text.count '\n' := by
  rw [lineBreaks, String.toList_ofList]

theorem lineBreaks_intercalate {separator : String} (h : lineBreaks separator = 0)
    (texts : List String) :
    lineBreaks (String.intercalate separator texts) = (texts.map lineBreaks).sum := by
  have hcount (texts : List (List Char)) :
      (separator.toList.intercalate texts).count '\n' = (texts.map (List.count '\n')).sum := by
    induction texts with
    | nil => rfl
    | cons first rest ih =>
      cases rest with
      | nil => simp
      | cons second rest =>
        have hseparator : separator.toList.count '\n' = 0 := h
        rw [List.intercalate_cons_cons, List.count_append, List.count_append, ih, hseparator]
        simp
  rw [lineBreaks, String.toList_intercalate, hcount, List.map_map]
  rfl

theorem lineBreaks_intercalate_eq_zero {separator : String} (h : lineBreaks separator = 0)
    {texts : List String} (ht : ∀ text ∈ texts, lineBreaks text = 0) :
    lineBreaks (String.intercalate separator texts) = 0 := by
  rw [lineBreaks_intercalate h, List.sum_eq_zero (List.forall_mem_map.mpr ht)]

def lines (text : String) : List (List Char) := text.toList.splitOn '\n'

/-- Behind each line break there is one more line. -/
theorem length_lines (text : String) : (lines text).length = lineBreaks text + 1 := by
  rw [lines, lineBreaks]
  induction text.toList with
  | nil => rfl
  | cons c rest ih =>
    rw [List.splitOn_cons_eq_if_modifyHead, List.count_cons]
    split <;> simp [ih]

theorem lines_of_lineBreaks_eq_zero {text : String} (h : lineBreaks text = 0) :
    lines text = [text.toList] :=
  List.splitOn_eq_singleton (List.count_eq_zero.mp h)

/-- Digits are no line breaks, decimal or hexadecimal. -/
theorem lineBreak_not_mem_toDigits {base : Nat} (hb : 1 < base) (hl : base ≤ 16) (n : Nat) :
    '\n' ∉ Nat.toDigits base n := by
  have hdigit {d : Nat} (hd : d < base) : '\n' ≠ Nat.digitChar d := by
    have hall : ∀ d < 16, '\n' ≠ Nat.digitChar d := by decide
    exact hall d (Nat.lt_of_lt_of_le hd hl)
  induction n using Nat.strongRecOn with
  | ind n ih =>
    by_cases hn : n < base
    · rw [Nat.toDigits_of_lt_base hn, List.mem_singleton]
      exact hdigit hn
    · have hle : base ≤ n := Nat.le_of_not_lt hn
      rw [Nat.toDigits_of_base_le hb hle, List.mem_append, List.mem_singleton, not_or]
      exact ⟨ih _ (Nat.div_lt_self (by omega) hb), hdigit (Nat.mod_lt n (by omega))⟩

theorem lineBreak_not_mem_decimal (n : Nat) : '\n' ∉ Nat.toDigits 10 n :=
  lineBreak_not_mem_toDigits (by decide) (by decide) n

@[simp] theorem lineBreaks_repr (n : Nat) : lineBreaks n.repr = 0 :=
  List.count_eq_zero.mpr (by simpa using lineBreak_not_mem_decimal n)

@[simp] theorem lineBreaks_toString (n : UInt64) : lineBreaks (toString n) = 0 :=
  lineBreaks_repr n.toNat

@[simp] theorem lineBreaks_toString_int (n : Int) : lineBreaks (toString n) = 0 := by
  cases n with
  | ofNat n => exact lineBreaks_repr n
  | negSucc n => exact (lineBreaks_append_left (by decide) _).trans (lineBreaks_repr (n + 1))

/-- In a quoted text every line break has a form of its own. -/
theorem lineBreak_not_mem_escape (c : Char) : '\n' ∉ escape c := by
  have hcode : '\n' ∉ escapeCode c := by
    simp only [escapeCode, List.mem_append, not_or]
    exact ⟨⟨by decide, lineBreak_not_mem_toDigits (by decide) (by decide) _⟩, by decide⟩
  unfold escape
  split_ifs with h₀ h₁ h₂ h₃ h₄
  · decide
  · decide
  · decide
  · decide
  · rcases h₄ with rfl | rfl <;> decide
  · exact hcode
  · simpa using Ne.symm h₃

@[simp] theorem lineBreaks_quote (text : List Char) : lineBreaks (quote text) = 0 := by
  rw [quote, lineBreaks_ofList, List.count_eq_zero]
  simp only [List.mem_append, List.mem_cons, List.mem_flatMap, not_or, not_exists, not_and]
  exact ⟨⟨by decide, fun c _ => lineBreak_not_mem_escape c⟩, by decide⟩

end Text

open Text

namespace Calendar

theorem lineBreaks_padded (width n : Nat) : lineBreaks (padded width n) = 0 := by
  rw [padded, lineBreaks_ofList, List.count_append, List.count_replicate,
    if_neg (by decide), Nat.zero_add]
  exact List.count_eq_zero.mpr (lineBreak_not_mem_decimal n)

theorem lineBreaks_yearText (year : Nat) :
    lineBreaks (if 9999 < year then "+" ++ toString year else padded 4 year) = 0 := by
  have hplus : lineBreaks "+" = 0 := by decide
  split
  · rw [lineBreaks_append, hplus, Nat.zero_add]
    exact lineBreaks_repr year
  · exact lineBreaks_padded 4 year

theorem lineBreaks_dateText {year : String} (h : lineBreaks year = 0)
    (month day hour minute second : Nat) :
    lineBreaks (year ++ "-" ++ padded 2 month ++ "-" ++ padded 2 day ++ " " ++
      padded 2 hour ++ ":" ++ padded 2 minute ++ ":" ++ padded 2 second) = 0 := by
  have hdash : lineBreaks "-" = 0 := by decide
  have hspace : lineBreaks " " = 0 := by decide
  have hcolon : lineBreaks ":" = 0 := by decide
  simp only [lineBreaks_append, lineBreaks_padded, h, hdash, hspace, hcolon, Nat.add_zero]

@[simp] theorem lineBreaks_timeText (seconds : Nat) : lineBreaks (timeText seconds) = 0 := by
  rw [timeText]
  split
  · exact lineBreaks_repr seconds
  · exact lineBreaks_dateText (lineBreaks_yearText _) _ _ _ _ _

end Calendar

namespace Decimal

/-- A number is written with digits and one point at most. -/
theorem lineBreak_not_mem_toText (s : Scaled) : '\n' ∉ s.toText := by
  have hdigits := lineBreak_not_mem_decimal s.digits
  have hsignificant : '\n' ∉ ((Nat.toDigits 10 s.digits).reverse.dropWhile (· = '0')).reverse :=
    fun hm =>
      hdigits (List.mem_reverse.mp (List.dropWhile_sublist _ |>.subset (List.mem_reverse.mp hm)))
  unfold Scaled.toText
  dsimp only
  generalize ((Nat.toDigits 10 s.digits).reverse.dropWhile (· = '0')).reverse =
    significant at hsignificant ⊢
  have hzeros (n : Nat) : '\n' ∉ List.replicate n '0' :=
    fun hm => absurd (List.eq_of_mem_replicate hm) (by decide)
  split_ifs
  · exact fun hm => (List.mem_append.mp hm).elim hsignificant (hzeros _)
  · simp only [List.mem_append, List.mem_cons, not_or]
    exact ⟨fun hm => hsignificant (List.mem_of_mem_take hm),
      by decide, fun hm => hsignificant (List.mem_of_mem_drop hm)⟩
  · simp only [List.cons_append, List.mem_append, List.mem_cons, not_or]
    exact ⟨by decide, by decide, hzeros _, hsignificant⟩

@[simp] theorem BinaryFormat.lineBreaks_toText (f : BinaryFormat) (bits : Nat) :
    lineBreaks (f.toText bits) = 0 := by
  have hsign : lineBreaks (if f.isNegative bits then "-" else "") = 0 := by
    split <;> decide
  unfold toText
  dsimp only
  generalize (if f.isNegative bits then "-" else "") = sign at hsign ⊢
  cases f.magnitude bits with
  | nan => exact show lineBreaks "NaN" = 0 by decide
  | infinite => exact (lineBreaks_append_left hsign _).trans (by decide)
  | zero => exact (lineBreaks_append_left hsign _).trans (by decide)
  | finite value =>
    refine (lineBreaks_append_left hsign _).trans ?_
    rw [lineBreaks_ofList]
    exact List.count_eq_zero.mpr (lineBreak_not_mem_toText value.shortest)

end Decimal

namespace Utf8

/-- The least number that an unfinished character can come to. -/
def Pending.least (p : Pending) : Nat := (p.bits * 64 + p.low.toNat % 64) * 64 ^ (p.owed - 1)

/-- Whether an unfinished character can only be continued by octets of the upper
half, to a number that no single octet stands for. -/
structure Pending.Long (p : Pending) : Prop where
  low : 0x80 ≤ p.low.toNat
  high : p.high.toNat ≤ 0xBF
  least : 0x80 ≤ p.least

theorem Pending.long_of_bits {owed bits : Nat} (h : 0x80 ≤ bits * 64 * 64 ^ (owed - 1)) :
    Long ⟨owed, 0x80, 0xBF, bits⟩ where
  low := Nat.le_refl 0x80
  high := Nat.le_refl 0xBF
  least := by simpa [Pending.least] using h

/-- One more octet does not make the number less. -/
theorem Pending.Long.continued {p : Pending} (hp : p.Long) {b : UInt8}
    (hb : p.low ≤ b ∧ b ≤ p.high) :
    b ≠ 0x0A ∧ 0x80 ≤ (p.bits * 64 + b.toNat % 64) * 64 ^ (p.owed - 1) := by
  have hlow : p.low.toNat ≤ b.toNat := UInt8.le_iff_toNat_le.mp hb.1
  have hhigh : b.toNat ≤ p.high.toNat := UInt8.le_iff_toNat_le.mp hb.2
  have hrange := hp.low
  have hlimit := hp.high
  refine ⟨?_, Nat.le_trans hp.least (Nat.mul_le_mul_right _ (by omega))⟩
  rintro rfl
  simp only [UInt8.reduceToNat] at hlow
  omega

theorem ofNat_eq_lineBreak_iff {n : Nat} : Char.ofNat n = '\n' ↔ n = 10 := by
  refine ⟨fun h => ?_, fun h => h ▸ rfl⟩
  by_cases hn : n.isValidChar
  · have hvalid : Char.ofNat n = Char.ofNatAux n hn := dif_pos hn
    exact congrArg Char.toNat (hvalid.symm.trans h)
  · have hzero : Char.ofNat n = '\x00' := dif_neg hn
    exact absurd (hzero.symm.trans h) (by decide)

theorem lead_lineBreak : lead 0x0A = .char '\n' := rfl

theorem lead_char {b : UInt8} {c : Char} (h : lead b = .char c) : c = Char.ofNat b.toNat := by
  unfold lead at h
  split_ifs at h
  exact (Lead.char.inj h).symm

/-- The ranges of the second octet shut the short numbers out where the first
octet leaves room for them. -/
theorem lead_pending {b : UInt8} {p : Pending} (h : lead b = .pending p) : p.Long := by
  unfold lead at h
  split_ifs at h with h₀ h₁ h₂ h₃ h₄ h₅ h₆ h₇ h₈ <;> obtain rfl := Lead.pending.inj h
  -- Three of the seven ranges leave bits of the first octet open; in the others the
  -- number can be computed.
  · refine Pending.long_of_bits (show 0x80 ≤ b.toNat % 32 * 64 * 1 from ?_)
    simp only [UInt8.lt_iff_toNat_lt, UInt8.reduceToNat] at h₁ h₂
    omega
  · exact ⟨by decide, by decide, by decide⟩
  · exact ⟨by decide, by decide, by decide⟩
  · refine Pending.long_of_bits (show 0x80 ≤ b.toNat % 16 * 64 * 64 from ?_)
    simp only [UInt8.lt_iff_toNat_lt, ← UInt8.toNat_inj, UInt8.reduceToNat] at h₂ h₃ h₅
    omega
  · exact ⟨by decide, by decide, by decide⟩
  · refine Pending.long_of_bits (show 0x80 ≤ b.toNat % 8 * 64 * 4096 from ?_)
    simp only [UInt8.lt_iff_toNat_lt, ← UInt8.toNat_inj, UInt8.reduceToNat] at h₅ h₆ h₇
    omega
  · exact ⟨by decide, by decide, by decide⟩

namespace State

/-- What is unfinished is long. -/
def Sound (s : State) : Prop := ∀ p, s.pending = some p → p.Long

def breaks (s : State) : Nat := s.read.count (some '\n')

theorem sound_read (read : List (Option Char)) : Sound { read } := fun _ hp => absurd hp (by simp)

theorem breaks_fault (read : List (Option Char)) :
    breaks { read := none :: read } = read.count (some '\n') :=
  List.count_cons_of_ne (by decide)

theorem breaks_char (n : Nat) (read : List (Option Char)) :
    breaks { read := some (Char.ofNat n) :: read } = read.count (some '\n') +
      if n = 10 then 1 else 0 := by
  rw [breaks, List.count_cons]
  simp only [beq_iff_eq, Option.some.injEq, ofNat_eq_lineBreak_iff]

theorem start_spec (s : State) (b : UInt8) :
    (s.start b).Sound ∧ (s.start b).breaks = s.breaks + if b = 0x0A then 1 else 0 := by
  have hne (h : lead b ≠ .char '\n') : b ≠ 0x0A := fun hb => h (hb ▸ lead_lineBreak)
  unfold start
  split
  · next c hc =>
    refine ⟨sound_read _, ?_⟩
    rw [lead_char hc, breaks_char]
    simp only [← UInt8.toNat_inj, UInt8.reduceToNat]
    rfl
  · next p hp =>
    refine ⟨fun q hq => Option.some.inj hq ▸ lead_pending hp, ?_⟩
    rw [if_neg (hne (by simp [hp])), Nat.add_zero]
    rfl
  · next hf =>
    refine ⟨sound_read _, ?_⟩
    rw [breaks_fault, if_neg (hne (by simp [hf])), Nat.add_zero]
    rfl

theorem Sound.step {s : State} (hs : s.Sound) (b : UInt8) :
    (s.step b).Sound ∧ (s.step b).breaks = s.breaks + if b = 0x0A then 1 else 0 := by
  unfold State.step
  split
  · exact start_spec s b
  · next p hp =>
    split
    · next hb =>
      obtain ⟨hne, hleast⟩ := (hs p hp).continued hb
      rw [if_neg hne, Nat.add_zero]
      dsimp only
      split
      · -- The character is complete, and no single octet stands for its number.
        next ho =>
        rw [ho, Nat.sub_self, Nat.pow_zero, Nat.mul_one] at hleast
        refine ⟨sound_read _, ?_⟩
        rw [breaks_char, if_neg (by omega), Nat.add_zero]
        rfl
      · refine ⟨fun q hq => Option.some.inj hq ▸ Pending.long_of_bits (Nat.le_trans hleast ?_), rfl⟩
        rw [Nat.mul_assoc, ← Nat.pow_succ']
        exact Nat.mul_le_mul_left _ (Nat.pow_le_pow_right (by decide) (by omega))
    · obtain ⟨hsound, hbreaks⟩ := start_spec { read := none :: s.read } b
      rw [breaks_fault] at hbreaks
      exact ⟨hsound, hbreaks⟩

theorem Sound.foldl_step {s : State} (hs : s.Sound) (bytes : Bytes) :
    (bytes.foldl State.step s).breaks = s.breaks + bytes.count 0x0A := by
  induction bytes generalizing s with
  | nil => rfl
  | cons b rest ih =>
    obtain ⟨hsound, hbreaks⟩ := hs.step b
    rw [List.foldl_cons, ih hsound, hbreaks, List.count_cons, beq_eq_decide, Nat.add_assoc]
    simp [Nat.add_comm]

theorem count_finish (s : State) : s.finish.count (some '\n') = s.breaks := by
  rw [finish, List.count_reverse]
  split
  · exact breaks_fault s.read
  · rfl

end State

/-- A text shows a line break for each octet that is one, and for no other octet. -/
@[simp] theorem lineBreaks_lossy (bytes : Bytes) : lineBreaks (lossy bytes) = bytes.count 0x0A := by
  have hshown (read : List (Option Char)) : (read.map (·.getD '\uFFFD')).count '\n' =
      read.count (some '\n') := by
    rw [List.count, List.countP_map, List.count]
    refine List.countP_congr fun c _ => ?_
    cases c <;> simp
  calc lineBreaks (lossy bytes) =
    (scan bytes).count (some '\n') := by rw [lossy, lineBreaks_ofList, hshown]
    _ = (bytes.foldl State.step {}).breaks := State.count_finish _
    _ = State.breaks {} + bytes.count 0x0A := (State.sound_read []).foldl_step bytes
    _ = bytes.count 0x0A := Nat.zero_add _

end Utf8

end SessionStore
