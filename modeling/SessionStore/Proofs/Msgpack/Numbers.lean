import SessionStore.Msgpack.Reader
import SessionStore.Msgpack.Writer
import SessionStore.Proofs.Results

/-! Sizes and integers are read back as they were written, whatever bytes follow them. -/
namespace SessionStore.Msgpack

@[simp] theorem readNat_append {width n : Nat} (h : n < 256 ^ width) (rest : Bytes) :
    readNat width (Bytes.bigEndian width n ++ rest) = .ok (n, rest) := by
  have hs := Bytes.splitAt?_append (Bytes.bigEndian width n) rest
  rw [Bytes.length_bigEndian] at hs
  rw [readNat, hs]
  simp only [Bytes.toNat_bigEndian h]

@[simp] theorem readBody_append (bytes rest : Bytes) :
    readBody bytes.length (bytes ++ rest) = .ok (bytes, rest) := by
  rw [readBody, Bytes.splitAt?_append]

namespace Marker

theorem ofByte_map {n : Nat} (h : n < 16) :
    ofByte (0x80 + UInt8.ofNat n) = .map (.fixed n) := by
  have hb : (0x80 + UInt8.ofNat n).toNat = 128 + n := by
    simp only [UInt8.toNat_add, UInt8.toNat_ofNat', UInt8.reduceToNat]
    omega
  unfold ofByte
  simp only [UInt8.lt_iff_toNat_lt, hb, UInt8.reduceToNat]
  rw [if_neg (by omega), if_pos (by omega), Nat.add_sub_cancel_left]

theorem ofByte_array {n : Nat} (h : n < 16) :
    ofByte (0x90 + UInt8.ofNat n) = .array (.fixed n) := by
  have hb : (0x90 + UInt8.ofNat n).toNat = 144 + n := by
    simp only [UInt8.toNat_add, UInt8.toNat_ofNat', UInt8.reduceToNat]
    omega
  unfold ofByte
  simp only [UInt8.lt_iff_toNat_lt, hb, UInt8.reduceToNat]
  rw [if_neg (by omega), if_neg (by omega), if_pos (by omega), Nat.add_sub_cancel_left]

theorem ofByte_str {n : Nat} (h : n < 32) :
    ofByte (0xA0 + UInt8.ofNat n) = .str (.fixed n) := by
  have hb : (0xA0 + UInt8.ofNat n).toNat = 160 + n := by
    simp only [UInt8.toNat_add, UInt8.toNat_ofNat', UInt8.reduceToNat]
    omega
  unfold ofByte
  simp only [UInt8.lt_iff_toNat_lt, hb, UInt8.reduceToNat]
  rw [if_neg (by omega), if_neg (by omega), if_neg (by omega), if_pos (by omega),
    Nat.add_sub_cancel_left]

end Marker

/-- A header that announces `n` bytes or things: a marker, and the size within it or behind it. -/
def Announces (marker : Size → Marker) (n : Nat) (header : Bytes) : Prop :=
  ∃ first size digits, header = first :: digits ∧ Marker.ofByte first = marker size ∧
    ∀ rest, size.read (digits ++ rest) = .ok (n, rest)

theorem announces_fixed {marker : Size → Marker} {n : Nat} {first : UInt8}
    (h : Marker.ofByte first = marker (.fixed n)) : Announces marker n [first] :=
  ⟨first, .fixed n, [], rfl, h, fun _ => rfl⟩

theorem announces_counted {marker : Size → Marker} {n : Nat} {first : UInt8} (width : Nat)
    (h : Marker.ofByte first = marker (.counted width)) (hn : n < 256 ^ width) :
    Announces marker n (first :: Bytes.bigEndian width n) :=
  ⟨first, .counted width, Bytes.bigEndian width n, rfl, h, fun rest => readNat_append hn rest⟩

theorem announces_wide {marker : Size → Marker} {n : Nat} {two four : UInt8}
    (h₂ : Marker.ofByte two = marker (.counted 2)) (h₄ : Marker.ofByte four = marker (.counted 4))
    (hn : n < 2 ^ 32) : Announces marker n (sizeHeader.wide two four n) := by
  unfold sizeHeader.wide
  split
  · next h => exact announces_counted 2 h₂ h
  · exact announces_counted 4 h₄ hn

theorem announces_strHeader {n : Nat} (hn : n < 2 ^ 32) : Announces .str n (strHeader n) := by
  unfold strHeader sizeHeader
  dsimp only
  split
  · next h => exact announces_fixed (Marker.ofByte_str h)
  unfold sizeHeader.counted
  dsimp only
  split
  · next h => exact announces_counted 1 rfl h
  · exact announces_wide rfl rfl hn

theorem announces_binHeader {n : Nat} (hn : n < 2 ^ 32) : Announces .bin n (binHeader n) := by
  unfold binHeader sizeHeader sizeHeader.counted
  dsimp only
  split
  · next h => exact announces_counted 1 rfl h
  · exact announces_wide rfl rfl hn

theorem announces_arrayHeader {n : Nat} (hn : n < 2 ^ 32) : Announces .array n (arrayHeader n) := by
  unfold arrayHeader sizeHeader sizeHeader.counted
  dsimp only
  split
  · next h => exact announces_fixed (Marker.ofByte_array h)
  · exact announces_wide rfl rfl hn

theorem announces_mapHeader {n : Nat} (hn : n < 2 ^ 32) : Announces .map n (mapHeader n) := by
  unfold mapHeader sizeHeader sizeHeader.counted
  dsimp only
  split
  · next h => exact announces_fixed (Marker.ofByte_map h)
  · exact announces_wide rfl rfl hn

theorem announces_extHeader {n : Nat} (hn : n < 2 ^ 32) : Announces .ext n (extHeader n) := by
  unfold extHeader
  split
  · next h => exact announces_fixed (h ▸ rfl)
  split
  · next h => exact announces_fixed (h ▸ rfl)
  split
  · next h => exact announces_fixed (h ▸ rfl)
  split
  · next h => exact announces_fixed (h ▸ rfl)
  split
  · next h => exact announces_fixed (h ▸ rfl)
  unfold sizeHeader sizeHeader.counted
  dsimp only
  split
  · next h => exact announces_counted 1 rfl h
  · exact announces_wide rfl rfl hn

theorem Integer.toInt_injective {a b : Integer} (h : a.toInt = b.toInt) : a = b := by
  cases a
  cases b
  cases h
  rfl

namespace Marker

theorem ofByte_fixint {n : Nat} (h : n < 128) :
    ofByte (UInt8.ofNat n) = .value (.int (.ofUInt64 (UInt64.ofNat n))) := by
  have hb : (UInt8.ofNat n).toNat = n := by
    rw [UInt8.toNat_ofNat']
    omega
  have hw : (UInt8.ofNat n).toUInt64 = UInt64.ofNat n := by
    apply UInt64.toNat_inj.mp
    rw [UInt8.toNat_toUInt64, hb, UInt64.toNat_ofNat']
    omega
  unfold ofByte
  rw [if_pos (UInt8.lt_iff_toNat_lt.mpr (by rw [hb]; exact h)), hw]

theorem ofByte_negative {n : Int} (hlo : -32 ≤ n) (hhi : n < 0) :
    ofByte (UInt8.ofNat (n % 256).toNat) = .value (.int (.ofInt64 (Int64.ofInt n))) := by
  have hn : (n % 256).toNat = (256 + n).toNat := by omega
  have hb : (UInt8.ofNat (n % 256).toNat).toNat = (256 + n).toNat := by
    rw [UInt8.toNat_ofNat', hn]
    omega
  have hw : (UInt8.ofNat (n % 256).toNat).toInt8.toInt64 = Int64.ofInt n := by
    apply Int64.toInt_inj.mp
    have hs : Int8.size = 256 := rfl
    rw [Int8.toInt_toInt64, UInt8.toInt8_ofNat', Int8.toInt_ofNat', hn, hs,
      Int64.toInt_ofInt_of_le (by omega) (by omega), Int.bmod_def]
    omega
  unfold ofByte
  simp only [UInt8.lt_iff_toNat_lt, UInt8.le_iff_toNat_le, hb, UInt8.reduceToNat]
  rw [if_neg (by omega), if_neg (by omega), if_neg (by omega), if_neg (by omega), if_pos (by omega),
    hw]

end Marker

theorem toNat_complement {width : Nat} {n : Int} (hlo : -256 ^ width ≤ n) (hhi : n < 0) :
    (n % 256 ^ width).toNat = (256 ^ width + n).toNat := by
  rw [← Int.add_emod_left, Int.emod_eq_of_lt (by omega) (by omega)]

/-- The two's complement of a negative number is read back as that number. -/
theorem signedOf_complement {width : Nat} {n : Int} (hlo : -(128 * 256 ^ width) ≤ n) (hhi : n < 0) :
    signedOf (width + 1) (n % 256 ^ (width + 1)).toNat = Int64.ofInt n := by
  have hp : (256 : Int) ^ (width + 1) = 256 * 256 ^ width := by rw [Int.pow_succ, Int.mul_comm]
  have hq : ((256 ^ width : Nat) : Int) = 256 ^ width := by simp
  have hpos : 0 < 256 ^ width := Nat.pow_pos (by decide)
  rw [toNat_complement (by omega) hhi, hp]
  unfold signedOf
  simp only [Nat.add_sub_cancel]
  rw [if_neg (by omega), hp]
  congr 1
  omega

theorem length_sizeHeader_le (fixed : Option (Nat × UInt8)) (one : Option UInt8) (two four : UInt8)
    (n : Nat) : (sizeHeader fixed one two four n).length ≤ 5 := by
  have hwide : (sizeHeader.wide two four n).length ≤ 5 := by
    unfold sizeHeader.wide
    split <;> simp
  have hcounted : (sizeHeader.counted one two four n).length ≤ 5 := by
    unfold sizeHeader.counted
    split
    · split
      · simp
      · exact hwide
    · exact hwide
  unfold sizeHeader
  split
  · split
    · simp
    · exact hcounted
  · exact hcounted

theorem length_arrayHeader_mono {m n : Nat} (h : m ≤ n) :
    (arrayHeader m).length ≤ (arrayHeader n).length := by
  unfold arrayHeader sizeHeader
  dsimp only
  unfold sizeHeader.counted sizeHeader.wide
  dsimp only
  split_ifs <;> simp <;> omega

theorem length_encodeNat_le (n : Nat) : (encodeNat n).length ≤ 9 := by
  unfold encodeNat
  repeat' split
  all_goals simp

namespace Value

theorem length_encode_ofAscii_le (text : String) :
    (ofAscii text).encode.length ≤ (Bytes.ofAscii text).length + 5 := by
  rw [ofAscii, encode, List.length_append]
  split
  · have := length_sizeHeader_le (some (32, 0xA0)) (some 0xD9) 0xDA 0xDB
      (word (Bytes.ofAscii text).length)
    unfold strHeader
    omega
  · have := length_sizeHeader_le none (some 0xC4) 0xC5 0xC6 (word (Bytes.ofAscii text).length)
    unfold binHeader
    omega

theorem length_encode_ofUInt64_le (n : UInt64) : (ofUInt64 n).encode.length ≤ 9 := by
  have hn : (0 : Int) ≤ (Integer.ofUInt64 n).toInt := Int.natCast_nonneg _
  rw [ofUInt64, encode, encodeInt, if_pos hn]
  exact length_encodeNat_le _

private theorem read_unsigned {width n : Nat} {first : UInt8}
    (hf : Marker.ofByte first = .unsigned width) (hn : n < 256 ^ width) (depth : Nat)
    (rest : Bytes) :
    read (depth + 1) (first :: Bytes.bigEndian width n ++ rest) =
      .ok (.int (.ofUInt64 (UInt64.ofNat n)), rest) := by
  simp only [List.cons_append, read, hf, readNat_append hn, Results.ok_bind, Results.pure_eq_ok]

theorem read_encodeNat {n : Nat} (h : n < 2 ^ 64) (depth : Nat) (rest : Bytes) :
    read (depth + 1) (encodeNat n ++ rest) = .ok (.int (.ofUInt64 (UInt64.ofNat n)), rest) := by
  unfold encodeNat
  split
  · next h => simp only [List.singleton_append, read, Marker.ofByte_fixint h]
  split
  · next h => exact read_unsigned rfl h depth rest
  split
  · next h => exact read_unsigned rfl h depth rest
  split
  · next h => exact read_unsigned rfl h depth rest
  · exact read_unsigned rfl h depth rest

private theorem read_signed {n : Int} {first : UInt8} (width : Nat)
    (hf : Marker.ofByte first = .signed (width + 1)) (hlo : -(128 * 256 ^ width) ≤ n) (hhi : n < 0)
    (depth : Nat) (rest : Bytes) :
    read (depth + 1) (first :: complement (width + 1) n ++ rest) =
      .ok (.int (.ofInt64 (Int64.ofInt n)), rest) := by
  have hb : (n % 256 ^ (width + 1)).toNat < 256 ^ (width + 1) := by
    have hp : (0 : Int) < 256 ^ (width + 1) := Int.pow_pos (by decide)
    have hm := Int.emod_lt_of_pos n hp
    have hz := Int.emod_nonneg n (Int.ne_of_gt hp)
    have hc : ((256 ^ (width + 1) : Nat) : Int) = 256 ^ (width + 1) := by simp
    omega
  simp only [List.cons_append, read, hf, complement, readNat_append hb, Results.ok_bind,
    Results.pure_eq_ok, signedOf_complement hlo hhi]

theorem read_encodeInt (n : Integer) (depth : Nat) (rest : Bytes) :
    read (depth + 1) (encodeInt n.toInt ++ rest) = .ok (.int n, rest) := by
  have hlo := n.lower
  have hhi := n.upper
  have hneg (h : n.toInt < 0) : Integer.ofInt64 (Int64.ofInt n.toInt) = n :=
    Integer.toInt_injective (Int64.toInt_ofInt_of_le (by omega) (by omega))
  unfold encodeInt
  split
  · next h =>
    rw [read_encodeNat (by omega)]
    congr 3
    apply Integer.toInt_injective
    simp only [Integer.ofUInt64, UInt64.toNat_ofNat']
    omega
  split
  · next h₀ h =>
    have hc : complement 1 n.toInt = [UInt8.ofNat (n.toInt % 256).toNat] := rfl
    rw [hc, List.singleton_append, read, Marker.ofByte_negative h (by omega)]
    simp only [hneg (by omega)]
  split
  · next h => rw [read_signed 0 rfl (by omega) (by omega), hneg (by omega)]
  split
  · next h => rw [read_signed 1 rfl (by omega) (by omega), hneg (by omega)]
  split
  · next h => rw [read_signed 3 rfl (by omega) (by omega), hneg (by omega)]
  · rw [read_signed 7 rfl (by omega) (by omega), hneg (by omega)]

end Value

end SessionStore.Msgpack
