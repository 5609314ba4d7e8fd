import Mathlib.Algebra.GroupWithZero.Nat
import Mathlib.Data.List.Induction
import SessionStore.Proofs.Msgpack.Stored

/-! Whatever is read lies within the limits of the format and has fewer parts
than it takes bytes. -/
namespace SessionStore.Msgpack

def Size.IsShort : Size → Prop
  | .fixed n => n < 2 ^ 32
  | .counted width => width ≤ 4

/-- Whether everything that a marker announces has a size of at most 32 bits. -/
def Marker.IsShort : Marker → Prop
  | .value v => v.isContainer = false ∧ v.Fits 1
  | .str size | .bin size | .array size | .map size | .ext size => size.IsShort
  | _ => True

private theorem Marker.isShort_ite {c : Prop} [Decidable c] {a b : Marker} (ha : a.IsShort)
    (hb : b.IsShort) : (if c then a else b).IsShort := by
  split
  · exact ha
  · exact hb

theorem Marker.isShort_ofByte (b : UInt8) : (ofByte b).IsShort := by
  have hsub (k : Nat) : b.toNat - k < 4294967296 := by
    have := b.toNat_lt
    omega
  unfold ofByte
  repeat' apply isShort_ite
  all_goals simp [IsShort, Size.IsShort, Value.isContainer, Value.Fits.int, Value.Fits.bool,
    Value.Fits.nil, hsub]

theorem toNat_lt (digits : Bytes) : digits.toNat < 256 ^ digits.length := by
  induction digits using List.reverseRecOn with
  | nil => decide
  | append_singleton digits digit ih =>
    have hd := digit.toNat_lt
    rw [Bytes.toNat_append_singleton, List.length_append, List.length_singleton, Nat.pow_succ]
    omega

theorem readNat_ok {width n : Nat} {input rest : Bytes} (h : readNat width input = .ok (n, rest)) :
    n < 256 ^ width ∧ width + rest.length = input.length := by
  unfold readNat at h
  split at h
  · next digits tail hs =>
    obtain ⟨rfl, rfl⟩ := Bytes.splitAt?_eq_some_iff.mp hs
    obtain ⟨rfl, rfl⟩ := Prod.mk.inj (Except.ok.inj h)
    exact ⟨toNat_lt _, (List.length_append ..).symm⟩
  · cases h

theorem readBody_ok {n : Nat} {input body rest : Bytes} (h : readBody n input = .ok (body, rest)) :
    body.length = n ∧ n + rest.length = input.length := by
  unfold readBody at h
  split at h
  · next parts hs =>
    cases Except.ok.inj h
    obtain ⟨rfl, rfl⟩ := Bytes.splitAt?_eq_some_iff.mp hs
    exact ⟨rfl, (List.length_append ..).symm⟩
  · cases h

theorem Size.read_ok {size : Size} (hs : size.IsShort) {n : Nat} {input rest : Bytes}
    (h : size.read input = .ok (n, rest)) : n < 2 ^ 32 ∧ rest.length ≤ input.length := by
  cases size with
  | fixed m =>
    obtain ⟨rfl, rfl⟩ := Prod.mk.inj (Except.ok.inj h)
    exact ⟨hs, Nat.le_refl _⟩
  | counted width =>
    obtain ⟨hn, hl⟩ := readNat_ok h
    have hw : 256 ^ width ≤ 256 ^ 4 := Nat.pow_le_pow_right (by decide) hs
    exact ⟨by omega, by omega⟩

/-- What readings take one after the other adds up. -/
theorem readMany_ok {α : Type} {read : Bytes → Except ReadError (α × Bytes)} {P : α → Prop}
    {span : α → Nat}
    (hread : ∀ {input a rest}, read input = .ok (a, rest) → P a ∧
      span a + rest.length ≤ input.length)
    {n : Nat} {done as : List α} {input rest : Bytes}
    (h : readMany read n done input = .ok (as, rest)) :
    ∃ new, as = done.reverse ++ new ∧ new.length = n ∧ (∀ a ∈ new, P a) ∧
      (new.map span).sum + rest.length ≤ input.length := by
  induction n generalizing done input with
  | zero =>
    obtain ⟨rfl, rfl⟩ := Prod.mk.inj (Except.ok.inj h)
    exact ⟨[], by simp, rfl, by simp, by simp⟩
  | succ n ih =>
    rw [readMany] at h
    split at h
    · next a tail hr =>
      obtain ⟨ha, hl⟩ := hread hr
      obtain ⟨new, rfl, hn, hnew, hlen⟩ := ih h
      have hsum : ((a :: new).map span).sum = span a + (new.map span).sum := by simp
      exact ⟨a :: new, by simp, by simp [hn], List.forall_mem_cons.mpr ⟨ha, hnew⟩, by omega⟩
    · cases h

theorem readPair_ok {α : Type} {read : Bytes → Except ReadError (α × Bytes)} {P : α → Prop}
    {span : α → Nat}
    (hread : ∀ {input a rest}, read input = .ok (a, rest) → P a ∧
      span a + rest.length ≤ input.length)
    {input rest : Bytes} {pair : α × α} (h : readPair read input = .ok (pair, rest)) :
    (P pair.1 ∧ P pair.2) ∧ span pair.1 + span pair.2 + rest.length ≤ input.length := by
  obtain ⟨⟨key, tail⟩, hk, h⟩ := Results.bind_eq_ok_iff.mp h
  obtain ⟨⟨value, tail'⟩, hv, h⟩ := Results.bind_eq_ok_iff.mp h
  obtain ⟨rfl, rfl⟩ := Prod.mk.inj (Except.ok.inj h)
  obtain ⟨hpk, hlk⟩ := hread hk
  obtain ⟨hpv, hlv⟩ := hread hv
  exact ⟨⟨hpk, hpv⟩, by dsimp only; omega⟩

namespace Value

def width : Value → Nat
  | .array items => items.length
  | .map pairs => pairs.length
  | _ => 0

mutual

/-- The fewest bytes that a value can have been read from: one for each part,
and those of strings. -/
def span : Value → Nat
  | .str bytes | .bin bytes | .ext _ bytes => bytes.length + 1
  | .array items => spanItems items + 1
  | .map pairs => spanPairs pairs + 1
  | .nil | .bool _ | .int _ | .float32 _ | .float64 _ => 1

def spanItems : List Value → Nat
  | [] => 0
  | item :: rest => item.span + spanItems rest

def spanPairs : List (Value × Value) → Nat
  | [] => 0
  | (key, value) :: rest => key.span + value.span + spanPairs rest

end

def spanPair (pair : Value × Value) : Nat := pair.1.span + pair.2.span

theorem spanItems_eq_sum (items : List Value) : spanItems items = (items.map span).sum := by
  induction items with
  | nil => rfl
  | cons item rest ih => rw [spanItems, ih, List.map_cons, List.sum_cons]

theorem spanPairs_eq_sum (pairs : List (Value × Value)) :
    spanPairs pairs = (pairs.map spanPair).sum := by
  induction pairs with
  | nil => rfl
  | cons pair rest ih => rw [spanPairs, ih, List.map_cons, List.sum_cons, spanPair]

theorem span_pos (v : Value) : 0 < v.span := by
  cases v <;> exact Nat.succ_pos _

theorem length_le_spanItems (items : List Value) : items.length ≤ spanItems items := by
  induction items with
  | nil => exact Nat.le_refl 0
  | cons item rest ih =>
    have hitem := item.span_pos
    rw [spanItems, List.length_cons]
    omega

theorem length_le_spanPairs (pairs : List (Value × Value)) : pairs.length ≤ spanPairs pairs := by
  induction pairs with
  | nil => exact Nat.le_refl 0
  | cons pair rest ih =>
    have hkey := pair.1.span_pos
    rw [spanPairs, List.length_cons]
    omega

/-- Each part of a value takes at least one byte, and so does the value itself. -/
theorem width_lt_span (v : Value) : v.width < v.span := by
  cases v with
  | array items => exact Nat.lt_succ_of_le (length_le_spanItems items)
  | map pairs => exact Nat.lt_succ_of_le (length_le_spanPairs pairs)
  | _ => exact Nat.succ_pos _

theorem span_scalar {v : Value} (h : v.Fits 1) : v.span = 1 := by
  cases h <;> rfl

theorem Fits.mono_one {depth : Nat} {v : Value} (h : v.Fits 1) : v.Fits (depth + 1) := by
  cases h with
  | nil => exact .nil
  | bool b => exact .bool b
  | int n => exact .int n
  | float32 bits => exact .float32 bits
  | float64 bits => exact .float64 bits

private theorem guard_ok {ε α : Type} {c : Prop} [Decidable c] {e : ε} {x : Except ε α} {a : α}
    (h : (if c then (throw e >>= fun _ : PUnit => x) else x) = .ok a) : ¬c ∧ x = .ok a := by
  split at h
  · cases h
  · next hc => exact ⟨hc, h⟩

private theorem number_ok {width depth : Nat} {f : Nat → Value} {marker : UInt8}
    {input rest : Bytes} {v : Value} (hfits : ∀ n, (f n).Fits depth) (hspan : ∀ n, (f n).span = 1)
    (h : (readNat width input >>= fun read => pure (f read.1, read.2)) = .ok (v, rest)) :
    v.Fits depth ∧ v.span + rest.length ≤ (marker :: input).length := by
  obtain ⟨⟨n, tail⟩, hn, h⟩ := Results.bind_eq_ok_iff.mp h
  obtain ⟨rfl, rfl⟩ := Prod.mk.inj (Except.ok.inj h)
  have hl := (readNat_ok hn).2
  refine ⟨hfits n, ?_⟩
  simp only [hspan, List.length_cons]
  omega

private theorem sized_ok {size : Size} (hs : size.IsShort) {α : Type}
    {next : Nat × Bytes → Except ReadError α} {input : Bytes} {a : α}
    (h : (size.read input >>= next) = .ok a) :
    ∃ n tail, n < 2 ^ 32 ∧ tail.length ≤ input.length ∧ next (n, tail) = .ok a := by
  obtain ⟨⟨n, tail⟩, hn, h⟩ := Results.bind_eq_ok_iff.mp h
  obtain ⟨hsize, hl⟩ := Size.read_ok hs hn
  exact ⟨n, tail, hsize, hl, h⟩

private theorem body_ok {f : Bytes → Value} {n : Nat} {input rest : Bytes} {v : Value}
    (h : (readBody n input >>= fun read => pure (f read.1, read.2)) = .ok (v, rest)) :
    ∃ bytes, v = f bytes ∧ bytes.length = n ∧ n + rest.length = input.length := by
  obtain ⟨⟨bytes, tail⟩, hb, h⟩ := Results.bind_eq_ok_iff.mp h
  obtain ⟨rfl, rfl⟩ := Prod.mk.inj (Except.ok.inj h)
  obtain ⟨rfl, hl⟩ := readBody_ok hb
  exact ⟨bytes, rfl, rfl, hl⟩

/-- A value that is read lies within the limits and takes as many bytes as it spans, or more. -/
theorem read_ok {depth : Nat} {input rest : Bytes} {v : Value}
    (h : read depth input = .ok (v, rest)) :
    v.Fits depth ∧ v.span + rest.length ≤ input.length := by
  induction depth using Nat.strongRecOn generalizing input v rest with
  | ind depth ih =>
    cases depth with
    | zero => cases h
    | succ depth =>
    cases input with
    | nil => cases h
    | cons marker input =>
      have hm := Marker.isShort_ofByte marker
      rw [read] at h
      cases hk : Marker.ofByte marker with
      | value w =>
        rw [hk] at h hm
        obtain ⟨rfl, rfl⟩ := Prod.mk.inj (Except.ok.inj h)
        rw [span_scalar hm.2, List.length_cons]
        exact ⟨hm.2.mono_one, by omega⟩
      | unsigned width =>
        rw [hk] at h
        exact number_ok (f := fun n => .int (.ofUInt64 (UInt64.ofNat n))) (fun _ => .int _)
          (fun _ => rfl) h
      | signed width =>
        rw [hk] at h
        exact number_ok (f := fun n => .int (.ofInt64 (signedOf width n))) (fun _ => .int _)
          (fun _ => rfl) h
      | float32 =>
        rw [hk] at h
        exact number_ok (f := fun n => .float32 (UInt32.ofNat n)) (fun _ => .float32 _)
          (fun _ => rfl) h
      | float64 =>
        rw [hk] at h
        exact number_ok (f := fun n => .float64 (UInt64.ofNat n)) (fun _ => .float64 _)
          (fun _ => rfl) h
      | str size =>
        rw [hk] at h hm
        obtain ⟨n, tail, hsize, hl, h⟩ := sized_ok hm h
        obtain ⟨hd, h⟩ := guard_ok h
        obtain ⟨bytes, rfl, rfl, hl'⟩ := body_ok (f := .str) h
        obtain ⟨depth, rfl⟩ := Nat.exists_eq_add_of_le' (Nat.le_of_not_lt hd)
        exact ⟨.text hsize, by simp only [span, List.length_cons]; omega⟩
      | bin size =>
        rw [hk] at h hm
        obtain ⟨n, tail, hsize, hl, h⟩ := sized_ok hm h
        obtain ⟨hd, h⟩ := guard_ok h
        obtain ⟨bytes, rfl, rfl, hl'⟩ := body_ok (f := .bin) h
        obtain ⟨depth, rfl⟩ := Nat.exists_eq_add_of_le' (Nat.le_of_not_lt hd)
        exact ⟨.bin hsize, by simp only [span, List.length_cons]; omega⟩
      | array size =>
        rw [hk] at h hm
        obtain ⟨n, tail, hsize, hl, h⟩ := sized_ok hm h
        cases depth with
        | zero => cases h
        | succ depth =>
          obtain ⟨⟨items, tail'⟩, hi, h⟩ := Results.bind_eq_ok_iff.mp h
          obtain ⟨rfl, rfl⟩ := Prod.mk.inj (Except.ok.inj h)
          obtain ⟨new, rfl, rfl, hnew, hl'⟩ := readMany_ok (ih depth (by omega)) hi
          rw [← spanItems_eq_sum] at hl'
          exact ⟨.array hsize hnew, by simp only [span, List.length_cons]; omega⟩
      | map size =>
        rw [hk] at h hm
        obtain ⟨n, tail, hsize, hl, h⟩ := sized_ok hm h
        cases depth with
        | zero => cases h
        | succ depth =>
          obtain ⟨⟨pairs, tail'⟩, hp, h⟩ := Results.bind_eq_ok_iff.mp h
          obtain ⟨rfl, rfl⟩ := Prod.mk.inj (Except.ok.inj h)
          obtain ⟨new, rfl, rfl, hnew, hl'⟩ := readMany_ok (readPair_ok (ih depth (by omega))) hp
          have hsum := spanPairs_eq_sum pairs
          unfold spanPair at hsum
          rw [← hsum] at hl'
          refine ⟨.map hsize (fun pair hp => (hnew pair hp).1) (fun pair hp => (hnew pair hp).2),
            ?_⟩
          simp only [span, List.length_cons]
          omega
      | ext size =>
        rw [hk] at h hm
        obtain ⟨n, tail, hsize, hl, h⟩ := sized_ok hm h
        obtain ⟨-, h⟩ := guard_ok h
        obtain ⟨⟨type, tail'⟩, ht, h⟩ := Results.bind_eq_ok_iff.mp h
        obtain ⟨hd, h⟩ := guard_ok h
        obtain ⟨bytes, rfl, rfl, hl'⟩ := body_ok (f := .ext (UInt8.ofNat type).toInt8) h
        have hlt := (readNat_ok ht).2
        obtain ⟨depth, rfl⟩ := Nat.exists_eq_add_of_le' (Nat.le_of_not_lt hd)
        exact ⟨.ext hsize, by simp only [span, List.length_cons]; omega⟩

theorem length_encodeInt_le (n : Int) : (encodeInt n).length ≤ 9 := by
  have hcomplement (width : Nat) : (complement width n).length = width := Bytes.length_bigEndian ..
  unfold encodeInt
  split
  · exact length_encodeNat_le _
  · repeat' split
    all_goals simp [hcomplement]

theorem length_flatMap_le {α : Type} {f : α → Bytes} {span : α → Nat} {c : Nat} {things : List α}
    (h : ∀ a ∈ things, (f a).length ≤ c * span a) :
    (things.flatMap f).length ≤ c * (things.map span).sum := by
  induction things with
  | nil => exact Nat.zero_le _
  | cons a rest ih =>
    obtain ⟨ha, hrest⟩ := List.forall_mem_cons.mp h
    have hothers := ih hrest
    rw [List.flatMap_cons, List.length_append, List.map_cons, List.sum_cons, Nat.mul_add]
    omega

/-- Written in its smallest form, a value takes a few bytes for each that it spans. -/
theorem length_encode_le (v : Value) : v.encode.length ≤ 9 * v.span := by
  have hheader := length_sizeHeader_le
  induction v using induction with
  | scalar v hv =>
    cases v with
    | nil | bool b => simp [encode, encodeBool, span]
    | int n =>
      have hint := length_encodeInt_le n.toInt
      simpa only [encode, span] using hint
    | float32 bits | float64 bits => simp [encode, span]
    | str bytes =>
      have hstr := hheader (some (32, 0xA0)) (some 0xD9) 0xDA 0xDB (word bytes.length)
      have hbin := hheader none (some 0xC4) 0xC5 0xC6 (word bytes.length)
      rw [encode, span, List.length_append]
      split
      · unfold strHeader
        omega
      · unfold binHeader
        omega
    | bin bytes =>
      have hbin := hheader none (some 0xC4) 0xC5 0xC6 (word bytes.length)
      rw [encode, span, List.length_append]
      unfold binHeader
      omega
    | ext type bytes =>
      have hext : (extHeader (word bytes.length)).length ≤ 5 := by
        unfold extHeader
        repeat' split
        all_goals simp [hheader]
      rw [encode, span, List.length_append, List.length_cons]
      omega
    | array | map => cases hv
  | array items ih =>
    have harray := hheader (some (16, 0x90)) none 0xDC 0xDD (word items.length)
    have hitems := length_flatMap_le ih
    rw [encode, span, List.length_append, encodeItems_eq_flatMap, spanItems_eq_sum]
    unfold arrayHeader
    omega
  | map pairs ih =>
    have hmap := hheader (some (16, 0x80)) none 0xDE 0xDF (word pairs.length)
    have hpair : ∀ pair ∈ pairs, (encodePair pair).length ≤ 9 * spanPair pair := by
      intro pair hp
      obtain ⟨hkey, hvalue⟩ := ih pair hp
      rw [encodePair, List.length_append, spanPair]
      omega
    have hpairs := length_flatMap_le hpair
    rw [encode, span, List.length_append, encodePairs_eq_flatMap, spanPairs_eq_sum]
    unfold mapHeader
    omega

theorem length_encodeItems_le (items : List Value) :
    (encodeItems items).length ≤ 9 * spanItems items := by
  rw [encodeItems_eq_flatMap, spanItems_eq_sum]
  exact length_flatMap_le fun item _ => item.length_encode_le

theorem length_encodePairs_le (pairs : List (Value × Value)) :
    (encodePairs pairs).length ≤ 9 * spanPairs pairs := by
  rw [encodePairs_eq_flatMap, spanPairs_eq_sum]
  apply length_flatMap_le
  intro pair _
  have hkey := pair.1.length_encode_le
  have hvalue := pair.2.length_encode_le
  rw [encodePair, List.length_append, spanPair]
  omega

end Value

end SessionStore.Msgpack
