import Mathlib.Algebra.BigOperators.Ring.List
import Mathlib.Data.List.Flatten
import Mathlib.Data.Nat.Cast.Basic
import SessionStore.Proofs.Payload.Understood

/-! What was understood is not written in many more bytes than it was read from. -/
namespace SessionStore

open Encoding
open Msgpack (Value)
open Schema

namespace Encoding

def AtMost (n : Nat) (part : Part) : Prop := ∀ bytes, part = .ok bytes → bytes.length ≤ n

variable {m n : Nat} {part : Part}

theorem AtMost.mono (h : AtMost m part) (hl : m ≤ n) : AtMost n part :=
  fun bytes hp => Nat.le_trans (h bytes hp) hl

theorem atMost_ok {bytes : Bytes} (h : bytes.length ≤ n) : AtMost n (.ok bytes) :=
  fun _ hp => Except.ok.inj hp ▸ h

theorem atMost_string (bytes : Bytes) : AtMost (5 + bytes.length) (string bytes) := by
  intro out h
  obtain ⟨size, -, h⟩ := Results.bind_eq_ok_iff.mp h
  cases Except.ok.inj h
  have hheader := Msgpack.length_sizeHeader_le (some (32, 0xA0)) (some 0xD9) 0xDA 0xDB size
  rw [List.length_append]
  exact Nat.add_le_add_right hheader _

theorem atMost_boolean (b : Bool) : AtMost 1 (boolean b) := atMost_ok (Nat.le_refl 1)

theorem atMost_unsigned (n : UInt64) : AtMost 9 (unsigned n) :=
  atMost_ok (Msgpack.length_encodeNat_le _)

theorem atMost_signed (n : Int64) : AtMost 9 (signed n) := atMost_ok (Value.length_encodeInt_le _)

theorem atMost_character (c : Char) : AtMost 9 (character c) :=
  atMost_ok (Msgpack.length_encodeNat_le _)

theorem atMost_field {name : String} (hn : (Bytes.ofAscii name).length ≤ 2) (h : AtMost n part) :
    AtMost (7 + n) (field name part) := by
  intro out ho
  obtain ⟨value, hv, ho⟩ := Results.bind_eq_ok_iff.mp ho
  cases Except.ok.inj ho
  have hvalue := h value hv
  have hheader := Msgpack.length_sizeHeader_le (some (32, 0xA0)) (some 0xD9) 0xDA 0xDB
    (Bytes.ofAscii name).length
  unfold Msgpack.encodeStr Msgpack.strHeader
  simp only [List.length_append]
  omega

theorem atMost_optional {isWritten : Bool} {name : String} (hn : (Bytes.ofAscii name).length ≤ 2)
    (h : AtMost m part) (hl : 7 + m ≤ n) : ∀ field ∈ optional isWritten name part,
      AtMost n field := by
  unfold optional
  split
  · exact List.forall_mem_singleton.mpr ((atMost_field hn h).mono hl)
  · exact fun field hm => by cases hm

theorem length_flatten_le {parts : List Part} {bounds : List Nat} {chunks : List Bytes}
    (h : parts.mapM id = (.ok chunks : Except EncodingError (List Bytes)))
    (hp : List.Forall₂ AtMost bounds parts) :
    chunks.flatten.length ≤ bounds.sum := by
  have hall := Results.mapM_eq_ok_iff.mp h
  clear h
  induction hp generalizing chunks with
  | nil =>
    cases hall
    exact Nat.le_refl 0
  | cons hpart _ ih =>
    cases hall with
    | cons hchunk hall =>
      have hlength := hpart _ hchunk
      have hothers := ih hall
      rw [List.flatten_cons, List.length_append, List.sum_cons]
      omega

/-- Few parts of a bounded size. -/
theorem length_flatten_parts_le {parts : List Part} {chunks : List Bytes}
    (h : parts.mapM id = (.ok chunks : Except EncodingError (List Bytes))) (hl : parts.length ≤ m)
    (hp : ∀ part ∈ parts, AtMost n part) : chunks.flatten.length ≤ m * n := by
  have hall : List.Forall₂ AtMost (parts.map fun _ => n) parts := by
    rw [List.forall₂_map_left_iff, List.forall₂_same]
    exact hp
  have hlength := length_flatten_le h hall
  have hsum : (parts.map fun _ => n).sum = parts.length * n := by
    rw [List.map_const', List.sum_replicate, nsmul_eq_mul, Nat.cast_id]
  rw [hsum] at hlength
  exact Nat.le_trans hlength (Nat.mul_le_mul_right n hl)

theorem atMost_map {fields : List Part} {extra : ExtraPairs} (hl : fields.length ≤ m)
    (hf : ∀ field ∈ fields, AtMost n field) :
    AtMost (5 + m * n + 9 * Value.spanPairs extra) (map fields extra) := by
  intro out h
  obtain ⟨size, -, h⟩ := Results.bind_eq_ok_iff.mp h
  obtain ⟨chunks, hc, h⟩ := Results.bind_eq_ok_iff.mp h
  cases Except.ok.inj h
  have hheader := Msgpack.length_sizeHeader_le (some (16, 0x80)) none 0xDE 0xDF size
  have hchunks := length_flatten_parts_le hc hl hf
  have hextra := Value.length_encodePairs_le extra
  unfold Msgpack.mapHeader
  simp only [List.length_append]
  omega

theorem atMost_array {items : List Part} {extra : ExtraItems} (hl : items.length ≤ m)
    (hi : ∀ item ∈ items, AtMost n item) :
    AtMost (5 + m * n + 9 * Value.spanItems extra) (array items extra) := by
  intro out h
  obtain ⟨size, -, h⟩ := Results.bind_eq_ok_iff.mp h
  obtain ⟨chunks, hc, h⟩ := Results.bind_eq_ok_iff.mp h
  cases Except.ok.inj h
  have hheader := Msgpack.length_sizeHeader_le (some (16, 0x90)) none 0xDC 0xDD size
  have hchunks := length_flatten_parts_le hc hl hi
  have hextra := Value.length_encodeItems_le extra
  unfold Msgpack.arrayHeader
  simp only [List.length_append]
  omega

theorem array_sublist {items items' : List Part} {extra extra' : ExtraItems} {payload : Bytes}
    (h : array items extra = .ok payload) (hi : items'.Sublist items) (he : extra'.Sublist extra) :
    ∃ shorter, array items' extra' = .ok shorter ∧ shorter.length ≤ payload.length := by
  obtain ⟨size, hsize, h⟩ := Results.bind_eq_ok_iff.mp h
  obtain ⟨chunks, hchunks, h⟩ := Results.bind_eq_ok_iff.mp h
  cases Except.ok.inj h
  have hn := lt_of_size hsize
  have hfewer : items'.length + extra'.length ≤ items.length + extra.length :=
    Nat.add_le_add hi.length_le he.length_le
  obtain ⟨chunks', hchunks', hsub⟩ := Results.mapM_sublist hi hchunks
  cases (size_ok hn).symm.trans hsize
  refine ⟨_,
    by rw [array, size_ok (Nat.lt_of_le_of_lt hfewer hn), Results.ok_bind, hchunks']; rfl, ?_⟩
  have hheader := Msgpack.length_arrayHeader_mono hfewer
  have hparts := hsub.flatten.length_le
  have hextra := (he.flatMap Value.encode).length_le
  rw [← Value.encodeItems_eq_flatMap, ← Value.encodeItems_eq_flatMap] at hextra
  simp only [List.length_append]
  omega

/-- A list takes as much as its elements, and the header. -/
theorem atMost_list {parts : List Part} {bounds : List Nat}
    (hp : List.Forall₂ AtMost bounds parts) : AtMost (5 + bounds.sum) (array parts []) := by
  intro out h
  obtain ⟨size, -, h⟩ := Results.bind_eq_ok_iff.mp h
  obtain ⟨chunks, hc, h⟩ := Results.bind_eq_ok_iff.mp h
  cases Except.ok.inj h
  have hheader := Msgpack.length_sizeHeader_le (some (16, 0x90)) none 0xDC 0xDD size
  have hchunks := length_flatten_le hc hp
  unfold Msgpack.arrayHeader
  simp only [List.length_append, Value.encodeItems, List.length_nil]
  omega

end Encoding

theorem Msgpack.Value.IsText.length_lt_span {v : Value} {bytes : Bytes} (h : v.IsText bytes) :
    bytes.length < v.span := by
  cases h <;> exact Nat.lt_succ_self _

namespace Schema

variable {field : String} {v : Value}

theorem length_lt_of_string {bytes : Bytes} (h : string field v = .ok bytes) :
    bytes.length < v.span :=
  (string_eq_ok_iff.mp h).length_lt_span

theorem spanPairs_of_pairs {found : List (Value × Value)} (h : pairs field v = .ok found) :
    Value.spanPairs found < v.span := by
  rw [pairs_eq_ok_iff.mp h]
  exact Nat.lt_succ_self _

theorem spanItems_of_items {found : List Value} (h : items field v = .ok found) :
    Value.spanItems found < v.span := by
  rw [items_eq_ok_iff.mp h]
  exact Nat.lt_succ_self _

theorem span_le_spanPairs {key value : Value} {pairs : List (Value × Value)}
    (h : (key, value) ∈ pairs) : value.span ≤ Value.spanPairs pairs := by
  induction pairs with
  | nil => cases h
  | cons pair rest ih =>
    rw [Value.spanPairs]
    rcases List.mem_cons.mp h with rfl | h
    · dsimp only
      omega
    · have hrest := ih h
      omega

theorem spanPairs_unknownPairs_le {κ : Type} (keys : List (String × κ))
    (pairs : List (Value × Value)) :
    Value.spanPairs (unknownPairs keys pairs) ≤ Value.spanPairs pairs := by
  unfold unknownPairs
  induction pairs with
  | nil => exact Nat.le_refl 0
  | cons pair rest ih =>
    rw [List.filter_cons]
    split
    · rw [Value.spanPairs, Value.spanPairs]
      omega
    · rw [Value.spanPairs]
      omega

/-- What a draft has taken from the pairs is no larger than these. -/
theorem size_of_foldPairs {κ σ β : Type} {keys : List (String × κ)}
    {put : σ → κ → Value → Reading σ} (get : σ → Option β) (size : β → Nat)
    (hput : ∀ {s s' k v}, put s k v = .ok s' → ∀ b ∈ get s', b ∈ get s ∨ size b ≤ v.span)
    {pairs : List (Value × Value)} {start final : σ} (hs : get start = none)
    (h : foldPairs keys put start pairs = .ok final) :
    ∀ b ∈ get final, size b ≤ Value.spanPairs pairs := by
  refine foldPairs_invariant (P := fun s => ∀ b ∈ get s, size b ≤ Value.spanPairs pairs) ?_
    (fun b hb => by rw [hs] at hb; cases hb) h
  intro s s' k v key hm _ hd hp b hb
  rcases hput hp b hb with hb | hb
  · exact hd b hb
  · exact Nat.le_trans hb (span_le_spanPairs hm)

end Schema

namespace Mark

theorem atMost_encode (named : Bool) (mark : Mark) :
    AtMost (69 + 4 * mark.file.bytes.length + 9 * Value.spanPairs mark.additional)
      (mark.encode named) := by
  by_cases hl : mark.lnum = 0
  · intro bytes h
    rw [encode, if_pos hl] at h
    cases h
  · rw [encode, if_neg hl]
    refine AtMost.mono (atMost_map (m := 4) (n := 16 + mark.file.bytes.length) ?_ ?_) (by omega)
    · have hl := Bool.toNat_le (decide (mark.lnum ≠ 1))
      have hc := Bool.toNat_le (decide (mark.col ≠ 0))
      have hn := Bool.toNat_le (named && decide (mark.name ≠ defaultName))
      simp only [List.length_append, List.length_cons, length_optional]
      omega
    · simp only [List.forall_mem_append, List.forall_mem_cons]
      refine ⟨⟨⟨?_, ?_⟩, ?_⟩, ?_⟩
      · exact (atMost_field (by decide) (atMost_string _)).mono (by omega)
      · exact atMost_optional (by decide) (atMost_unsigned _) (by omega)
      · exact atMost_optional (by decide) (atMost_unsigned _) (by omega)
      · exact atMost_optional (by decide) (atMost_character _) (by omega)

theorem Draft.file_of_put {draft draft' : Draft} {field : Field} {v : Value}
    (h : draft.put field v = .ok draft') :
    ∀ file ∈ draft'.file, file ∈ draft.file ∨ file.length ≤ v.span := by
  intro file hf
  cases field with
  | file =>
    obtain ⟨bytes, hb, h⟩ := Results.bind_eq_ok_iff.mp h
    cases Except.ok.inj h
    cases Option.some.inj hf
    exact .inr (Nat.le_of_lt (length_lt_of_string hb))
  | _ =>
    obtain ⟨_, -, h⟩ := Results.bind_eq_ok_iff.mp h
    cases Except.ok.inj h
    exact .inl hf

theorem atMost_of_ofPairs {named : Bool} {pairs : List (Value × Value)} {mark : Mark}
    (h : ofPairs named pairs = .ok mark) :
    AtMost (69 + 13 * Value.spanPairs pairs) (mark.encode named) := by
  obtain ⟨draft, hfold, h⟩ := Results.bind_eq_ok_iff.mp h
  cases hf : draft.file with
  | none =>
    rw [hf] at h
    cases h
  | some file =>
    rw [hf] at h
    cases Except.ok.inj h
    have hfile := size_of_foldPairs Draft.file List.length Draft.file_of_put rfl hfold file hf
    have hextra := spanPairs_unknownPairs_le (keys named) pairs
    apply (atMost_encode named _).mono
    dsimp only
    omega

theorem atMost_of_ofValue {named : Bool} {v : Value} {mark : Mark}
    (h : ofValue named v = .ok mark) : AtMost (200 * v.span) (mark.encode named) := by
  obtain ⟨pairs, hpairs, h⟩ := Results.bind_eq_ok_iff.mp h
  have hspan := spanPairs_of_pairs hpairs
  exact (atMost_of_ofPairs h).mono (by omega)

end Mark

theorem Buffer.atMost_of_ofValue {v : Value} {b : Buffer} (h : ofValue v = .ok b) :
    AtMost (100 * v.span) b.encode := by
  obtain ⟨pairs, hpairs, h⟩ := Results.bind_eq_ok_iff.mp h
  obtain ⟨mark, hm, h⟩ := Results.bind_eq_ok_iff.mp h
  cases Except.ok.inj h
  have hspan := spanPairs_of_pairs hpairs
  have hmark :
      ({ file := mark.file, lnum := mark.lnum, col := mark.col,
         additional := mark.additional } : Buffer).encode = mark.encode false := rfl
  rw [hmark]
  exact (Mark.atMost_of_ofPairs hm).mono (by omega)

namespace SearchPattern

theorem Draft.text_of_put {draft draft' : Draft} {field : Field} {v : Value}
    (h : draft.put field v = .ok draft') :
    ∀ text ∈ draft'.text, text ∈ draft.text ∨ text.length ≤ v.span := by
  intro text ht
  cases field with
  | pattern =>
    obtain ⟨bytes, hb, h⟩ := Results.bind_eq_ok_iff.mp h
    cases Except.ok.inj h
    cases Option.some.inj ht
    exact .inr (Nat.le_of_lt (length_lt_of_string hb))
  | _ =>
    obtain ⟨_, -, h⟩ := Results.bind_eq_ok_iff.mp h
    cases Except.ok.inj h
    exact .inl ht

theorem atMost_encode (p : SearchPattern) :
    AtMost (165 + 10 * p.pattern.length + 9 * Value.spanPairs p.additional) p.encode := by
  refine AtMost.mono (atMost_map (m := 10) (n := 16 + p.pattern.length) ?_ ?_) (by omega)
  · have hflags : p.writtenFlags.length ≤ 8 := List.length_filter_le ..
    have ho := Bool.toNat_le (decide (p.offset ≠ 0))
    simp only [List.length_append, List.length_cons, List.length_map, length_optional]
    omega
  · simp only [List.forall_mem_append, List.forall_mem_cons, List.forall_mem_map]
    refine ⟨⟨?_, fun flag _ => ?_⟩, ?_⟩
    · exact (atMost_field (by decide) (atMost_string _)).mono (by omega)
    · have hkey : (Bytes.ofAscii flag.key).length ≤ 2 := by cases flag <;> decide
      exact (atMost_field hkey (atMost_boolean _)).mono (by omega)
    · exact atMost_optional (by decide) (atMost_signed _) (by omega)

theorem atMost_of_ofValue {v : Value} {p : SearchPattern} (h : ofValue v = .ok p) :
    AtMost (200 * v.span) p.encode := by
  obtain ⟨pairs, hpairs, h⟩ := Results.bind_eq_ok_iff.mp h
  obtain ⟨draft, hfold, h⟩ := Results.bind_eq_ok_iff.mp h
  cases ht : draft.text with
  | none =>
    rw [ht] at h
    cases h
  | some text =>
    rw [ht] at h
    cases Except.ok.inj h
    have htext := size_of_foldPairs Draft.text List.length Draft.text_of_put rfl hfold text ht
    have hextra := spanPairs_unknownPairs_le keys pairs
    have hspan := spanPairs_of_pairs hpairs
    apply (atMost_encode _).mono
    dsimp only
    omega

end SearchPattern

namespace Register

theorem spanItems_of_mapM {values : List Value} {lines : List Bytes}
    (h : values.mapM (string "rc") = (.ok lines : Schema.Reading _)) :
    (lines.map fun line => line.length + 1).sum ≤ Value.spanItems values := by
  have hall := Results.mapM_eq_ok_iff.mp h
  clear h
  induction hall with
  | nil => exact Nat.le_refl 0
  | cons hline _ ih =>
    have hlength := length_lt_of_string hline
    rw [List.map_cons, List.sum_cons, Value.spanItems]
    omega

theorem Draft.contents_of_put {draft draft' : Draft} {field : Field} {v : Value}
    (h : draft.put field v = .ok draft') : ∀ contents ∈ draft'.contents, contents ∈ draft.contents ∨
      (contents.map fun line => line.length + 1).sum ≤ v.span := by
  intro contents hc
  cases field with
  | contents =>
    obtain ⟨values, hvalues, h⟩ := Results.bind_eq_ok_iff.mp h
    obtain ⟨lines, hl, h⟩ := Results.bind_eq_ok_iff.mp h
    cases Except.ok.inj h
    cases Option.some.inj hc
    have hspan := spanItems_of_items hvalues
    have hsum := spanItems_of_mapM hl
    exact .inr (by omega)
  | type =>
    obtain ⟨id, -, h⟩ := Results.bind_eq_ok_iff.mp h
    split at h
    · cases Except.ok.inj h
      exact .inl hc
    · cases h
  | _ =>
    obtain ⟨_, -, h⟩ := Results.bind_eq_ok_iff.mp h
    cases Except.ok.inj h
    exact .inl hc

theorem atMost_encode (r : Register) :
    AtMost (85 + 25 * (r.contents.map fun line => line.length + 1).sum + 9 *
      Value.spanPairs r.additional) r.encode := by
  have hlines : AtMost (5 + 5 * (r.contents.map fun line => line.length + 1).sum)
      (array (r.contents.map string) []) := by
    have hall : List.Forall₂ AtMost (r.contents.map fun line => 5 * (line.length + 1))
        (r.contents.map string) := by
      rw [List.forall₂_map_left_iff, List.forall₂_map_right_iff, List.forall₂_same]
      exact fun line _ => (atMost_string line).mono (by omega)
    have hlist := atMost_list hall
    rwa [List.sum_map_mul_left] at hlist
  refine AtMost.mono
    (atMost_map (m := 5) (n := 16 + 5 * (r.contents.map fun line => line.length + 1).sum) ?_ ?_)
      (by omega)
  · have ht := Bool.toNat_le (decide (r.type ≠ .charWise))
    have hw := Bool.toNat_le (decide (r.width ≠ 0))
    have hu := Bool.toNat_le r.isUnnamed
    simp only [List.length_append, List.length_cons, length_optional, List.length_nil]
    omega
  · simp only [List.forall_mem_append, List.forall_mem_cons]
    refine ⟨⟨⟨⟨?_, ?_⟩, ?_⟩, ?_⟩, ?_, fun field hm => by cases hm⟩
    · exact (atMost_field (by decide) hlines).mono (by omega)
    · exact atMost_optional (by decide) (atMost_unsigned _) (by omega)
    · exact atMost_optional (by decide) (atMost_unsigned _) (by omega)
    · exact atMost_optional (by decide) (atMost_boolean _) (by omega)
    · exact (atMost_field (by decide) (atMost_character _)).mono (by omega)

theorem atMost_of_ofValue {v : Value} {r : Register} (h : ofValue v = .ok r) :
    AtMost (200 * v.span) r.encode := by
  obtain ⟨pairs, hpairs, h⟩ := Results.bind_eq_ok_iff.mp h
  obtain ⟨draft, hfold, h⟩ := Results.bind_eq_ok_iff.mp h
  have hsize := size_of_foldPairs Draft.contents _ Draft.contents_of_put rfl hfold
  have hextra := spanPairs_unknownPairs_le keys pairs
  have hspan := spanPairs_of_pairs hpairs
  split at h
  · cases h
  · cases h
  · next contents hne hc =>
    cases Except.ok.inj h
    have hcontents := hsize contents hc
    apply (atMost_encode _).mono
    dsimp only
    omega

end Register

theorem Header.atMost_of_ofValue {v : Value} {header : Header} (h : ofValue v = .ok header) :
    AtMost (200 * v.span) header.encode := by
  obtain ⟨fields, hfields, h⟩ := Results.bind_eq_ok_iff.mp h
  cases Except.ok.inj h
  have hspan := spanPairs_of_pairs hfields
  have hnone : ([] : List Part).length ≤ 0 := Nat.le_refl 0
  apply (atMost_map (n := 0) hnone fun field hm => by cases hm).mono
  dsimp only
  omega

theorem Replacement.atMost_of_ofValue {v : Value} {r : Replacement} (h : ofValue v = .ok r) :
    AtMost (200 * v.span) r.encode := by
  obtain ⟨first, rfl, ht⟩ := ofValue_eq_ok_iff.mp h
  have htext := ht.length_lt_span
  have hone : [string r.text].length ≤ 1 := Nat.le_refl 1
  apply (atMost_array hone (List.forall_mem_singleton.mpr (atMost_string r.text))).mono
  rw [Value.span, Value.spanItems]
  omega

theorem Variable.atMost_of_ofValue {v : Value} {found : Variable} (h : ofValue v = .ok found) :
    AtMost (200 * v.span) found.encode := by
  obtain ⟨first, rfl, hname⟩ := ofValue_eq_ok_iff.mp h
  have hlength := hname.length_lt_span
  have hvalue := found.value.length_encode_le
  have hparts : ∀ part ∈ [string found.name, .ok found.value.encode],
      AtMost (5 + found.name.length + 9 * found.value.span) part :=
    List.forall_mem_cons.mpr ⟨(atMost_string found.name).mono (by omega),
      List.forall_mem_singleton.mpr (atMost_ok (by omega))⟩
  have htwo : [string found.name, .ok found.value.encode].length ≤ 2 := Nat.le_refl 2
  apply (atMost_array htwo hparts).mono
  rw [Value.span, Value.spanItems, Value.spanItems]
  omega

theorem HistoryItem.Follows.spanItems_le {type : HistoryType} {rest : List Value}
    {separator : Option Char} {additional : ExtraItems}
    (h : Follows type rest separator additional) :
    Value.spanItems additional ≤ Value.spanItems rest := by
  cases h with
  | separator =>
    rw [Value.spanItems]
    omega
  | bare | other => exact Nat.le_refl _

theorem HistoryItem.atMost_encode (item : HistoryItem) :
    AtMost (47 + 3 * item.text.length + 9 * Value.spanItems item.additional) item.encode := by
  refine AtMost.mono (atMost_array (m := 3) (n := 14 + item.text.length) ?_ ?_) (by omega)
  · have hseparator : item.writtenSeparator.toList.length ≤ 1 := by
      cases item.writtenSeparator <;> simp
    simp only [List.length_append, List.length_cons, List.length_nil, List.length_map]
    omega
  · simp only [List.forall_mem_append, List.forall_mem_cons, List.forall_mem_map]
    refine ⟨⟨?_, ?_, fun part hm => by cases hm⟩, fun c _ => ?_⟩
    · exact (atMost_unsigned _).mono (by omega)
    · exact (atMost_string _).mono (by omega)
    · exact (atMost_character _).mono (by omega)

theorem HistoryItem.atMost_of_ofValue {v : Value} {item : HistoryItem} (h : ofValue v = .ok item) :
    AtMost (200 * v.span) item.encode := by
  obtain ⟨-, ht, hr⟩ := ofValue_eq_ok_iff.mp h
  have htext := ht.length_lt_span
  have hadditional := hr.spanItems_le
  apply (atMost_encode _).mono
  rw [Value.span, Value.spanItems, Value.spanItems]
  dsimp only
  omega

/-- What a value is understood as takes few bytes for each that the value took. -/
theorem Content.atMost_of_ofValue {kind : Kind} {v : Value} {content : Content}
    (h : ofValue kind v = .ok content) : AtMost (200 * v.span) content.encode := by
  cases kind with
  | header =>
    obtain ⟨header, hh, rfl⟩ := Results.map_eq_ok_iff.mp h
    exact Header.atMost_of_ofValue hh
  | searchPattern =>
    obtain ⟨p, hp, rfl⟩ := Results.map_eq_ok_iff.mp h
    exact SearchPattern.atMost_of_ofValue hp
  | replacement =>
    obtain ⟨r, hr, rfl⟩ := Results.map_eq_ok_iff.mp h
    exact Replacement.atMost_of_ofValue hr
  | history =>
    obtain ⟨item, hi, rfl⟩ := Results.map_eq_ok_iff.mp h
    exact HistoryItem.atMost_of_ofValue hi
  | register =>
    obtain ⟨r, hr, rfl⟩ := Results.map_eq_ok_iff.mp h
    exact Register.atMost_of_ofValue hr
  | «variable» =>
    obtain ⟨found, hf, rfl⟩ := Results.map_eq_ok_iff.mp h
    exact Variable.atMost_of_ofValue hf
  | globalMark | jump | localMark | change =>
    obtain ⟨mark, hm, rfl⟩ := Results.map_eq_ok_iff.mp h
    exact Mark.atMost_of_ofValue hm
  | bufferList =>
    obtain ⟨found, hfound, h⟩ := Results.bind_eq_ok_iff.mp h
    obtain ⟨buffers, hbuffers, h⟩ := Results.bind_eq_ok_iff.mp h
    cases Except.ok.inj h
    have hspan := spanItems_of_items hfound
    have hall : List.Forall₂ AtMost (found.map fun value => 100 * value.span)
        (buffers.map Buffer.encode) := by
      rw [List.forall₂_map_left_iff, List.forall₂_map_right_iff]
      exact (Results.mapM_eq_ok_iff.mp hbuffers).imp fun _ _ hb => Buffer.atMost_of_ofValue hb
    have hlist := atMost_list hall
    rw [List.sum_map_mul_left, ← Value.spanItems_eq_sum] at hlist
    exact hlist.mono (by omega)
  | unknown => cases h

end SessionStore
