import SessionStore.Proofs.Payload.Conforming
import SessionStore.Proofs.Payload.RoundTrip

/-! What has a payload can be read again, but for registers without a line and for
searches whose separator is missing. What has none stands on line 0 or is too long. -/
namespace SessionStore

open Encoding
open Msgpack (Value)
open Schema

/-- Pairs that can be read within a depth, none of them under a known key. -/
def ExtraPairs.Admissible {κ : Type} (keys : List (String × κ)) (depth : Nat) (extra : ExtraPairs) :
    Prop :=
  ∀ pair ∈ extra, keyIn keys pair.1 = none ∧ pair.1.Fits depth ∧ pair.2.Fits depth

theorem ExtraPairs.Admissible.fit {κ : Type} {keys : List (String × κ)} {depth fields : Nat}
    {extra : ExtraPairs} (h : extra.Admissible keys depth) (hn : fields + extra.length < 2 ^ 32) :
    extra.Fit keys depth fields where
  size := hn
  unknown pair hp := (h pair hp).1
  keys pair hp := (h pair hp).2.1
  values pair hp := (h pair hp).2.2

def ExtraItems.Admissible (depth : Nat) (extra : ExtraItems) : Prop :=
  ∀ item ∈ extra, item.Fits depth

namespace Content

/-- What an entry only carries along can be read, and nothing of it is taken for a field. -/
def Admissible : Content → Prop
  | .header h => ExtraPairs.Admissible ([] : List (String × Empty)) partDepth h.fields
  | .searchPattern p => p.additional.Admissible SearchPattern.keys partDepth
  | .replacement r => r.additional.Admissible partDepth
  | .history item => item.additional.Admissible partDepth
  | .register r => r.additional.Admissible Register.keys partDepth
  | .variable v => v.value.Fits partDepth ∧ v.additional.Admissible partDepth
  | .globalMark mark | .localMark mark => mark.additional.Admissible (Mark.keys true) partDepth
  | .jump mark | .change mark => mark.additional.Admissible (Mark.keys false) partDepth
  | .bufferList buffers => ∀ b ∈ buffers, b.additional.Admissible (Mark.keys false) (partDepth - 2)
  | .unknown .. => True

/-- What is written although it cannot be read: a register without a line, and a
search that has no separator in front of something that is no character. -/
def Unreadable : Content → Prop
  | .register r => r.contents = []
  | .history item =>
    item.type = .search ∧ item.separator = none ∧
      ∃ first ∈ item.additional.head?, ∀ c, ¬first.IsCharacter c
  | _ => False

def places : Content → List (Path × UInt64)
  | .globalMark mark | .localMark mark | .jump mark | .change mark => [(mark.file, mark.lnum)]
  | .bufferList buffers => buffers.map fun b => (b.file, b.lnum)
  | _ => []

/-- Why an entry is not written: it names line 0 of a file, or something in it is too long. -/
def Refusal (content : Content) : EncodingError → Prop
  | .lineZero file => (file, 0) ∈ content.places
  | .tooLong n => 2 ^ 32 ≤ n

end Content

namespace Encoding

section Written

variable {payload : Bytes}

theorem length_lt_of_string_eq_ok {bytes : Bytes} (h : string bytes = .ok payload) :
    bytes.length < 2 ^ 32 := by
  obtain ⟨n, hn, -⟩ := Results.bind_eq_ok_iff.mp h
  exact lt_of_size hn

theorem ok_of_field_eq_ok {name : String} {part : Part} (h : field name part = .ok payload) :
    ∃ bytes, part = .ok bytes := by
  obtain ⟨bytes, hb, -⟩ := Results.bind_eq_ok_iff.mp h
  exact ⟨bytes, hb⟩

/-- A map that is written has room for its pairs, and all its fields are written. -/
theorem of_map_eq_ok {fields : List Part} {extra : ExtraPairs}
    (h : map fields extra = .ok payload) :
    fields.length + extra.length < 2 ^ 32 ∧ ∀ field ∈ fields, ∃ bytes, field = .ok bytes := by
  obtain ⟨n, hn, h⟩ := Results.bind_eq_ok_iff.mp h
  obtain ⟨chunks, hc, -⟩ := Results.bind_eq_ok_iff.mp h
  exact ⟨lt_of_size hn, Results.exists_mapM_iff.mp ⟨chunks, hc⟩⟩

/-- An array that is written has room for its elements, and all its elements are written. -/
theorem of_array_eq_ok {items : List Part} {extra : ExtraItems}
    (h : array items extra = .ok payload) :
    items.length + extra.length < 2 ^ 32 ∧ ∀ item ∈ items, ∃ bytes, item = .ok bytes := by
  obtain ⟨n, hn, h⟩ := Results.bind_eq_ok_iff.mp h
  obtain ⟨chunks, hc, -⟩ := Results.bind_eq_ok_iff.mp h
  exact ⟨lt_of_size hn, Results.exists_mapM_iff.mp ⟨chunks, hc⟩⟩

end Written

section Refused

/-- A part that is refused for certain reasons only. -/
def RefusedFor (P : EncodingError → Prop) (part : Part) : Prop := ∀ e, part = .error e → P e

variable {P : EncodingError → Prop} (hP : ∀ n, 2 ^ 32 ≤ n → P (.tooLong n)) {part : Part}

theorem refusedFor_ok (bytes : Bytes) : RefusedFor P (.ok bytes) := fun _ h => nomatch h

include hP in
theorem reason_of_size {n : Nat} {e : EncodingError} (h : size n = .error e) : P e := by
  unfold size at h
  split at h
  · cases h
  · next hn =>
    cases h
    exact hP n (by omega)

include hP in
theorem refusedFor_string (bytes : Bytes) : RefusedFor P (string bytes) := by
  intro e h
  rcases Results.bind_eq_error_iff.mp h with h | ⟨n, -, h⟩
  · exact reason_of_size hP h
  · cases h

theorem refusedFor_field (name : String) (h : RefusedFor P part) :
    RefusedFor P (field name part) := by
  intro e he
  rcases Results.bind_eq_error_iff.mp he with he | ⟨bytes, -, he⟩
  · exact h e he
  · cases he

theorem refusedFor_optional (isWritten : Bool) (name : String) (h : RefusedFor P part) :
    ∀ field ∈ optional isWritten name part, RefusedFor P field := by
  unfold optional
  split
  · exact List.forall_mem_singleton.mpr (refusedFor_field name h)
  · simp

include hP in
theorem refusedFor_map {fields : List Part} {extra : ExtraPairs}
    (h : ∀ field ∈ fields, RefusedFor P field) : RefusedFor P (map fields extra) := by
  intro e he
  rcases Results.bind_eq_error_iff.mp he with he | ⟨n, -, he⟩
  · exact reason_of_size hP he
  · rcases Results.bind_eq_error_iff.mp he with he | ⟨chunks, -, he⟩
    · obtain ⟨field, hm, he⟩ := Results.exists_error_of_mapM he
      exact h field hm e he
    · cases he

include hP in
theorem refusedFor_array {items : List Part} {extra : ExtraItems}
    (h : ∀ item ∈ items, RefusedFor P item) : RefusedFor P (array items extra) := by
  intro e he
  rcases Results.bind_eq_error_iff.mp he with he | ⟨n, -, he⟩
  · exact reason_of_size hP he
  · rcases Results.bind_eq_error_iff.mp he with he | ⟨chunks, -, he⟩
    · obtain ⟨item, hm, he⟩ := Results.exists_error_of_mapM he
      exact h item hm e he
    · cases he

end Refused

end Encoding

theorem Header.storable_of_encode {header : Header} {payload : Bytes}
    (h : header.encode = .ok payload)
    (ha : ExtraPairs.Admissible ([] : List (String × Empty)) partDepth header.fields) :
    header.Storable :=
  ha.fit (of_map_eq_ok h).1

theorem SearchPattern.storable_of_encode {p : SearchPattern} {payload : Bytes}
    (h : p.encode = .ok payload) (ha : p.additional.Admissible keys partDepth) : p.Storable := by
  obtain ⟨hn, hall⟩ := of_map_eq_ok h
  obtain ⟨_, htext⟩ := hall (field "sp" (string p.pattern)) (by simp)
  obtain ⟨_, htext⟩ := ok_of_field_eq_ok htext
  have hlength : p.fields.length + p.additional.length < 2 ^ 32 := by
    simpa [fields, length_optional, length_optionalPair] using hn
  exact ⟨length_lt_of_string_eq_ok htext, ha.fit hlength⟩

theorem Replacement.storable_of_encode {r : Replacement} {payload : Bytes}
    (h : r.encode = .ok payload) (ha : r.additional.Admissible partDepth) : r.Storable := by
  obtain ⟨hn, hall⟩ := of_array_eq_ok h
  obtain ⟨_, htext⟩ := hall _ List.mem_cons_self
  exact ⟨length_lt_of_string_eq_ok htext, hn, ha⟩

theorem Variable.storable_of_encode {v : Variable} {payload : Bytes} (h : v.encode = .ok payload)
    (hv : v.value.Fits partDepth) (ha : v.additional.Admissible partDepth) : v.Storable := by
  obtain ⟨hn, hall⟩ := of_array_eq_ok h
  obtain ⟨_, hname⟩ := hall _ List.mem_cons_self
  exact ⟨length_lt_of_string_eq_ok hname, hv, hn, ha⟩

theorem Mark.lnum_ne_zero_of_encode {named : Bool} {mark : Mark} {payload : Bytes}
    (h : mark.encode named = .ok payload) : mark.lnum ≠ 0 := by
  intro hz
  rw [encode, if_pos hz] at h
  cases h

/-- Only a name that is not written is left out of account. -/
theorem Mark.storable_of_encode {named : Bool} {depth : Nat} {mark : Mark} {payload : Bytes}
    (h : mark.encode named = .ok payload) (hname : named = false → mark.name = defaultName)
    (ha : mark.additional.Admissible (keys named) depth) : mark.Storable named depth := by
  have hlnum := lnum_ne_zero_of_encode h
  rw [encode_eq_map hlnum] at h
  obtain ⟨hn, hall⟩ := of_map_eq_ok h
  obtain ⟨_, hfile⟩ := hall (field "f" (string mark.file.bytes)) (by simp)
  obtain ⟨_, hfile⟩ := ok_of_field_eq_ok hfile
  have hlength : (mark.fields named).length + mark.additional.length < 2 ^ 32 := by
    simpa [fields, length_optional, length_optionalPair] using hn
  exact ⟨hlnum, length_lt_of_string_eq_ok hfile, hname, ha.fit hlength⟩

def Mark.unnamed (mark : Mark) : Mark := { mark with name := defaultName }

theorem Mark.encode_unnamed (mark : Mark) : mark.unnamed.encode false = mark.encode false := rfl

namespace Register

/-- Everything but a first line. -/
theorem fits_of_encode {r : Register} {payload : Bytes} (h : r.encode = .ok payload)
    (ha : r.additional.Admissible keys partDepth) :
    r.contents.length < 2 ^ 32 ∧ (∀ line ∈ r.contents, line.length < 2 ^ 32) ∧
      r.additional.Fit keys partDepth r.fields.length := by
  obtain ⟨hn, hall⟩ := of_map_eq_ok h
  obtain ⟨_, hcontents⟩ := hall (field "rc" (array (r.contents.map string) [])) (by simp)
  obtain ⟨_, hcontents⟩ := ok_of_field_eq_ok hcontents
  obtain ⟨hsize, hlines⟩ := of_array_eq_ok hcontents
  have hlength : r.fields.length + r.additional.length < 2 ^ 32 := by
    simpa [fields, length_optional, length_optionalPair] using hn
  refine ⟨by simpa using hsize, fun line hm => ?_, ha.fit hlength⟩
  obtain ⟨_, hline⟩ := hlines _ (List.mem_map_of_mem hm)
  exact length_lt_of_string_eq_ok hline

theorem exists_ofValue_iff {r : Register}
    (h : ∀ pair ∈ r.additional.stored, keyIn keys pair.1 = none) :
    (∃ back, ofValue (.map (r.fields ++ r.additional.stored)) = .ok back) ↔ r.contents ≠ [] := by
  rw [ofValue, pairs, Results.ok_bind, foldPairs_fields h, Results.ok_bind]
  cases r.contents <;> simp

end Register

namespace HistoryItem

/-- The item without a separator that is not written. -/
def written (item : HistoryItem) : HistoryItem := { item with separator := item.writtenSeparator }

theorem encode_written (item : HistoryItem) : item.written.encode = item.encode := by
  have h : item.written.writtenSeparator = item.writtenSeparator := by
    unfold written writtenSeparator
    split <;> rfl
  rw [encode, h]
  rfl

theorem separator_written (item : HistoryItem) (h : item.written.type ≠ .search) :
    item.written.separator = none :=
  if_neg h

theorem unreadable_written (item : HistoryItem) :
    (Content.history item.written).Unreadable ↔ (Content.history item).Unreadable := by
  refine and_congr_right fun ht => ?_
  rw [show item.written.separator = item.separator from if_pos ht]
  rfl

theorem fits_of_encode {item : HistoryItem} {payload : Bytes} (h : item.encode = .ok payload)
    (ha : item.additional.Admissible partDepth) :
    item.text.length < 2 ^ 32 ∧
      item.additional.Fit partDepth (2 + item.writtenSeparator.toList.length) := by
  obtain ⟨hn, hall⟩ := of_array_eq_ok h
  obtain ⟨_, htext⟩ := hall (string item.text) (by simp)
  refine ⟨length_lt_of_string_eq_ok htext, ?_, ha⟩
  simp only [List.length_append, List.length_cons, List.length_nil, List.length_map] at hn
  omega

theorem isCharacter_ofUInt64 (c : Char) : (Value.ofUInt64 (UInt64.ofNat c.toNat)).IsCharacter c :=
  ⟨_, rfl, congrArg Int.ofNat (toNat_codePoint c)⟩

theorem isCharacter_stored {v : Value} {c : Char} : v.stored.IsCharacter c ↔ v.IsCharacter c := by
  unfold Value.IsCharacter Value.IsInteger
  cases v with
  | str bytes =>
    rw [Value.stored]
    split <;> simp
  | _ => simp [Value.stored]

/-- All depends on what follows the line. -/
theorem exists_ofValue_array_iff {type : HistoryType} {text : Bytes} {rest : List Value} :
    (∃ back, ofValue (.array (.ofUInt64 type.id :: .str text :: rest)) = .ok back) ↔
      (type = .search → ∀ third ∈ rest.head?, ∃ c, third.IsCharacter c) := by
  rw [← exists_follows_iff, ofValue, items, Results.ok_bind]
  simp only [unsigned_ofUInt64, Results.ok_bind, HistoryType.ofId_id, Schema.string, Value.bytes?,
    Results.bind_eq_ok_iff, Results.pure_eq_ok, Except.ok.injEq, Prod.exists, separatorOf_eq_ok_iff]
  constructor
  · rintro ⟨_, separator, additional, h, -⟩
    exact ⟨separator, additional, h⟩
  · rintro ⟨separator, additional, h⟩
    exact ⟨_, separator, additional, h, rfl⟩

/-- A line is read again unless something else stands where the separator of a search should. -/
theorem exists_ofValue_iff {item : HistoryItem} :
    (∃ back, ofValue (.array (item.elements ++ item.additional.stored)) = .ok back) ↔
      ¬(Content.history item).Unreadable := by
  refine exists_ofValue_array_iff.trans ?_
  rw [Content.Unreadable]
  cases hs : item.separator with
  | some c =>
    have hc : ∃ c', (Value.ofUInt64 (UInt64.ofNat c.toNat)).IsCharacter c' :=
      ⟨c, isCharacter_ofUInt64 c⟩
    simp [hc]
  | none =>
    cases ha : item.additional with
    | nil => simp [ExtraItems.stored]
    | cons first rest => simp [ExtraItems.stored, isCharacter_stored]

end HistoryItem

theorem Mark.refusedFor {P : EncodingError → Prop} (hP : ∀ n, 2 ^ 32 ≤ n → P (.tooLong n))
    {named : Bool} {mark : Mark} (h : mark.lnum = 0 → P (.lineZero mark.file)) :
    RefusedFor P (mark.encode named) := by
  by_cases hz : mark.lnum = 0
  · intro e he
    rw [encode, if_pos hz] at he
    cases he
    exact h hz
  · rw [encode_eq_map hz]
    refine refusedFor_map hP ?_
    simp only [List.forall_mem_append, List.forall_mem_cons]
    exact ⟨⟨⟨refusedFor_field _ (refusedFor_string hP _),
      refusedFor_optional _ _ (refusedFor_ok _)⟩,
      refusedFor_optional _ _ (refusedFor_ok _)⟩, refusedFor_optional _ _ (refusedFor_ok _)⟩

namespace Content

theorem refusedFor_encode (content : Content) : RefusedFor content.Refusal content.encode := by
  have hlong (n : Nat) (hn : 2 ^ 32 ≤ n) : content.Refusal (.tooLong n) := hn
  cases content with
  | header h => exact refusedFor_map hlong (by simp)
  | searchPattern p =>
    refine refusedFor_map hlong ?_
    simp only [List.forall_mem_append, List.forall_mem_cons, List.forall_mem_map]
    exact ⟨⟨refusedFor_field _ (refusedFor_string hlong _),
      fun _ _ => refusedFor_field _ (refusedFor_ok _)⟩, refusedFor_optional _ _ (refusedFor_ok _)⟩
  | replacement r =>
    exact refusedFor_array hlong (List.forall_mem_singleton.mpr (refusedFor_string hlong _))
  | history item =>
    refine refusedFor_array hlong ?_
    simp only [List.forall_mem_append, List.forall_mem_cons, List.forall_mem_map]
    exact ⟨⟨refusedFor_ok _, refusedFor_string hlong _, by simp⟩, fun _ _ => refusedFor_ok _⟩
  | register r =>
    have hlines : RefusedFor (Content.register r).Refusal (array (r.contents.map string) []) :=
      refusedFor_array hlong (List.forall_mem_map.mpr fun _ _ => refusedFor_string hlong _)
    refine refusedFor_map hlong ?_
    simp only [List.forall_mem_append, List.forall_mem_cons]
    exact ⟨⟨⟨⟨refusedFor_field _ hlines, refusedFor_optional _ _ (refusedFor_ok _)⟩,
      refusedFor_optional _ _ (refusedFor_ok _)⟩, refusedFor_optional _ _ (refusedFor_ok _)⟩,
      refusedFor_field _ (refusedFor_ok _), by simp⟩
  | «variable» v =>
    refine refusedFor_array hlong ?_
    simp only [List.forall_mem_cons]
    exact ⟨refusedFor_string hlong _, refusedFor_ok _, by simp⟩
  | globalMark mark | localMark mark | jump mark | change mark =>
    exact Mark.refusedFor hlong fun hz => by simp [Refusal, places, hz]
  | bufferList buffers =>
    refine refusedFor_array hlong (List.forall_mem_map.mpr fun b hb =>
      Mark.refusedFor hlong fun hz => ?_)
    exact List.mem_map.mpr ⟨b, hb, Prod.ext rfl hz⟩
  | unknown id payload => exact refusedFor_ok payload

/-- No place that is written is on line 0. -/
theorem lnum_ne_zero_of_encode {content : Content} {payload : Bytes}
    (h : content.encode = .ok payload) : ∀ place ∈ content.places, place.2 ≠ 0 := by
  cases content with
  | globalMark mark | localMark mark | jump mark | change mark =>
    exact List.forall_mem_singleton.mpr (Mark.lnum_ne_zero_of_encode h)
  | bufferList buffers =>
    refine List.forall_mem_map.mpr fun b hb => ?_
    obtain ⟨bytes, he⟩ := (of_array_eq_ok h).2 _ (List.mem_map_of_mem hb)
    exact Mark.lnum_ne_zero_of_encode he
  | _ => simp [places]

/-- What was written as a value is read again if the value is understood. -/
theorem exists_decode_iff_of_writes (content : Content) {v : Value} {kind : Kind} {payload : Bytes}
    (hk : Kind.ofId content.id = some kind) (hu : kind ≠ .unknown)
    (hw : Writes Value.depthBudget content.encode v) (h : content.encode = .ok payload)
    (timestamp : Timestamp) (offset : Nat) :
    (∃ back, Frame.decode ⟨content.id, timestamp, payload, offset⟩ = .ok back) ↔
      ∃ back, ofValue kind v = .ok back := by
  obtain ⟨bytes, he, hd⟩ := decode_writes hk hu hw
  cases h.symm.trans he
  rw [hd]
  cases ofValue kind v <;> simp

theorem exists_decode_iff {content : Content} {payload : Bytes} (hk : content.kind ≠ .unknown)
    (ha : content.Admissible) (h : content.encode = .ok payload) (timestamp : Timestamp)
    (offset : Nat) :
    (∃ back, Frame.decode ⟨content.id, timestamp, payload, offset⟩ = .ok back) ↔
      ¬content.Unreadable := by
  have hstorable (same : Content) (hs : same.Storable) (he : same.encode = content.encode)
      (hid : same.id = content.id) :
      ∃ back, Frame.decode ⟨content.id, timestamp, payload, offset⟩ = .ok back := by
    obtain ⟨bytes, hb, hd⟩ := decode_encode hs
    cases h.symm.trans (he.symm.trans hb)
    exact ⟨_, hid ▸ hd timestamp offset⟩
  cases content with
  | header header =>
    exact iff_of_true (hstorable (.header header) (Header.storable_of_encode h ha) rfl rfl)
      not_false
  | searchPattern p =>
    exact iff_of_true (hstorable (.searchPattern p) (SearchPattern.storable_of_encode h ha) rfl rfl)
      not_false
  | replacement r =>
    exact iff_of_true (hstorable (.replacement r) (Replacement.storable_of_encode h ha) rfl rfl)
      not_false
  | history item =>
    obtain ⟨ht, he⟩ := HistoryItem.fits_of_encode h ha
    have hw : Writes Value.depthBudget item.written.encode _ :=
      HistoryItem.writes ht item.separator_written he
    rw [item.encode_written] at hw
    rw [exists_decode_iff_of_writes (.history item) rfl (by decide) hw h, ← item.unreadable_written,
      ← HistoryItem.exists_ofValue_iff]
    exact Results.exists_map_eq_ok_iff
  | register r =>
    obtain ⟨hn, hl, he⟩ := Register.fits_of_encode h ha
    rw [exists_decode_iff_of_writes (.register r) rfl (by decide) (Register.writes hn hl he) h]
    exact Results.exists_map_eq_ok_iff.trans (Register.exists_ofValue_iff he.unknown_stored)
  | «variable» v =>
    exact iff_of_true (hstorable (.variable v) (Variable.storable_of_encode h ha.1 ha.2) rfl rfl)
      not_false
  | globalMark mark =>
    exact iff_of_true (hstorable (.globalMark mark) (Mark.storable_of_encode h nofun ha) rfl rfl)
      not_false
  | jump mark =>
    have hs : mark.unnamed.Storable false partDepth := Mark.storable_of_encode h (fun _ => rfl) ha
    exact iff_of_true (hstorable (.jump mark.unnamed) hs mark.encode_unnamed rfl) not_false
  | bufferList buffers =>
    obtain ⟨hn, hall⟩ := of_array_eq_ok h
    have hs : (Content.bufferList buffers).Storable := by
      refine ⟨by simpa using hn, fun b hb => ?_⟩
      obtain ⟨bytes, he⟩ := hall _ (List.mem_map_of_mem hb)
      exact Mark.storable_of_encode he (fun _ => rfl) (ha b hb)
    exact iff_of_true (hstorable (.bufferList buffers) hs rfl rfl) not_false
  | localMark mark =>
    exact iff_of_true (hstorable (.localMark mark) (Mark.storable_of_encode h nofun ha) rfl rfl)
      not_false
  | change mark =>
    have hs : mark.unnamed.Storable false partDepth := Mark.storable_of_encode h (fun _ => rfl) ha
    exact iff_of_true (hstorable (.change mark.unnamed) hs mark.encode_unnamed rfl) not_false
  | unknown => exact absurd rfl hk

end Content

namespace Entry

/-- An entry of a known kind that is written can be read again, unless it is a
register without a line or a search whose separator is missing, and it names no
line 0. One that is not written names line 0 or is too long. -/
theorem encode_then_decode {entry : Entry} (hk : entry.kind ≠ .unknown)
    (ha : entry.content.Admissible) : match entry.encode with
    | .ok payload =>
      (∀ place ∈ entry.content.places, place.2 ≠ 0) ∧ ∀ timestamp offset,
        (∃ back, Frame.decode ⟨entry.kindId, timestamp, payload, offset⟩ = .ok back) ↔
          ¬entry.content.Unreadable
    | .error e => ∃ cause, e = .unencodable entry.kind cause ∧ entry.content.Refusal cause := by
  unfold encode
  cases he : entry.content.encode with
  | error cause => exact ⟨cause, rfl, Content.refusedFor_encode entry.content cause he⟩
  | ok payload => exact ⟨Content.lnum_ne_zero_of_encode he, Content.exists_decode_iff hk ha he⟩

/-- A register without a line is written, and so is a search with a text where
its separator should be. -/
theorem encode_then_decode_unreadable :
    let register : Entry := ⟨1, .register { name := 'a' }⟩
    let search : Entry :=
      ⟨1, .history { type := .search, text := [0x78], additional := [.str [0x79]] }⟩
    let lines : Bytes := [0x82, 0xA2, 0x72, 0x63, 0x90, 0xA1, 0x6E, 0x61]
    let items : Bytes := [0x93, 0x01, 0xA1, 0x78, 0xA1, 0x79]
    ((register.kind ≠ .unknown ∧ register.content.Admissible) ∧ register.encode = .ok lines ∧
        ∀ timestamp offset, ¬∃ back, Frame.decode ⟨5, timestamp, lines, offset⟩ = .ok back) ∧
      (search.kind ≠ .unknown ∧ search.content.Admissible) ∧ search.encode = .ok items ∧
        ∀ timestamp offset, ¬∃ back, Frame.decode ⟨4, timestamp, items, offset⟩ = .ok back := by
  intro register search lines items
  have hr : register.content.Admissible := by
    simp [register, Content.Admissible, ExtraPairs.Admissible]
  have hs : search.content.Admissible := List.forall_mem_singleton.mpr (.text (by decide))
  have hlines : register.encode = .ok lines := rfl
  have hitems : search.encode = .ok items := rfl
  have hregister := @encode_then_decode register (by decide) hr
  have hsearch := @encode_then_decode search (by decide) hs
  rw [hlines] at hregister
  rw [hitems] at hsearch
  have hempty : register.content.Unreadable := rfl
  have htext : search.content.Unreadable := by
    refine ⟨rfl, rfl, .str [0x79], rfl, fun c => ?_⟩
    rintro ⟨i, hi, -⟩
    cases hi
  exact ⟨⟨⟨by decide, hr⟩, hlines, fun timestamp offset h =>
    (hregister.2 timestamp offset).mp h hempty⟩,
    ⟨by decide, hs⟩, hitems, fun timestamp offset h => (hsearch.2 timestamp offset).mp h htext⟩

end Entry

end SessionStore
