import SessionStore.Proofs.Payload.Lists
import SessionStore.Proofs.Payload.Maps

/-! The schema of each kind: what a payload value has to be, and what it then describes. -/
namespace SessionStore

open Msgpack (Value)
open Schema

namespace Schema.Accepts

variable {α β : Type} {reading : Reading α} {Conforms : Prop} {Describes : α → Prop}

theorem of_eq_ok_iff (h : ∀ {a}, reading = .ok a ↔ Describes a)
    (hc : (∃ a, Describes a) ↔ Conforms) : Accepts reading Conforms Describes where
  succeeds := (exists_congr fun _ => h).trans hc
  describes := h.mp
  unique ha hb := Except.ok.inj ((h.mpr ha).symm.trans (h.mpr hb))

/-- What is read can be made part of something larger. -/
theorem map (h : Accepts reading Conforms Describes) {f : α → β} {Describes' : β → Prop}
    (hd : ∀ b, Describes' b ↔ ∃ a, Describes a ∧ f a = b) :
    Accepts (f <$> reading) Conforms Describes' where
  succeeds := Results.exists_map_eq_ok_iff.trans h.succeeds
  describes {b} hb := by
    obtain ⟨a, ha, hf⟩ := Results.map_eq_ok_iff.mp hb
    exact (hd b).mpr ⟨a, h.describes ha, hf⟩
  unique {b c} hb hc := by
    obtain ⟨a, ha, rfl⟩ := (hd b).mp hb
    obtain ⟨a', ha', rfl⟩ := (hd c).mp hc
    rw [h.unique ha ha']

/-- A reading that accepts nothing but maps. -/
theorem of_map {read : Value → Reading α} {Conforms : List (Value × Value) → Prop}
    {Describes : List (Value × Value) → α → Prop}
    (hm : ∀ {v a}, read v = .ok a → ∃ pairs, v = .map pairs)
    (h : ∀ pairs, Accepts (read (.map pairs)) (Conforms pairs) (Describes pairs)) (v : Value) :
    Accepts (read v) (∃ pairs, v = .map pairs ∧ Conforms pairs) fun a => ∃ pairs, v = .map pairs ∧
      Describes pairs a
    where
  succeeds := by
    constructor
    · rintro ⟨a, ha⟩
      obtain ⟨pairs, rfl⟩ := hm ha
      exact ⟨pairs, rfl, (h pairs).succeeds.mp ⟨a, ha⟩⟩
    · rintro ⟨pairs, rfl, hc⟩
      exact (h pairs).succeeds.mpr hc
  describes ha := by
    obtain ⟨pairs, rfl⟩ := hm ha
    exact ⟨pairs, rfl, (h pairs).describes ha⟩
  unique := by
    rintro a b ⟨pairs, rfl, ha⟩ ⟨_, he, hb⟩
    cases he
    exact (h pairs).unique ha hb

end Schema.Accepts

namespace HistoryItem

/-- A history is stored as its number, from 0 to 4. -/
def IsHistory (v : Value) (type : HistoryType) : Prop := v.IsUnsigned type.id

/-- In front are the history and the line, and a third element of a search is its separator. -/
def Conforms (v : Value) : Prop :=
  ∃ first second rest, v = .array (first :: second :: rest) ∧ (∃ text, second.IsText text) ∧
    ∃ type, IsHistory first type ∧ (type = .search → ∀ third ∈ rest.head?, ∃ c, third.IsCharacter c)

/-- Elements behind the line, with the separator of a search. -/
inductive Follows : HistoryType → List Value → Option Char → ExtraItems → Prop
  | separator {third : Value} {c : Char} {additional : ExtraItems} (h : third.IsCharacter c) :
    Follows .search (third :: additional) (some c) additional
  | bare : Follows .search [] none []
  | other {type : HistoryType} {additional : ExtraItems} (h : type ≠ .search) :
    Follows type additional none additional

inductive Describes : Value → HistoryItem → Prop
  | mk {first second : Value} {rest : List Value} {type : HistoryType} {text : Bytes}
    {separator : Option Char} {additional : ExtraItems} (hf : IsHistory first type)
    (hs : second.IsText text) (hr : Follows type rest separator additional) :
    Describes (.array (first :: second :: rest)) ⟨type, text, separator, additional⟩

theorem separatorOf_eq_ok_iff {type : HistoryType} {rest : List Value} {separator : Option Char}
    {additional : ExtraItems} :
    separatorOf type rest = .ok (separator, additional) ↔
      Follows type rest separator additional := by
  constructor
  · intro h
    unfold separatorOf at h
    split at h
    · obtain ⟨c, hc, h⟩ := Results.bind_eq_ok_iff.mp h
      cases Except.ok.inj h
      exact .separator (character_eq_ok_iff.mp hc)
    · next hne =>
      cases Except.ok.inj h
      by_cases ht : type = .search
      · cases rest with
        | nil => exact ht ▸ .bare
        | cons third rest => exact (hne third rest ht rfl).elim
      · exact .other ht
  · intro h
    cases h with
    | separator h =>
      rw [separatorOf, character_eq_ok_iff.mpr h, Results.ok_bind, Results.pure_eq_ok]
    | bare => rfl
    | other ht =>
      unfold separatorOf
      split
      · exact absurd rfl ht
      · rfl

theorem exists_follows_iff {type : HistoryType} {rest : List Value} :
    (∃ separator additional, Follows type rest separator additional) ↔
      (type = .search → ∀ third ∈ rest.head?, ∃ c, third.IsCharacter c) := by
  constructor
  · rintro ⟨separator, additional, h⟩ ht third hm
    cases h with
    | separator h =>
      cases hm
      exact ⟨_, h⟩
    | bare => cases hm
    | other hne => exact absurd ht hne
  · intro h
    by_cases ht : type = .search
    · subst ht
      cases rest with
      | nil => exact ⟨none, [], .bare⟩
      | cons third additional =>
        obtain ⟨c, hc⟩ := h rfl third rfl
        exact ⟨some c, additional, .separator hc⟩
    · exact ⟨none, rest, .other ht⟩

theorem ofValue_eq_ok_iff {v : Value} {item : HistoryItem} :
    ofValue v = .ok item ↔ Describes v item := by
  constructor
  · intro h
    obtain ⟨elements, he, h⟩ := Results.bind_eq_ok_iff.mp h
    rw [items_eq_ok_iff.mp he]
    cases elements with
    | nil => cases h
    | cons first rest =>
      obtain ⟨id, hid, h⟩ := Results.bind_eq_ok_iff.mp h
      split at h
      · next type htype =>
        cases rest with
        | nil => cases h
        | cons second rest =>
          obtain ⟨text, ht, h⟩ := Results.bind_eq_ok_iff.mp h
          obtain ⟨⟨separator, additional⟩, hs, h⟩ := Results.bind_eq_ok_iff.mp h
          cases Except.ok.inj h
          have hfirst : IsHistory first type := by
            rw [IsHistory, HistoryType.ofId_eq_some_iff.mp htype]
            exact unsigned_eq_ok_iff.mp hid
          exact .mk hfirst (string_eq_ok_iff.mp ht) (separatorOf_eq_ok_iff.mp hs)
      · cases h
  · rintro ⟨hf, hs, hr⟩
    rw [ofValue, items, Results.ok_bind]
    simp only [unsigned_eq_ok_iff.mpr hf, Results.ok_bind, HistoryType.ofId_id,
      string_eq_ok_iff.mpr hs, separatorOf_eq_ok_iff.mpr hr, Results.pure_eq_ok]

/-- Arrays that conform are read as the line that they describe. -/
theorem accepts (v : Value) : Accepts (ofValue v) (Conforms v) (Describes v) := by
  refine .of_eq_ok_iff ofValue_eq_ok_iff ?_
  constructor
  · rintro ⟨_, hf, hs, hr⟩
    exact ⟨_, _, _, rfl, ⟨_, hs⟩, _, hf, exists_follows_iff.mp ⟨_, _, hr⟩⟩
  · rintro ⟨first, second, rest, rfl, ⟨text, hs⟩, type, hf, hc⟩
    obtain ⟨separator, additional, hr⟩ := exists_follows_iff.mpr hc
    exact ⟨_, .mk hf hs hr⟩

end HistoryItem

theorem Header.accepts (v : Value) :
    Accepts (ofValue v) (∃ fields, v = .map fields) fun header => v = .map header.fields := by
  refine .of_eq_ok_iff (fun {header} => ?_) ⟨fun ⟨header, hv⟩ => ⟨_, hv⟩,
    fun ⟨fields, hv⟩ => ⟨⟨fields⟩, hv⟩⟩
  constructor
  · intro h
    obtain ⟨fields, hf, h⟩ := Results.bind_eq_ok_iff.mp h
    cases Except.ok.inj h
    exact pairs_eq_ok_iff.mp hf
  · rintro rfl
    rfl

namespace Replacement

/-- The text comes first. -/
theorem ofValue_eq_ok_iff {v : Value} {r : Replacement} :
    ofValue v = .ok r ↔ ∃ first, v = .array (first :: r.additional) ∧ first.IsText r.text := by
  constructor
  · intro h
    obtain ⟨elements, he, h⟩ := Results.bind_eq_ok_iff.mp h
    rw [items_eq_ok_iff.mp he]
    cases elements with
    | nil => cases h
    | cons first additional =>
      obtain ⟨text, ht, h⟩ := Results.bind_eq_ok_iff.mp h
      cases Except.ok.inj h
      exact ⟨first, rfl, string_eq_ok_iff.mp ht⟩
  · rintro ⟨first, rfl, ht⟩
    rw [ofValue, items, Results.ok_bind]
    simp only [string_eq_ok_iff.mpr ht, Results.ok_bind, Results.pure_eq_ok]

theorem accepts (v : Value) :
    Accepts (ofValue v) (∃ first additional, v = .array (first :: additional) ∧
      ∃ text, first.IsText text) fun r =>
      ∃ first, v = .array (first :: r.additional) ∧ first.IsText r.text := by
  refine .of_eq_ok_iff ofValue_eq_ok_iff ?_
  constructor
  · rintro ⟨r, first, hv, ht⟩
    exact ⟨first, r.additional, hv, r.text, ht⟩
  · rintro ⟨first, additional, hv, text, ht⟩
    exact ⟨⟨text, additional⟩, first, hv, ht⟩

end Replacement

namespace Variable

/-- The name comes first, then the value. -/
theorem ofValue_eq_ok_iff {v : Value} {found : Variable} :
    ofValue v = .ok found ↔
      ∃ first, v = .array (first :: found.value :: found.additional) ∧ first.IsText found.name := by
  constructor
  · intro h
    obtain ⟨elements, he, h⟩ := Results.bind_eq_ok_iff.mp h
    rw [items_eq_ok_iff.mp he]
    cases elements with
    | nil => cases h
    | cons first rest =>
      obtain ⟨name, hn, h⟩ := Results.bind_eq_ok_iff.mp h
      cases rest with
      | nil => cases h
      | cons value additional =>
        cases Except.ok.inj h
        exact ⟨first, rfl, string_eq_ok_iff.mp hn⟩
  · rintro ⟨first, rfl, hn⟩
    rw [ofValue, items, Results.ok_bind]
    simp only [string_eq_ok_iff.mpr hn, Results.ok_bind, Results.pure_eq_ok]

theorem accepts (v : Value) :
    Accepts (ofValue v)
      (∃ first value additional, v = .array (first :: value :: additional) ∧
        ∃ name, first.IsText name) fun found =>
      ∃ first, v = .array (first :: found.value :: found.additional) ∧ first.IsText found.name := by
  refine .of_eq_ok_iff ofValue_eq_ok_iff ?_
  constructor
  · rintro ⟨found, first, hv, hn⟩
    exact ⟨first, found.value, found.additional, hv, found.name, hn⟩
  · rintro ⟨first, value, additional, hv, name, hn⟩
    exact ⟨⟨name, value, additional⟩, first, hv, hn⟩

end Variable

theorem SearchPattern.isMap_of_ofValue {v : Value} {p : SearchPattern} (h : ofValue v = .ok p) :
    ∃ pairs, v = .map pairs := by
  obtain ⟨pairs, hp, -⟩ := Results.bind_eq_ok_iff.mp h
  exact ⟨pairs, pairs_eq_ok_iff.mp hp⟩

theorem Register.isMap_of_ofValue {v : Value} {r : Register} (h : ofValue v = .ok r) :
    ∃ pairs, v = .map pairs := by
  obtain ⟨pairs, hp, -⟩ := Results.bind_eq_ok_iff.mp h
  exact ⟨pairs, pairs_eq_ok_iff.mp hp⟩

theorem Mark.isMap_of_ofValue {named : Bool} {v : Value} {mark : Mark}
    (h : ofValue named v = .ok mark) : ∃ pairs, v = .map pairs := by
  obtain ⟨pairs, hp, -⟩ := Results.bind_eq_ok_iff.mp h
  exact ⟨pairs, pairs_eq_ok_iff.mp hp⟩

theorem Mark.accepts_map (named : Bool) (v : Value) :
    Accepts (ofValue named v) (∃ pairs, v = .map pairs ∧ Conforms named pairs) fun mark =>
      ∃ pairs, v = .map pairs ∧ Describes named pairs mark :=
  .of_map isMap_of_ofValue (accepts named) v

theorem Buffer.accepts_array (v : Value) :
    Accepts (items "buffer list" v >>= fun elements => elements.mapM ofValue)
      (∃ elements, v = .array elements ∧
        ∀ element ∈ elements, ∃ pairs, element = .map pairs ∧ Mark.Conforms false pairs)
      fun buffers => ∃ elements, v = .array elements ∧ List.Forall₂ Describes elements buffers where
  succeeds := by
    simp only [← (accepts _).succeeds, ← Results.exists_mapM_iff, Results.bind_eq_ok_iff,
      items_eq_ok_iff]
    constructor
    · rintro ⟨buffers, elements, hv, hb⟩
      exact ⟨elements, hv, buffers, hb⟩
    · rintro ⟨elements, hv, buffers, hb⟩
      exact ⟨buffers, elements, hv, hb⟩
  describes {buffers} hb := by
    obtain ⟨elements, he, hb⟩ := Results.bind_eq_ok_iff.mp hb
    exact ⟨elements, items_eq_ok_iff.mp he,
      (Results.mapM_eq_ok_iff.mp hb).imp fun element _ h => (accepts element).describes h⟩
  unique := by
    rintro b₁ b₂ ⟨elements, rfl, h₁⟩ ⟨_, he, h₂⟩
    cases he
    have hone : Relator.RightUnique Describes :=
      fun element _ _ h₁ h₂ => (accepts element).unique h₁ h₂
    exact hone.forall₂ h₁ h₂

namespace Kind

/-- What a payload value has to be under a kind. -/
def Conforms : Kind → Value → Prop
  | .header, v => ∃ fields, v = .map fields
  | .searchPattern, v => ∃ pairs, v = .map pairs ∧ SearchPattern.Conforms pairs
  | .replacement, v =>
    ∃ first additional, v = .array (first :: additional) ∧ ∃ text, first.IsText text
  | .history, v => HistoryItem.Conforms v
  | .register, v => ∃ pairs, v = .map pairs ∧ Register.Conforms pairs
  | .variable, v => ∃ first value additional, v = .array (first :: value :: additional) ∧
    ∃ name, first.IsText name
  | .globalMark, v | .localMark, v => ∃ pairs, v = .map pairs ∧ Mark.Conforms true pairs
  | .jump, v | .change, v => ∃ pairs, v = .map pairs ∧ Mark.Conforms false pairs
  | .bufferList, v =>
    ∃ elements, v = .array elements ∧
      ∀ element ∈ elements, ∃ pairs, element = .map pairs ∧ Mark.Conforms false pairs
  | .unknown, _ => False

/-- What a payload value says under a kind. -/
def Describes : Kind → Value → Content → Prop
  | .header, v, .header h => v = .map h.fields
  | .searchPattern, v, .searchPattern p => ∃ pairs, v = .map pairs ∧ SearchPattern.Describes pairs p
  | .replacement, v, .replacement r =>
    ∃ first, v = .array (first :: r.additional) ∧ first.IsText r.text
  | .history, v, .history item => HistoryItem.Describes v item
  | .register, v, .register r => ∃ pairs, v = .map pairs ∧ Register.Describes pairs r
  | .variable, v, .variable found =>
    ∃ first, v = .array (first :: found.value :: found.additional) ∧ first.IsText found.name
  | .globalMark, v, .globalMark mark | .localMark, v, .localMark mark =>
    ∃ pairs, v = .map pairs ∧ Mark.Describes true pairs mark
  | .jump, v, .jump mark | .change, v, .change mark =>
    ∃ pairs, v = .map pairs ∧ Mark.Describes false pairs mark
  | .bufferList, v, .bufferList buffers =>
    ∃ elements, v = .array elements ∧ List.Forall₂ Buffer.Describes elements buffers
  | _, _, _ => False

end Kind

namespace Content

theorem ofValue_bufferList_eq_map (v : Value) :
    ofValue .bufferList v =
      bufferList <$> (items "buffer list" v >>= fun elements => elements.mapM Buffer.ofValue) := by
  rw [ofValue]
  cases items "buffer list" v <;> rfl

theorem accepts (kind : Kind) (v : Value) :
    Accepts (ofValue kind v) (kind.Conforms v) (kind.Describes v) := by
  cases kind with
  | header => exact (Header.accepts v).map fun content => by cases content <;> simp [Kind.Describes]
  | searchPattern =>
    exact (Accepts.of_map SearchPattern.isMap_of_ofValue SearchPattern.accepts v).map
      fun content => by
      cases content <;> simp [Kind.Describes]
  | replacement =>
    exact (Replacement.accepts v).map fun content => by cases content <;> simp [Kind.Describes]
  | history =>
    exact (HistoryItem.accepts v).map fun content => by cases content <;> simp [Kind.Describes]
  | register =>
    exact (Accepts.of_map Register.isMap_of_ofValue Register.accepts v).map fun content => by
      cases content <;> simp [Kind.Describes]
  | «variable» =>
    exact (Variable.accepts v).map fun content => by cases content <;> simp [Kind.Describes]
  | globalMark =>
    exact (Mark.accepts_map true v).map fun content => by cases content <;> simp [Kind.Describes]
  | jump =>
    exact (Mark.accepts_map false v).map fun content => by cases content <;> simp [Kind.Describes]
  | bufferList =>
    rw [ofValue_bufferList_eq_map]
    exact (Buffer.accepts_array v).map fun content => by cases content <;> simp [Kind.Describes]
  | localMark =>
    exact (Mark.accepts_map true v).map fun content => by cases content <;> simp [Kind.Describes]
  | change =>
    exact (Mark.accepts_map false v).map fun content => by cases content <;> simp [Kind.Describes]
  | unknown =>
    exact .of_eq_ok_iff (by simp [ofValue, Kind.Describes])
      (by simp [Kind.Describes, Kind.Conforms])

/-- A payload value is understood exactly if it conforms to the schema of its
kind, and it is understood as the one content that it describes. -/
theorem ofValue_schema (kind : Kind) (v : Value) :
    ((∃ content, ofValue kind v = .ok content) ↔ kind.Conforms v) ∧
      ∀ content, ofValue kind v = .ok content ↔ kind.Conforms v ∧ kind.Describes v content :=
  ⟨(accepts kind v).succeeds, fun _ => (accepts kind v).eq_ok_iff⟩

end Content

end SessionStore
