import SessionStore.Proofs.Msgpack.Limits
import SessionStore.Proofs.Payload.Conforming
import SessionStore.Proofs.Payload.Stability

/-! Whatever is understood can be stored again. -/
namespace SessionStore

open Msgpack (Value)
open Schema

def PairsFit (depth : Nat) (pairs : List (Value × Value)) : Prop :=
  ∀ pair ∈ pairs, pair.1.Fits depth ∧ pair.2.Fits depth

theorem fits_pairs {field : String} {depth : Nat} {v : Value} {found : List (Value × Value)}
    (h : pairs field v = .ok found) (hv : v.Fits (depth + 2)) :
    found.length < 2 ^ 32 ∧ PairsFit depth found := by
  cases hv with
  | map size keys values =>
    cases Except.ok.inj h
    exact ⟨size, fun pair hp => ⟨keys pair hp, values pair hp⟩⟩
  | _ => cases h

theorem fits_array {depth : Nat} {elements : List Value}
    (hv : (Value.array elements).Fits (depth + 2)) :
    elements.length < 2 ^ 32 ∧ ∀ element ∈ elements, element.Fits depth := by
  cases hv with
  | array size each => exact ⟨size, each⟩

theorem fits_items {field : String} {depth : Nat} {v : Value} {found : List Value}
    (h : items field v = .ok found) (hv : v.Fits (depth + 2)) :
    found.length < 2 ^ 32 ∧ ∀ item ∈ found, item.Fits depth :=
  fits_array (items_eq_ok_iff.mp h ▸ hv)

theorem Msgpack.Value.IsText.length_lt {depth : Nat} {v : Value} {bytes : Bytes}
    (h : v.IsText bytes) (hv : v.Fits depth) : bytes.length < 2 ^ 32 := by
  cases h with
  | str =>
    cases hv with
    | text size | notText size => exact size
  | bin =>
    cases hv with
    | bin size => exact size

theorem PairsFit.unknownPairs {κ : Type} {keys : List (String × κ)} {depth fields : Nat}
    {pairs : List (Value × Value)} (h : PairsFit depth pairs)
    (hn : fields + (unknownPairs keys pairs).length < 2 ^ 32) :
    ExtraPairs.Fit keys depth fields (unknownPairs keys pairs) where
  size := hn
  unknown := fun _ hp => Option.isNone_iff_eq_none.mp (List.mem_filter.mp hp).2
  keys := fun pair hp => (h pair (List.mem_of_mem_filter hp)).1
  values := fun pair hp => (h pair (List.mem_of_mem_filter hp)).2

def optionalKey {κ : Type} (isWritten : Bool) (k : κ) : List κ := if isWritten then [k] else []

@[simp] theorem mem_optionalKey {κ : Type} {isWritten : Bool} {j k : κ} :
    j ∈ optionalKey isWritten k ↔ isWritten = true ∧ j = k := by
  cases isWritten <;> simp [optionalKey]

theorem length_optionalKey {κ : Type} (isWritten : Bool) (k : κ) :
    (optionalKey isWritten k).length = isWritten.toNat := by
  cases isWritten <;> rfl

namespace Mark

/-- What is known of a draft: its parts come from pairs of the map. -/
structure Draft.Backed (depth : Nat) (known : List Field) (draft : Draft) : Prop where
  lnum : draft.mark.lnum ≠ 0
  file : ∀ file, draft.file = some file → file.length < 2 ^ 32 ∧ .file ∈ known
  lnumKey : draft.mark.lnum ≠ 1 → .lnum ∈ known
  colKey : draft.mark.col ≠ 0 → .col ∈ known
  nameKey : draft.mark.name ≠ defaultName → .name ∈ known

theorem Draft.Backed.put {depth : Nat} {known : List Field} {draft draft' : Draft} {field : Field}
    {v : Value} (h : draft.Backed depth known) (hk : field ∈ known) (hv : v.Fits depth)
    (hp : draft.put field v = .ok draft') : draft'.Backed depth known := by
  cases field with
  | file =>
    obtain ⟨bytes, hb, hp⟩ := Results.bind_eq_ok_iff.mp hp
    cases Except.ok.inj hp
    refine ⟨h.lnum, fun file hf => ?_, h.lnumKey, h.colKey, h.nameKey⟩
    cases Option.some.inj hf
    exact ⟨(string_eq_ok_iff.mp hb).length_lt hv, hk⟩
  | lnum =>
    obtain ⟨lnum, hl, hp⟩ := Results.bind_eq_ok_iff.mp hp
    cases Except.ok.inj hp
    exact ⟨lineNumber_ne_zero hl, h.file, fun _ => hk, h.colKey, h.nameKey⟩
  | col =>
    obtain ⟨col, hc, hp⟩ := Results.bind_eq_ok_iff.mp hp
    cases Except.ok.inj hp
    exact ⟨h.lnum, h.file, h.lnumKey, fun _ => hk, h.nameKey⟩
  | name =>
    obtain ⟨name, hn, hp⟩ := Results.bind_eq_ok_iff.mp hp
    cases Except.ok.inj hp
    exact ⟨h.lnum, h.file, h.lnumKey, h.colKey, fun _ => hk⟩

def writtenKeys (named : Bool) (mark : Mark) : List Field :=
  .file :: optionalKey (mark.lnum ≠ 1) .lnum ++ optionalKey (mark.col ≠ 0) .col ++
    optionalKey (named && mark.name ≠ defaultName) .name

theorem length_fields (named : Bool) (mark : Mark) :
    (mark.fields named).length = (mark.writtenKeys named).length := by
  simp only [fields, writtenKeys, List.length_append, List.length_cons, length_optionalPair,
    length_optionalKey]

theorem nodup_writtenKeys (named : Bool) (mark : Mark) : (mark.writtenKeys named).Nodup := by
  unfold writtenKeys optionalKey
  split <;> split <;> split <;> simp

theorem storable_of_ofPairs {named : Bool} {depth : Nat}
    {pairs : List (Value × Value)} {mark : Mark} (hn : pairs.length < 2 ^ 32)
    (hf : PairsFit depth pairs) (h : ofPairs named pairs = .ok mark) :
    mark.Storable named depth := by
  obtain ⟨draft, hfold, h⟩ := Results.bind_eq_ok_iff.mp h
  have hb : draft.Backed depth (knownKeys (keys named) pairs) :=
    foldPairs_invariant (P := Draft.Backed depth (knownKeys (keys named) pairs))
      (fun hm hk hs hp => hs.put (mem_knownKeys hm hk) (hf _ hm).2 hp)
      ⟨by decide, by simp, by simp, by simp, by simp⟩ hfold
  cases hfile : draft.file with
  | none => simp [hfile] at h
  | some file =>
    simp only [hfile] at h
    cases Except.ok.inj h
    obtain ⟨hsize, hfileKey⟩ := hb.file file hfile
    have hname (hnamed : named = false) : draft.mark.name = defaultName := by
      apply Decidable.not_not.mp
      intro hd
      have := mem_of_mem_knownKeys (hb.nameKey hd)
      subst hnamed
      simp [keys] at this
    refine ⟨hb.lnum, hsize, hname, hf.unknownPairs ?_⟩
    rw [length_fields]
    refine Nat.lt_of_le_of_lt (length_fields_le (nodup_writtenKeys named _) fun k hk => ?_) hn
    simp only [writtenKeys, List.mem_append, List.mem_cons, mem_optionalKey, decide_eq_true_eq,
      Bool.and_eq_true] at hk
    rcases hk with ((rfl | ⟨hl, rfl⟩) | ⟨hc, rfl⟩) | ⟨⟨-, hd⟩, rfl⟩
    · exact hfileKey
    · exact hb.lnumKey hl
    · exact hb.colKey hc
    · exact hb.nameKey hd

end Mark

namespace SearchPattern

/-- What is known of a draft: its parts come from pairs of the map. -/
structure Draft.Backed (known : List Field) (draft : Draft) : Prop where
  text : ∀ text, draft.text = some text → text.length < 2 ^ 32 ∧ .pattern ∈ known
  flagKey : ∀ flag, draft.pattern.flag flag ≠ flag.default → .flag flag ∈ known
  offsetKey : draft.pattern.offset ≠ 0 → .offset ∈ known

theorem Draft.Backed.put {depth : Nat} {known : List Field} {draft draft' : Draft} {field : Field}
    {v : Value} (h : draft.Backed known) (hk : field ∈ known) (hv : v.Fits depth)
    (hp : draft.put field v = .ok draft') : draft'.Backed known := by
  cases field with
  | pattern =>
    obtain ⟨bytes, hb, hp⟩ := Results.bind_eq_ok_iff.mp hp
    cases Except.ok.inj hp
    refine ⟨fun text ht => ?_, h.flagKey, h.offsetKey⟩
    cases Option.some.inj ht
    exact ⟨(string_eq_ok_iff.mp hb).length_lt hv, hk⟩
  | offset =>
    obtain ⟨offset, ho, hp⟩ := Results.bind_eq_ok_iff.mp hp
    cases Except.ok.inj hp
    refine ⟨h.text, fun flag hf => h.flagKey flag ?_, fun _ => hk⟩
    cases flag <;> exact hf
  | flag changed =>
    obtain ⟨b, hb, hp⟩ := Results.bind_eq_ok_iff.mp hp
    cases Except.ok.inj hp
    refine ⟨h.text, fun flag hf => ?_, fun ho => h.offsetKey (by rwa [offset_setFlag] at ho)⟩
    rw [flag_setFlag] at hf
    split at hf
    · next he => exact he ▸ hk
    · exact h.flagKey flag hf

def writtenKeys (p : SearchPattern) : List Field :=
  .pattern :: p.writtenFlags.map .flag ++ optionalKey (p.offset ≠ 0) .offset

theorem length_fields (p : SearchPattern) : p.fields.length = p.writtenKeys.length := by
  simp only [fields, writtenKeys, List.length_append, List.length_cons, List.length_map,
    length_optionalPair, length_optionalKey]

theorem nodup_writtenKeys (p : SearchPattern) : p.writtenKeys.Nodup := by
  have hf : (p.writtenFlags.map Field.flag).Nodup :=
    List.Pairwise.map Field.flag (fun _ _ hne h => hne (Field.flag.inj h))
      (PatternFlag.nodup_all.filter _)
  unfold writtenKeys optionalKey
  split <;> simp [List.nodup_append, hf]

theorem storable_of_ofValue {v : Value} {p : SearchPattern} (hv : v.Fits Value.depthBudget)
    (h : ofValue v = .ok p) : p.Storable := by
  obtain ⟨pairs, hpairs, h⟩ := Results.bind_eq_ok_iff.mp h
  obtain ⟨draft, hfold, h⟩ := Results.bind_eq_ok_iff.mp h
  obtain ⟨hn, hf⟩ := fits_pairs hpairs hv
  have hb : draft.Backed (knownKeys keys pairs) :=
    foldPairs_invariant (P := Draft.Backed (knownKeys keys pairs))
      (fun hm hk hs hp => hs.put (mem_knownKeys hm hk) (hf _ hm).2 hp)
      ⟨by simp, fun flag hf => absurd (by cases flag <;> rfl) hf, by simp⟩ hfold
  cases htext : draft.text with
  | none => simp [htext] at h
  | some text =>
    simp only [htext] at h
    cases Except.ok.inj h
    obtain ⟨hsize, htextKey⟩ := hb.text text htext
    refine ⟨hsize, hf.unknownPairs ?_⟩
    rw [length_fields]
    refine Nat.lt_of_le_of_lt (length_fields_le (nodup_writtenKeys _) fun k hk => ?_) hn
    simp only [writtenKeys, List.mem_append, List.mem_cons, List.mem_map, mem_optionalKey,
      decide_eq_true_eq] at hk
    rcases hk with (rfl | ⟨flag, hw, rfl⟩) | ⟨ho, rfl⟩
    · exact htextKey
    · apply hb.flagKey flag
      have hw := mem_writtenFlags.mp hw
      cases flag <;> exact hw
    · exact hb.offsetKey ho

end SearchPattern

namespace Register

/-- What is known of a draft: its parts come from pairs of the map. -/
structure Draft.Backed (known : List Field) (draft : Draft) : Prop where
  contents : ∀ contents, draft.contents = some contents →
    contents.length < 2 ^ 32 ∧ (∀ line ∈ contents, line.length < 2 ^ 32) ∧ .contents ∈ known
  typeKey : draft.register.type ≠ .charWise → .type ∈ known
  widthKey : draft.register.width ≠ 0 → .width ∈ known
  unnamedKey : draft.register.isUnnamed = true → .isUnnamed ∈ known

theorem fits_lines {depth : Nat} {values : List Value} {lines : List Bytes}
    (h : values.mapM (string "rc") = (.ok lines : Schema.Reading _))
    (hv : ∀ value ∈ values, value.Fits depth) : ∀ line ∈ lines, line.length < 2 ^ 32 := by
  intro line hl
  obtain ⟨value, hm, hline⟩ := Results.mem_of_mapM h hl
  exact (string_eq_ok_iff.mp hline).length_lt (hv value hm)

theorem Draft.Backed.put {known : List Field} {draft draft' : Draft} {field : Field} {v : Value}
    (h : draft.Backed known) (depth : Nat) (hk : field ∈ known) (hv : v.Fits (depth + 2))
    (hp : draft.put field v = .ok draft') : draft'.Backed known := by
  cases field with
  | contents =>
    obtain ⟨values, hvalues, hp⟩ := Results.bind_eq_ok_iff.mp hp
    obtain ⟨lines, hl, hp⟩ := Results.bind_eq_ok_iff.mp hp
    cases Except.ok.inj hp
    obtain ⟨hn, hf⟩ := fits_items hvalues hv
    have hlen := (Results.mapM_eq_ok_iff.mp hl).length_eq
    refine ⟨fun contents hc => ?_, h.typeKey, h.widthKey, h.unnamedKey⟩
    cases Option.some.inj hc
    exact ⟨hlen ▸ hn, fits_lines hl hf, hk⟩
  | type =>
    obtain ⟨id, hid, hp⟩ := Results.bind_eq_ok_iff.mp hp
    split at hp
    · cases Except.ok.inj hp
      exact ⟨h.contents, fun _ => hk, h.widthKey, h.unnamedKey⟩
    · cases hp
  | width =>
    obtain ⟨width, hw, hp⟩ := Results.bind_eq_ok_iff.mp hp
    cases Except.ok.inj hp
    exact ⟨h.contents, h.typeKey, fun _ => hk, h.unnamedKey⟩
  | isUnnamed =>
    obtain ⟨isUnnamed, hu, hp⟩ := Results.bind_eq_ok_iff.mp hp
    cases Except.ok.inj hp
    exact ⟨h.contents, h.typeKey, h.widthKey, fun _ => hk⟩
  | name =>
    obtain ⟨name, hn, hp⟩ := Results.bind_eq_ok_iff.mp hp
    cases Except.ok.inj hp
    exact ⟨h.contents, h.typeKey, h.widthKey, h.unnamedKey⟩

def writtenKeys (r : Register) : List Field :=
  .contents :: optionalKey (r.type ≠ .charWise) .type ++ optionalKey (r.width ≠ 0) .width ++
    optionalKey r.isUnnamed .isUnnamed

theorem length_fields (r : Register) : r.fields.length = r.writtenKeys.length + 1 := by
  simp only [fields, writtenKeys, List.length_append, List.length_cons, length_optionalPair,
    length_optionalKey, List.length_nil]

theorem nodup_writtenKeys (r : Register) : r.writtenKeys.Nodup := by
  unfold writtenKeys optionalKey
  split <;> split <;> split <;> simp

/-- A register that is understood can be stored if it does not outgrow the format by its name. -/
theorem storable_of_ofValue {v : Value} {r : Register} (hv : v.Fits Value.depthBudget)
    (h : ofValue v = .ok r) :
    r.fields.length + r.additional.length ≤ v.width + 1 ∧
      (r.fields.length + r.additional.length < 2 ^ 32 → r.Storable) := by
  obtain ⟨pairs, hpairs, h⟩ := Results.bind_eq_ok_iff.mp h
  obtain ⟨draft, hfold, h⟩ := Results.bind_eq_ok_iff.mp h
  obtain ⟨-, hf⟩ := fits_pairs hpairs hv
  have hb : draft.Backed (knownKeys keys pairs) :=
    foldPairs_invariant (P := Draft.Backed (knownKeys keys pairs))
      (fun hm hk hs hp => hs.put 1020 (mem_knownKeys hm hk) (hf _ hm).2 hp)
      ⟨by simp, by simp, by simp, by simp⟩ hfold
  have hw : v.width = pairs.length := by
    cases v <;> cases hpairs
    rfl
  split at h
  · cases h
  · cases h
  · next contents hne hc =>
    cases Except.ok.inj h
    obtain ⟨hn, hl, hkey⟩ := hb.contents contents hc
    refine ⟨?_, fun hsize => ⟨hne, hn, hl, hf.unknownPairs hsize⟩⟩
    rw [length_fields, hw, Nat.add_right_comm]
    refine Nat.succ_le_succ (length_fields_le (nodup_writtenKeys _) fun k hk => ?_)
    simp only [writtenKeys, List.mem_append, List.mem_cons, mem_optionalKey,
      decide_eq_true_eq] at hk
    rcases hk with ((rfl | ⟨ht, rfl⟩) | ⟨hw, rfl⟩) | ⟨hu, rfl⟩
    · exact hkey
    · exact hb.typeKey ht
    · exact hb.widthKey hw
    · exact hb.unnamedKey hu

end Register

theorem Header.storable_of_ofValue {v : Value} {header : Header} (hv : v.Fits Value.depthBudget)
    (h : ofValue v = .ok header) : header.Storable := by
  obtain ⟨fields, hfields, h⟩ := Results.bind_eq_ok_iff.mp h
  cases Except.ok.inj h
  obtain ⟨hn, hf⟩ := fits_pairs hfields hv
  exact ⟨by simpa using hn, fun _ _ => by simp [keyIn], fun pair hp => (hf pair hp).1,
    fun pair hp => (hf pair hp).2⟩

theorem Replacement.storable_of_ofValue {v : Value} {r : Replacement}
    (hv : v.Fits Value.depthBudget) (h : ofValue v = .ok r) : r.Storable := by
  obtain ⟨first, rfl, ht⟩ := ofValue_eq_ok_iff.mp h
  obtain ⟨hn, hf⟩ := fits_array hv
  obtain ⟨hfirst, hrest⟩ := List.forall_mem_cons.mp hf
  exact ⟨ht.length_lt hfirst, by simpa [Nat.add_comm] using hn, hrest⟩

theorem Variable.storable_of_ofValue {v : Value} {found : Variable} (hv : v.Fits Value.depthBudget)
    (h : ofValue v = .ok found) : found.Storable := by
  obtain ⟨first, rfl, hname⟩ := ofValue_eq_ok_iff.mp h
  obtain ⟨hn, hf⟩ := fits_array hv
  obtain ⟨hfirst, hrest⟩ := List.forall_mem_cons.mp hf
  obtain ⟨hvalue, hadditional⟩ := List.forall_mem_cons.mp hrest
  have hsize : 2 + found.additional.length < 2 ^ 32 := by
    simp only [List.length_cons] at hn
    omega
  exact ⟨hname.length_lt hfirst, hvalue, hsize, hadditional⟩

namespace HistoryItem

namespace Follows

variable {type : HistoryType} {rest : List Value} {separator : Option Char}
  {additional : ExtraItems}

theorem sublist (h : Follows type rest separator additional) : additional.Sublist rest := by
  cases h with
  | separator => exact List.sublist_cons_self ..
  | bare | other => exact List.Sublist.refl _

/-- The separator and the additional elements are all that was there. -/
theorem length_eq (h : Follows type rest separator additional) :
    rest.length = separator.toList.length + additional.length := by
  cases h <;> simp [Nat.add_comm]

theorem separator_eq_none (h : Follows type rest separator additional) (ht : type ≠ .search) :
    separator = none := by
  cases h with
  | separator => exact absurd rfl ht
  | bare | other => rfl

theorem additional_eq_nil (h : Follows type rest none additional) (ht : type = .search) :
    additional = [] := by
  cases h with
  | bare => rfl
  | other hne => exact absurd ht hne

end Follows

theorem storable_of_ofValue {v : Value} {item : HistoryItem} (hv : v.Fits Value.depthBudget)
    (h : ofValue v = .ok item) : item.Storable := by
  obtain ⟨-, ht, hr⟩ := ofValue_eq_ok_iff.mp h
  obtain ⟨hn, hf⟩ := fits_array hv
  obtain ⟨hsecond, hrest⟩ := List.forall_mem_cons.mp (List.forall_mem_cons.mp hf).2
  have hlength := hr.length_eq
  refine ⟨ht.length_lt hsecond, hr.separator_eq_none,
    ⟨?_, fun i hi => hrest i (hr.sublist.subset hi)⟩, ?_⟩
  · simp only [List.length_cons] at hn
    dsimp only
    omega
  · rintro hsearch rfl
    exact hr.additional_eq_nil hsearch

end HistoryItem

theorem Buffer.storable_of_ofValue {v : Value} {b : Buffer} (hv : v.Fits partDepth)
    (h : ofValue v = .ok b) : b.Storable := by
  obtain ⟨pairs, hpairs, h⟩ := Results.bind_eq_ok_iff.mp h
  obtain ⟨mark, hm, h⟩ := Results.bind_eq_ok_iff.mp h
  cases Except.ok.inj h
  obtain ⟨hn, hf⟩ := fits_pairs hpairs hv
  have hs := Mark.storable_of_ofPairs hn hf hm
  exact ⟨hs.lnum, hs.file, fun _ => rfl, hs.extra⟩

theorem Mark.storable_of_ofValue {named : Bool} {v : Value} {mark : Mark}
    (hv : v.Fits Value.depthBudget) (h : ofValue named v = .ok mark) :
    mark.Storable named partDepth := by
  obtain ⟨pairs, hpairs, h⟩ := Results.bind_eq_ok_iff.mp h
  obtain ⟨hn, hf⟩ := fits_pairs hpairs hv
  exact storable_of_ofPairs hn hf h

namespace Content

/-- Whether a register has room for its name. -/
def HasRoom : Content → Prop
  | .register r => r.fields.length + r.additional.length < 2 ^ 32
  | _ => True

/-- Content that is understood can be stored, if a register is not the largest of all. -/
theorem storable_of_ofValue {kind : Kind} {v : Value} {content : Content}
    (hv : v.Fits Value.depthBudget) (h : ofValue kind v = .ok content) (hr : content.HasRoom) :
    content.Storable := by
  cases kind with
  | header =>
    obtain ⟨header, hh, rfl⟩ := Results.map_eq_ok_iff.mp h
    exact Header.storable_of_ofValue hv hh
  | searchPattern =>
    obtain ⟨p, hp, rfl⟩ := Results.map_eq_ok_iff.mp h
    exact SearchPattern.storable_of_ofValue hv hp
  | replacement =>
    obtain ⟨r, hv', rfl⟩ := Results.map_eq_ok_iff.mp h
    exact Replacement.storable_of_ofValue hv hv'
  | history =>
    obtain ⟨item, hi, rfl⟩ := Results.map_eq_ok_iff.mp h
    exact HistoryItem.storable_of_ofValue hv hi
  | register =>
    obtain ⟨r, hv', rfl⟩ := Results.map_eq_ok_iff.mp h
    exact (Register.storable_of_ofValue hv hv').2 hr
  | «variable» =>
    obtain ⟨found, hf, rfl⟩ := Results.map_eq_ok_iff.mp h
    exact Variable.storable_of_ofValue hv hf
  | globalMark | jump | localMark | change =>
    obtain ⟨mark, hm, rfl⟩ := Results.map_eq_ok_iff.mp h
    exact Mark.storable_of_ofValue hv hm
  | bufferList =>
    obtain ⟨found, hfound, h⟩ := Results.bind_eq_ok_iff.mp h
    obtain ⟨buffers, hbuffers, h⟩ := Results.bind_eq_ok_iff.mp h
    cases Except.ok.inj h
    obtain ⟨hn, hf⟩ := fits_items hfound hv
    refine ⟨(Results.mapM_eq_ok_iff.mp hbuffers).length_eq ▸ hn, fun b hb => ?_⟩
    obtain ⟨value, hm, hb⟩ := Results.mem_of_mapM hbuffers hb
    exact Buffer.storable_of_ofValue (hf value hm) hb
  | unknown => cases h

/-- Only a register can outgrow the payload that it was read from, and that by one pair. -/
theorem hasRoom_of_ofValue {kind : Kind} {v : Value} {content : Content}
    (hv : v.Fits Value.depthBudget) (h : ofValue kind v = .ok content) (hw : v.width + 1 < 2 ^ 32) :
    content.HasRoom := by
  cases kind with
  | register =>
    obtain ⟨r, hr, rfl⟩ := Results.map_eq_ok_iff.mp h
    exact Nat.lt_of_le_of_lt (Register.storable_of_ofValue hv hr).1 hw
  | bufferList =>
    obtain ⟨found, hfound, h⟩ := Results.bind_eq_ok_iff.mp h
    obtain ⟨buffers, hbuffers, h⟩ := Results.bind_eq_ok_iff.mp h
    cases Except.ok.inj h
    trivial
  | unknown => cases h
  | _ =>
    obtain ⟨_, -, rfl⟩ := Results.map_eq_ok_iff.mp h
    trivial

/-- What has a payload has room for it. -/
theorem hasRoom_of_encode {content : Content} {payload : Bytes} (h : content.encode = .ok payload) :
    content.HasRoom := by
  cases content with
  | register r =>
    obtain ⟨n, hn, -⟩ := Results.bind_eq_ok_iff.mp h
    have hsize := Encoding.lt_of_size hn
    simp only [List.length_append, List.length_cons, Encoding.length_optional] at hsize
    show r.fields.length + r.additional.length < 2 ^ 32
    simp only [Register.fields, List.length_append, List.length_cons, Schema.length_optionalPair]
    exact hsize
  | _ => trivial

theorem hasRoom_stored {content : Content} : content.stored.HasRoom ↔ content.HasRoom := by
  cases content with
  | register r =>
    show r.fields.length + r.additional.stored.length < 2 ^ 32 ↔
      r.fields.length + r.additional.length < 2 ^ 32
    rw [ExtraPairs.length_stored]
  | _ => exact Iff.rfl

end Content

end SessionStore
