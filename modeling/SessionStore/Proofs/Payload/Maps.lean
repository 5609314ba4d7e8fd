import SessionStore.Proofs.Payload.Patterns
import SessionStore.Proofs.Payload.Registers
import SessionStore.Proofs.Payload.Shapes

/-! The schemas of marks, search patterns and registers: what a map has to hold,
and what it then describes. -/
namespace SessionStore

open Msgpack (Value)
open Schema

/-- A reading succeeds exactly if something conforms, and then with the one
thing that is described. -/
structure Schema.Accepts {α : Type} (reading : Reading α) (Conforms : Prop) (Describes : α → Prop) :
    Prop where
  succeeds : (∃ a, reading = .ok a) ↔ Conforms
  describes : ∀ {a}, reading = .ok a → Describes a
  unique : ∀ {a b}, Describes a → Describes b → a = b

theorem Schema.Accepts.eq_ok_iff {α : Type} {reading : Reading α} {Conforms : Prop}
    {Describes : α → Prop} (h : Accepts reading Conforms Describes) {a : α} : reading = .ok a ↔
      Conforms ∧ Describes a := by
  constructor
  · exact fun ha => ⟨h.succeeds.mp ⟨a, ha⟩, h.describes ha⟩
  · rintro ⟨hc, ha⟩
    obtain ⟨b, hb⟩ := h.succeeds.mpr hc
    rw [hb, h.unique ha (h.describes hb)]

namespace Mark

def requirements (named : Bool) : Requirements :=
  [("f", fun v => ∃ file, v.IsText file), ("l", fun v => ∃ lnum, v.IsLine lnum),
    ("c", fun v => ∃ col, v.IsUnsigned col)] ++
    if named then [("n", fun v => ∃ name, v.IsCharacter name)] else []

/-- The file has to be there. -/
def Conforms (named : Bool) (pairs : List (Value × Value)) : Prop :=
  (requirements named).Met pairs ∧ valuesAt "f" pairs ≠ []

structure Describes (named : Bool) (pairs : List (Value × Value)) (mark : Mark) : Prop where
  file : LastIs Value.IsText "f" pairs mark.file.bytes
  lnum : Latest Value.IsLine "l" 1 pairs mark.lnum
  col : Latest Value.IsUnsigned "c" 0 pairs mark.col
  name : if named then Latest Value.IsCharacter "n" defaultName pairs mark.name
    else mark.name = defaultName
  additional : mark.additional = (requirements named).others pairs

theorem Describes.unique {named : Bool} {pairs : List (Value × Value)} {m₁ m₂ : Mark}
    (h₁ : Describes named pairs m₁) (h₂ : Describes named pairs m₂) : m₁ = m₂ := by
  have hfile := h₁.file.unique rightUnique_isText h₂.file
  have hlnum := h₁.lnum.unique rightUnique_isLine h₂.lnum
  have hcol := h₁.col.unique rightUnique_isUnsigned h₂.col
  have hname : m₁.name = m₂.name := by
    cases named with
    | true => exact Latest.unique rightUnique_isCharacter h₁.name h₂.name
    | false => exact h₁.name.trans h₂.name.symm
  have hadditional := h₁.additional.trans h₂.additional.symm
  obtain ⟨⟨file⟩, lnum, col, name, additional⟩ := m₁
  cases hfile
  cases hlnum
  cases hcol
  cases hname
  cases hadditional
  rfl

abbrev Field.Holds : Field → Type
  | .file => Bytes
  | .lnum | .col => UInt64
  | .name => Char

def Field.Is : (field : Field) → Value → field.Holds → Prop
  | .file => Value.IsText
  | .lnum => Value.IsLine
  | .col => Value.IsUnsigned
  | .name => Value.IsCharacter

def Draft.set (draft : Draft) : (field : Field) → field.Holds → Draft
  | .file, file => { draft with file := some file }
  | .lnum, lnum => { draft with mark := { draft.mark with lnum } }
  | .col, col => { draft with mark := { draft.mark with col } }
  | .name, name => { draft with mark := { draft.mark with name } }

theorem requirements_eq (named : Bool) :
    requirements named = Schema.requirements (keys named) Field.Is := by
  cases named <;> rfl

theorem takes (named : Bool) : Takes (keys named) Draft.put Field.Is Draft.set where
  names := by cases named <;> decide
  fields := by cases named <;> simp [keys]
  put_eq_ok_iff {_ _ field _} := by
    cases field <;>
      simp only [Draft.put, Results.bind_eq_ok_iff, Results.pure_eq_ok, Except.ok.injEq,
        string_eq_ok_iff, lineNumber_eq_ok_iff, column_eq_ok_iff, character_eq_ok_iff,
          Field.Is, Draft.set]

theorem part_file : Part Draft.set .file Draft.file some where
  self _ _ := rfl
  other {_ field} _ h := by cases field <;> first | rfl | exact absurd rfl h

theorem part_lnum : Part Draft.set .lnum (fun draft => draft.mark.lnum) id where
  self _ _ := rfl
  other {_ field} _ h := by cases field <;> first | rfl | exact absurd rfl h

theorem part_col : Part Draft.set .col (fun draft => draft.mark.col) id where
  self _ _ := rfl
  other {_ field} _ h := by cases field <;> first | rfl | exact absurd rfl h

theorem part_name : Part Draft.set .name (fun draft => draft.mark.name) id where
  self _ _ := rfl
  other {_ field} _ h := by cases field <;> first | rfl | exact absurd rfl h

theorem ofPairs_eq_ok_iff {named : Bool} {pairs : List (Value × Value)} {mark : Mark} :
    ofPairs named pairs = .ok mark ↔
      ∃ draft file, foldPairs (keys named) Draft.put {} pairs = .ok draft ∧ draft.file = some file ∧
      { draft.mark with file := ⟨file⟩, additional := unknownPairs (keys named) pairs } = mark := by
  unfold ofPairs
  rw [Results.bind_eq_ok_iff]
  refine exists_congr fun draft => ?_
  cases draft.file <;> simp

theorem accepts (named : Bool) (pairs : List (Value × Value)) :
    Accepts (ofPairs named pairs) (Conforms named pairs) (Describes named pairs) where
  succeeds := by
    unfold Conforms
    rw [requirements_eq, ← (takes named).exists_seen_iff part_file "f" (by simp [keys])
      (show ({} : Draft).file = none from rfl)]
    constructor
    · rintro ⟨mark, hm⟩
      obtain ⟨draft, file, hfold, hfile, -⟩ := ofPairs_eq_ok_iff.mp hm
      exact ⟨draft, file, hfold, hfile⟩
    · rintro ⟨draft, file, hfold, hfile⟩
      exact ⟨_, ofPairs_eq_ok_iff.mpr ⟨draft, file, hfold, hfile, rfl⟩⟩
  describes {mark} hm := by
    obtain ⟨draft, file, hfold, hfile, rfl⟩ := ofPairs_eq_ok_iff.mp hm
    have h := takes named
    have hname : if named then Latest Value.IsCharacter "n" defaultName pairs draft.mark.name
        else draft.mark.name = defaultName := by
      cases named with
      | true => exact h.latest part_name "n" (by simp [keys]) hfold
      | false => exact h.get_foldPairs part_name hfold (by simp [keys])
    exact
      { file := h.lastIs part_file "f" (by simp [keys]) rfl hfold hfile
        lnum := h.latest part_lnum "l" (by simp [keys]) hfold
        col := h.latest part_col "c" (by simp [keys]) hfold
        name := hname
        additional := by rw [requirements_eq, others_requirements] }
  unique h₁ h₂ := h₁.unique h₂

end Mark

namespace Buffer

/-- An open file is described like a place without name. -/
def Describes (v : Value) (b : Buffer) : Prop :=
  ∃ pairs, v = .map pairs ∧ Mark.Describes false pairs b.mark

theorem ofValue_eq_ok_iff {v : Value} {b : Buffer} :
    ofValue v = .ok b ↔ ∃ pairs, v = .map pairs ∧ Mark.ofPairs false pairs = .ok b.mark := by
  unfold ofValue
  simp only [Results.bind_eq_ok_iff, pairs_eq_ok_iff, Results.pure_eq_ok]
  refine exists_congr fun pairs => and_congr_right fun _ => ?_
  constructor
  · rintro ⟨mark, hm, hb⟩
    cases Except.ok.inj hb
    have hname : mark.name = defaultName := ((Mark.accepts false pairs).describes hm).name
    obtain ⟨file, lnum, col, name, additional⟩ := mark
    cases hname
    exact hm
  · exact fun hm => ⟨_, hm, rfl⟩

theorem accepts (v : Value) :
    Accepts (ofValue v) (∃ pairs, v = .map pairs ∧ Mark.Conforms false pairs) (Describes v) where
  succeeds := by
    constructor
    · rintro ⟨b, hb⟩
      obtain ⟨pairs, rfl, hm⟩ := ofValue_eq_ok_iff.mp hb
      exact ⟨pairs, rfl, (Mark.accepts false pairs).succeeds.mp ⟨_, hm⟩⟩
    · rintro ⟨pairs, rfl, hc⟩
      obtain ⟨mark, hm⟩ := (Mark.accepts false pairs).succeeds.mpr hc
      exact ⟨_, by rw [ofValue, Schema.pairs, Results.ok_bind, hm]; rfl⟩
  describes hb := by
    obtain ⟨pairs, rfl, hm⟩ := ofValue_eq_ok_iff.mp hb
    exact ⟨pairs, rfl, (Mark.accepts false pairs).describes hm⟩
  unique {b₁ b₂} := by
    rintro ⟨pairs, rfl, h₁⟩ ⟨_, he, h₂⟩
    cases he
    have hmark : b₁.mark = b₂.mark := h₁.unique h₂
    obtain ⟨file, lnum, col, additional⟩ := b₁
    cases hmark
    rfl

end Buffer

namespace SearchPattern

def requirements : Requirements :=
  [("sp", fun v => ∃ pattern, v.IsText pattern), ("so", fun v => ∃ offset, v.IsSigned offset),
    ("sm", fun v => ∃ b, v.IsFlag b), ("sc", fun v => ∃ b, v.IsFlag b),
      ("sl", fun v => ∃ b, v.IsFlag b),
    ("se", fun v => ∃ b, v.IsFlag b), ("su", fun v => ∃ b, v.IsFlag b),
      ("ss", fun v => ∃ b, v.IsFlag b),
    ("sh", fun v => ∃ b, v.IsFlag b), ("sb", fun v => ∃ b, v.IsFlag b)]

/-- The pattern text has to be there. -/
def Conforms (pairs : List (Value × Value)) : Prop :=
  requirements.Met pairs ∧ valuesAt "sp" pairs ≠ []

structure Describes (pairs : List (Value × Value)) (p : SearchPattern) : Prop where
  pattern : LastIs Value.IsText "sp" pairs p.pattern
  magic : Latest Value.IsFlag "sm" true pairs p.magic
  smartcase : Latest Value.IsFlag "sc" false pairs p.smartcase
  hasLineOffset : Latest Value.IsFlag "sl" false pairs p.hasLineOffset
  placesCursorAtEnd : Latest Value.IsFlag "se" false pairs p.placesCursorAtEnd
  offset : Latest Value.IsSigned "so" 0 pairs p.offset
  isLastUsed : Latest Value.IsFlag "su" true pairs p.isLastUsed
  isSubstitute : Latest Value.IsFlag "ss" false pairs p.isSubstitute
  isHighlighted : Latest Value.IsFlag "sh" false pairs p.isHighlighted
  searchesBackward : Latest Value.IsFlag "sb" false pairs p.searchesBackward
  additional : p.additional = requirements.others pairs

theorem Describes.unique {pairs : List (Value × Value)} {p q : SearchPattern}
    (h₁ : Describes pairs p) (h₂ : Describes pairs q) : p = q := by
  refine ext_flag (fun flag => ?_) (h₁.pattern.unique rightUnique_isText h₂.pattern)
    (h₁.offset.unique rightUnique_isSigned h₂.offset) (h₁.additional.trans h₂.additional.symm)
  cases flag with
  | magic => exact h₁.magic.unique rightUnique_isFlag h₂.magic
  | smartcase => exact h₁.smartcase.unique rightUnique_isFlag h₂.smartcase
  | lineOffset => exact h₁.hasLineOffset.unique rightUnique_isFlag h₂.hasLineOffset
  | cursorAtEnd => exact h₁.placesCursorAtEnd.unique rightUnique_isFlag h₂.placesCursorAtEnd
  | lastUsed => exact h₁.isLastUsed.unique rightUnique_isFlag h₂.isLastUsed
  | substitute => exact h₁.isSubstitute.unique rightUnique_isFlag h₂.isSubstitute
  | highlighted => exact h₁.isHighlighted.unique rightUnique_isFlag h₂.isHighlighted
  | backward => exact h₁.searchesBackward.unique rightUnique_isFlag h₂.searchesBackward

abbrev Field.Holds : Field → Type
  | .pattern => Bytes
  | .flag _ => Bool
  | .offset => Int64

def Field.Is : (field : Field) → Value → field.Holds → Prop
  | .pattern => Value.IsText
  | .flag _ => Value.IsFlag
  | .offset => Value.IsSigned

def Draft.set (draft : Draft) : (field : Field) → field.Holds → Draft
  | .pattern, text => { draft with text := some text }
  | .flag flag, b => { draft with pattern := draft.pattern.setFlag flag b }
  | .offset, offset => { draft with pattern := { draft.pattern with offset } }

theorem requirements_eq : requirements = Schema.requirements keys Field.Is := rfl

theorem takes : Takes keys Draft.put Field.Is Draft.set where
  names := by decide
  fields := by simp [keys, PatternFlag.all]
  put_eq_ok_iff {_ _ field _} := by
    cases field <;>
      simp only [Draft.put, Results.bind_eq_ok_iff, Results.pure_eq_ok, Except.ok.injEq,
        string_eq_ok_iff, boolean_eq_ok_iff, signed_eq_ok_iff, Field.Is, Draft.set]

theorem part_text : Part Draft.set .pattern Draft.text some where
  self _ _ := rfl
  other {_ field} _ h := by cases field <;> first | rfl | exact absurd rfl h

theorem part_offset : Part Draft.set .offset (fun draft => draft.pattern.offset) id where
  self _ _ := rfl
  other {_ field} a h := by
    cases field with
    | pattern => rfl
    | flag other => exact offset_setFlag _ other a
    | offset => exact absurd rfl h

theorem part_flag (flag : PatternFlag) :
    Part Draft.set (.flag flag) (fun draft => draft.pattern.flag flag) id where
  self draft b := (flag_setFlag draft.pattern flag flag b).trans (if_pos rfl)
  other {_ field} a h := by
    cases field with
    | pattern => rfl
    | flag other =>
      exact (flag_setFlag _ other flag a).trans (if_neg fun he => h (congrArg Field.flag he.symm))
    | offset => cases flag <;> rfl

theorem ofValue_map_eq_ok_iff {pairs : List (Value × Value)} {p : SearchPattern} :
    ofValue (.map pairs) = .ok p ↔ ∃ draft text, foldPairs keys Draft.put {} pairs = .ok draft ∧
      draft.text = some text ∧
      { draft.pattern with pattern := text, additional := unknownPairs keys pairs } = p := by
  unfold ofValue
  rw [Schema.pairs, Results.ok_bind, Results.bind_eq_ok_iff]
  refine exists_congr fun draft => ?_
  cases draft.text <;> simp

theorem accepts (pairs : List (Value × Value)) :
    Accepts (ofValue (.map pairs)) (Conforms pairs) (Describes pairs) where
  succeeds := by
    unfold Conforms
    rw [requirements_eq, ← takes.exists_seen_iff part_text "sp" (by simp [keys])
      (show ({} : Draft).text = none from rfl)]
    constructor
    · rintro ⟨p, hp⟩
      obtain ⟨draft, text, hfold, htext, -⟩ := ofValue_map_eq_ok_iff.mp hp
      exact ⟨draft, text, hfold, htext⟩
    · rintro ⟨draft, text, hfold, htext⟩
      exact ⟨_, ofValue_map_eq_ok_iff.mpr ⟨draft, text, hfold, htext, rfl⟩⟩
  describes {p} hp := by
    obtain ⟨draft, text, hfold, htext, rfl⟩ := ofValue_map_eq_ok_iff.mp hp
    have hflag (flag : PatternFlag) :
        Latest Value.IsFlag flag.key (({} : SearchPattern).flag flag) pairs
        (draft.pattern.flag flag) :=
      takes.latest (part_flag flag) flag.key (by simp [keys, PatternFlag.mem_all]) hfold
    exact
      { pattern := takes.lastIs part_text "sp" (by simp [keys]) rfl hfold htext
        magic := hflag .magic
        smartcase := hflag .smartcase
        hasLineOffset := hflag .lineOffset
        placesCursorAtEnd := hflag .cursorAtEnd
        offset := takes.latest part_offset "so" (by simp [keys]) hfold
        isLastUsed := hflag .lastUsed
        isSubstitute := hflag .substitute
        isHighlighted := hflag .highlighted
        searchesBackward := hflag .backward
        additional := by rw [requirements_eq, others_requirements] }
  unique h₁ h₂ := h₁.unique h₂

end SearchPattern

namespace Register

/-- The type of a register is a number from 0 to 2. -/
def IsType (v : Value) (type : RegisterType) : Prop := v.IsUnsigned type.id

theorem rightUnique_isType : Relator.RightUnique IsType :=
  fun _ _ _ ha hb => RegisterType.id_injective (rightUnique_isUnsigned ha hb)

def requirements : Requirements :=
  [("rc", fun v => ∃ lines, v.IsTexts lines), ("rt", fun v => ∃ type, IsType v type),
    ("rw", fun v => ∃ width, v.IsUnsigned width), ("ru", fun v => ∃ b, v.IsFlag b),
    ("n", fun v => ∃ name, v.IsCharacter name)]

/-- Contents have to be there, and the last ones have to have a line. -/
def Conforms (pairs : List (Value × Value)) : Prop :=
  requirements.Met pairs ∧ ∃ v, (valuesAt "rc" pairs).getLast? = some v ∧ v ≠ .array []

structure Describes (pairs : List (Value × Value)) (r : Register) : Prop where
  contents : LastIs Value.IsTexts "rc" pairs r.contents
  type : Latest IsType "rt" .charWise pairs r.type
  width : Latest Value.IsUnsigned "rw" 0 pairs r.width
  isUnnamed : Latest Value.IsFlag "ru" false pairs r.isUnnamed
  name : Latest Value.IsCharacter "n" defaultName pairs r.name
  additional : r.additional = requirements.others pairs

theorem Describes.unique {pairs : List (Value × Value)} {r₁ r₂ : Register} (h₁ : Describes pairs r₁)
    (h₂ : Describes pairs r₂) : r₁ = r₂ := by
  have hcontents := h₁.contents.unique rightUnique_isTexts h₂.contents
  have htype := h₁.type.unique rightUnique_isType h₂.type
  have hwidth := h₁.width.unique rightUnique_isUnsigned h₂.width
  have hunnamed := h₁.isUnnamed.unique rightUnique_isFlag h₂.isUnnamed
  have hname := h₁.name.unique rightUnique_isCharacter h₂.name
  have hadditional := h₁.additional.trans h₂.additional.symm
  obtain ⟨name, contents, type, width, isUnnamed, additional⟩ := r₁
  cases hcontents
  cases htype
  cases hwidth
  cases hunnamed
  cases hname
  cases hadditional
  rfl

abbrev Field.Holds : Field → Type
  | .contents => List Bytes
  | .type => RegisterType
  | .width => UInt64
  | .isUnnamed => Bool
  | .name => Char

def Field.Is : (field : Field) → Value → field.Holds → Prop
  | .contents => Value.IsTexts
  | .type => IsType
  | .width => Value.IsUnsigned
  | .isUnnamed => Value.IsFlag
  | .name => Value.IsCharacter

def Draft.set (draft : Draft) : (field : Field) → field.Holds → Draft
  | .contents, lines => { draft with contents := some lines }
  | .type, type => { draft with register := { draft.register with type } }
  | .width, width => { draft with register := { draft.register with width } }
  | .isUnnamed, isUnnamed => { draft with register := { draft.register with isUnnamed } }
  | .name, name => { draft with register := { draft.register with name } }

theorem requirements_eq : requirements = Schema.requirements keys Field.Is := rfl

theorem put_contents_eq_ok_iff {draft next : Draft} {v : Value} :
    draft.put .contents v = .ok next ↔ ∃ lines, v.IsTexts lines ∧
      { draft with contents := some lines } = next := by
  simp only [Draft.put, Results.bind_eq_ok_iff, items_eq_ok_iff, mapM_string_eq_ok_iff,
    Results.pure_eq_ok, Except.ok.injEq, Value.IsTexts]
  constructor
  · rintro ⟨items, hv, lines, hl, hn⟩
    exact ⟨lines, ⟨items, hv, hl⟩, hn⟩
  · rintro ⟨lines, ⟨items, hv, hl⟩, hn⟩
    exact ⟨items, hv, lines, hl, hn⟩

theorem put_type_eq_ok_iff {draft next : Draft} {v : Value} :
    draft.put .type v = .ok next ↔
      ∃ type, IsType v type ∧ { draft with register := { draft.register with type } } = next := by
  simp only [Draft.put, Results.bind_eq_ok_iff, unsigned_eq_ok_iff, IsType]
  constructor
  · rintro ⟨id, hv, hn⟩
    split at hn
    · next type ht =>
      rw [← RegisterType.ofId_eq_some_iff.mp ht] at hv
      exact ⟨type, hv, Except.ok.inj hn⟩
    · cases hn
  · rintro ⟨type, hv, rfl⟩
    refine ⟨type.id, hv, ?_⟩
    rw [RegisterType.ofId_id]
    rfl

theorem takes : Takes keys Draft.put Field.Is Draft.set where
  names := by decide
  fields := by simp [keys]
  put_eq_ok_iff {_ _ field _} := by
    cases field with
    | contents => exact put_contents_eq_ok_iff
    | type => exact put_type_eq_ok_iff
    | _ =>
      simp only [Draft.put, Results.bind_eq_ok_iff, Results.pure_eq_ok, Except.ok.injEq,
        unsigned_eq_ok_iff, boolean_eq_ok_iff, character_eq_ok_iff, Field.Is, Draft.set]

theorem part_contents : Part Draft.set .contents Draft.contents some where
  self _ _ := rfl
  other {_ field} _ h := by cases field <;> first | rfl | exact absurd rfl h

theorem part_type : Part Draft.set .type (fun draft => draft.register.type) id where
  self _ _ := rfl
  other {_ field} _ h := by cases field <;> first | rfl | exact absurd rfl h

theorem part_width : Part Draft.set .width (fun draft => draft.register.width) id where
  self _ _ := rfl
  other {_ field} _ h := by cases field <;> first | rfl | exact absurd rfl h

theorem part_isUnnamed : Part Draft.set .isUnnamed (fun draft => draft.register.isUnnamed) id where
  self _ _ := rfl
  other {_ field} _ h := by cases field <;> first | rfl | exact absurd rfl h

theorem part_name : Part Draft.set .name (fun draft => draft.register.name) id where
  self _ _ := rfl
  other {_ field} _ h := by cases field <;> first | rfl | exact absurd rfl h

theorem ofValue_map_eq_ok_iff {pairs : List (Value × Value)} {r : Register} :
    ofValue (.map pairs) = .ok r ↔ ∃ draft contents, foldPairs keys Draft.put {} pairs = .ok draft ∧
      draft.contents = some contents ∧ contents ≠ [] ∧
      { draft.register with contents, additional := unknownPairs keys pairs } = r := by
  unfold ofValue
  rw [Schema.pairs, Results.ok_bind, Results.bind_eq_ok_iff]
  refine exists_congr fun draft => ?_
  cases draft.contents with
  | none => simp
  | some contents => cases contents <;> simp

/-- Contents have a line if they are not an empty array. -/
theorem ne_nil_iff_of_isTexts {v : Value} {lines : List Bytes} (h : v.IsTexts lines) :
    lines ≠ [] ↔ v ≠ .array [] := by
  obtain ⟨items, rfl, h⟩ := h
  cases h <;> simp

/-- The last contents that are taken in. -/
theorem lastIs_contents {pairs : List (Value × Value)} {draft : Draft} {contents : List Bytes}
    (hfold : foldPairs keys Draft.put {} pairs = .ok draft)
    (hcontents : draft.contents = some contents) :
    LastIs Value.IsTexts "rc" pairs contents :=
  takes.lastIs part_contents "rc" (by simp [keys]) rfl hfold hcontents

theorem exists_contents_iff (pairs : List (Value × Value)) :
    (∃ draft contents, foldPairs keys Draft.put {} pairs = .ok draft ∧
      draft.contents = some contents) ↔ requirements.Met pairs ∧ valuesAt "rc" pairs ≠ [] :=
  takes.exists_seen_iff part_contents "rc" (by simp [keys]) rfl

theorem accepts (pairs : List (Value × Value)) :
    Accepts (ofValue (.map pairs)) (Conforms pairs) (Describes pairs) where
  succeeds := by
    constructor
    · rintro ⟨r, hr⟩
      obtain ⟨draft, contents, hfold, hcontents, hne, -⟩ := ofValue_map_eq_ok_iff.mp hr
      obtain ⟨v, hlast, hv⟩ := lastIs_contents hfold hcontents
      have hmet := (exists_contents_iff pairs).mp ⟨draft, contents, hfold, hcontents⟩
      exact ⟨hmet.1, v, hlast, (ne_nil_iff_of_isTexts hv).mp hne⟩
    · rintro ⟨hmet, v, hlast, hne⟩
      have hthere : valuesAt "rc" pairs ≠ [] := fun he => by
        rw [he] at hlast
        cases hlast
      obtain ⟨draft, contents, hfold, hcontents⟩ := (exists_contents_iff pairs).mpr ⟨hmet, hthere⟩
      obtain ⟨w, hw, hcw⟩ := lastIs_contents hfold hcontents
      cases hlast.symm.trans hw
      have hlines := (ne_nil_iff_of_isTexts hcw).mpr hne
      exact ⟨_, ofValue_map_eq_ok_iff.mpr ⟨draft, contents, hfold, hcontents, hlines, rfl⟩⟩
  describes {r} hr := by
    obtain ⟨draft, contents, hfold, hcontents, -, rfl⟩ := ofValue_map_eq_ok_iff.mp hr
    exact
      { contents := lastIs_contents hfold hcontents
        type := takes.latest part_type "rt" (by simp [keys]) hfold
        width := takes.latest part_width "rw" (by simp [keys]) hfold
        isUnnamed := takes.latest part_isUnnamed "ru" (by simp [keys]) hfold
        name := takes.latest part_name "n" (by simp [keys]) hfold
        additional := by rw [requirements_eq, others_requirements] }
  unique h₁ h₂ := h₁.unique h₂

end Register

end SessionStore
