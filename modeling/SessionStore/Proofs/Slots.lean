import Mathlib.Data.List.Find
import SessionStore.Proofs.Collection.Named
import SessionStore.Proofs.Collection.Table
import SessionStore.Proofs.Merging

/-! What a file holds one thing of, and how a merge keeps the newest of it. -/
namespace SessionStore

open Merge (entriesOf patternEntries)

section Names

def asciiNames (isName : Char → Bool) : List Char := ((List.range 128).map Char.ofNat).filter isName

theorem mem_asciiNames {isName : Char → Bool}
    (h : ∀ n, isName n = true → n.toNat < 128) {n : Char} :
    n ∈ asciiNames isName ↔ isName n = true := by
  unfold asciiNames
  rw [List.mem_filter, and_iff_right_iff_imp]
  intro hn
  exact List.mem_map.mpr ⟨n.toNat, List.mem_range.mpr (h n hn), Char.ofNat_toNat n⟩

theorem toNat_lt_of_le {n : Char} (last : Char) (hl : last.toNat < 128) (h : n.val ≤ last.val) :
    n.toNat < 128 :=
  Nat.lt_of_le_of_lt (UInt32.le_iff_toNat_le.mp h) hl

theorem toNat_lt_of_isLower {n : Char} (h : n.isLower = true) : n.toNat < 128 :=
  toNat_lt_of_le 'z' (by decide) (of_decide_eq_true (Bool.and_eq_true_iff.mp h).2)

theorem toNat_lt_of_isUpper {n : Char} (h : n.isUpper = true) : n.toNat < 128 :=
  toNat_lt_of_le 'Z' (by decide) (of_decide_eq_true h).2

theorem toNat_lt_of_isDigit {n : Char} (h : n.isDigit = true) : n.toNat < 128 :=
  toNat_lt_of_le '9' (by decide) (of_decide_eq_true (Bool.and_eq_true_iff.mp h).2)

theorem mem_registerNames {n : Char} : n ∈ asciiNames isRegisterName ↔ isRegisterName n = true := by
  apply mem_asciiNames
  intro n h
  simp only [isRegisterName, Bool.or_eq_true, List.contains_cons, List.contains_nil, Bool.or_false,
    beq_iff_eq] at h
  rcases h with (h | h) | rfl | rfl | rfl | rfl
  · exact toNat_lt_of_isLower h
  · exact toNat_lt_of_isDigit h
  all_goals decide

theorem mem_globalMarkNames {n : Char} :
    n ∈ asciiNames isGlobalMarkName ↔ isGlobalMarkName n = true := by
  apply mem_asciiNames
  intro n h
  rcases Bool.or_eq_true_iff.mp h with h | h
  · exact toNat_lt_of_isUpper h
  · exact toNat_lt_of_isDigit h

theorem registerNames_fit : (asciiNames isRegisterName).length ≤ registerCapacity := by decide

theorem globalMarkNames_fit : (asciiNames isGlobalMarkName).length ≤ globalMarkCapacity := by decide

end Names

/-- What a file holds at most one thing of. -/
inductive Slot where
  | pattern (substitute : Bool)
  | replacement
  | register (name : Char)
  | globalMark (name : Char)
  deriving DecidableEq

namespace Slot

def kind : Slot → Kind
  | .pattern _ => .searchPattern
  | .replacement => .replacement
  | .register _ => .register
  | .globalMark _ => .globalMark

/-- Registers and global marks must have a name that is meant for them. -/
def IsValid : Slot → Prop
  | .pattern _ | .replacement => True
  | .register name => isRegisterName name = true
  | .globalMark name => isGlobalMarkName name = true

def IsKept (settings : Settings) : Slot → Prop
  | .globalMark _ => settings.globalMarks = true
  | _ => True

theorem isKept {settings : Settings} (hg : settings.globalMarks = true) (slot : Slot) :
    slot.IsKept settings := by
  cases slot with
  | globalMark name => exact hg
  | _ => exact trivial

end Slot

def Content.slot? : Content → Option Slot
  | .searchPattern p => some (.pattern p.isSubstitute)
  | .replacement _ => some .replacement
  | .register r => some (.register r.name)
  | .globalMark mark => some (.globalMark mark.name)
  | _ => none

theorem Content.kind_of_slot? {content : Content} {slot : Slot} (h : content.slot? = some slot) :
    content.kind = slot.kind := by
  cases content with
  | searchPattern | replacement | register | globalMark => exact Option.some.inj h ▸ rfl
  | _ => cases h

namespace Entry

def of {α : Type} (content : α → Content) (item : Timed α) : Entry :=
  ⟨item.timestamp, content item.value⟩

/-- A pattern as it is written for a slot. -/
def ofPattern (substitute : Bool) : Timed SearchPattern → Entry :=
  of fun p => .searchPattern { p with isSubstitute := substitute }

/-- The newer of two entries, the first one on a tie. -/
def keepNewer (held : Option Entry) (incoming : Entry) : Option Entry :=
  if held.all (·.timestamp < incoming.timestamp) then some incoming else held

def inSlot (slot : Slot) (entries : List Entry) : List Entry :=
  entries.filter (·.content.slot? = some slot)

theorem map_keepNewer {α : Type} (content : α → Content) (held : Option (Timed α))
    (item : Timed α) :
    (Timed.keepNewer held item).map (of content) =
      keepNewer (held.map (of content)) (of content item) := by
  unfold Timed.keepNewer keepNewer of
  rw [Option.all_map]
  split <;> rfl

end Entry

def Session.held? (session : Session) : Slot → Option Entry
  | .pattern substitute => (session.pattern substitute).map (.ofPattern substitute)
  | .replacement => session.replacement.map (.of .replacement)
  | .register name => (session.registers.find? name).map (.of .register)
  | .globalMark name => (session.globalMarks.find? name).map (.of .globalMark)

namespace Merge

def held? (m : Merge) : Slot → Option Entry
  | .pattern false => m.searchPattern.map (.ofPattern false)
  | .pattern true => m.substitutePattern.map (.ofPattern true)
  | .replacement => m.replacement.map (.of .replacement)
  | .register name => (m.registers.named? Register.name name).map (.of .register)
  | .globalMark name => (m.globalMarks.named? Mark.name name).map (.of .globalMark)

/-- The registers and global marks of a merge have names that are meant for
them, and there is room for all. -/
structure SlotsFit (m : Merge) : Prop where
  registers : m.registers.OnePerName Register.name (asciiNames isRegisterName)
  globalMarks : m.globalMarks.OnePerName Mark.name (asciiNames isGlobalMarkName)

variable {settings : Settings} {m : Merge}

/-- Items of other names are left out; then a collection still has room for every name. -/
theorem onePerName_insert {α : Type} {same : α → α → Bool} {name : α → Char} {isName : Char → Bool}
    {c : Bounded α same} (hsame : ∀ a b, same a b = true ↔ name a = name b)
    (hnames : ∀ {n}, n ∈ asciiNames isName ↔ isName n = true)
    (h : c.OnePerName name (asciiNames isName)) (item : Timed α) {kept : Bool}
    (hk : kept = isName (name item.value)) :
    (if kept then (c.insert item).1 else c).OnePerName name (asciiNames isName) ∧
      ∀ n, isName n = true → (if kept then (c.insert item).1 else c).named? name n =
        if name item.value = n then Timed.keepNewer (c.named? name n) item
        else c.named? name n := by
  subst hk
  by_cases hn : isName (name item.value) = true
  · obtain ⟨hinsert, hnamed⟩ := h.insert hsame (hnames.mpr hn)
    rw [if_pos hn]
    exact ⟨hinsert, fun n _ => hnamed n⟩
  · rw [if_neg hn]
    refine ⟨h, fun n hvalid => ?_⟩
    have hne : name item.value ≠ n := fun he => hn (he ▸ hvalid)
    rw [if_neg hne]

section Absorb

variable (timestamp : Timestamp)

theorem held?_absorb_pattern (p : SearchPattern) (slot : Slot) :
    (m.absorb settings ⟨timestamp, .searchPattern p⟩).held? slot =
      if slot = .pattern p.isSubstitute then
      Entry.keepNewer (m.held? slot) ⟨timestamp, .searchPattern p⟩
      else m.held? slot := by
  have hentry : Entry.ofPattern p.isSubstitute ⟨timestamp, p⟩ = ⟨timestamp, .searchPattern p⟩ := rfl
  unfold Merge.absorb
  dsimp only
  by_cases hs : p.isSubstitute
  · rw [if_pos hs, ← hentry, hs]
    cases slot with
    | pattern substitute =>
      cases substitute with
      | false => rfl
      | true => exact Entry.map_keepNewer _ m.substitutePattern ⟨timestamp, p⟩
    | _ => rfl
  · rw [if_neg hs, ← hentry, Bool.eq_false_iff.mpr hs]
    cases slot with
    | pattern substitute =>
      cases substitute with
      | false => exact Entry.map_keepNewer _ m.searchPattern ⟨timestamp, p⟩
      | true => rfl
    | _ => rfl

variable {timestamp} in
theorem Step.held?_of_ne {content : Content} {slot : Slot} {m' : Merge}
    (hstep : Step settings m timestamp content m') (h : content.kind ≠ slot.kind) :
    m'.held? slot = m.held? slot := by
  cases hstep with
  | passed => rfl
  | history | globalVariable | jump | localMark | change | unknown => cases slot <;> rfl
  | searchPattern | substitutePattern | replacement | register | globalMark =>
    rcases slot with (_ | _) | _ | _ | _
    all_goals first
      | exact absurd rfl h
      | rfl

variable (hr : settings.removable = []) (h : m.SlotsFit)
include h

variable (settings) in
theorem SlotsFit.registers_absorb (r : Register) :
    (m.absorb settings ⟨timestamp, .register r⟩).SlotsFit ∧
      ∀ n, isRegisterName n = true →
      (m.absorb settings ⟨timestamp, .register r⟩).held? (.register n) =
        if r.name = n then Entry.keepNewer (m.held? (.register n)) ⟨timestamp, .register r⟩
        else m.held? (.register n) := by
  obtain ⟨hone, hnamed⟩ :=
    onePerName_insert Register.sameName_iff mem_registerNames h.registers ⟨timestamp, r⟩ rfl
  have hregisters := Merge.registers_absorb settings m ⟨timestamp, .register r⟩
  have hmarks := Merge.globalMarks_absorb settings m ⟨timestamp, .register r⟩
  dsimp only at hregisters hmarks hone hnamed
  rw [← hregisters] at hone
  refine ⟨⟨hone, hmarks ▸ h.globalMarks⟩, fun n hn => ?_⟩
  have hfound := hnamed n hn
  rw [← hregisters] at hfound
  show (Bounded.named? Register.name _ n).map _ = _
  rw [hfound]
  by_cases hname : r.name = n
  · rw [if_pos hname, if_pos hname, Entry.map_keepNewer]
    rfl
  · rw [if_neg hname, if_neg hname]
    rfl

include hr

theorem SlotsFit.globalMarks_absorb (mark : Mark) :
    (m.absorb settings ⟨timestamp, .globalMark mark⟩).SlotsFit ∧
      ∀ n, isGlobalMarkName n = true → settings.globalMarks = true →
        (m.absorb settings ⟨timestamp, .globalMark mark⟩).held? (.globalMark n) =
        if mark.name = n then
        Entry.keepNewer (m.held? (.globalMark n)) ⟨timestamp, .globalMark mark⟩
        else m.held? (.globalMark n) := by
  by_cases hg : settings.globalMarks = true
  case neg =>
    have hstep := Merge.absorb_step settings m ⟨timestamp, .globalMark mark⟩
    rw [hstep.eq_of_passes (.inl (Bool.eq_false_iff.mpr hg))]
    exact ⟨h, fun _ _ hon => absurd hon hg⟩
  have hkept : (settings.globalMarks && isGlobalMarkName mark.name &&
      !settings.isRemovable mark.file) = isGlobalMarkName mark.name := by
    simp [hg, Settings.isRemovable, hr]
  obtain ⟨hone, hnamed⟩ :=
    onePerName_insert Mark.sameName_iff mem_globalMarkNames h.globalMarks ⟨timestamp, mark⟩ hkept
  have hregisters := Merge.registers_absorb settings m ⟨timestamp, .globalMark mark⟩
  have hmarks := Merge.globalMarks_absorb settings m ⟨timestamp, .globalMark mark⟩
  dsimp only at hregisters hmarks hone hnamed
  rw [← hmarks] at hone
  refine ⟨⟨hregisters ▸ h.registers, hone⟩, fun n hn _ => ?_⟩
  have hfound := hnamed n hn
  rw [← hmarks] at hfound
  show (Bounded.named? Mark.name _ n).map _ = _
  rw [hfound]
  by_cases hname : mark.name = n
  · rw [if_pos hname, if_pos hname, Entry.map_keepNewer]
    rfl
  · rw [if_neg hname, if_neg hname]
    rfl

end Absorb

/-- Of a valid slot, a merge keeps the newer one of what it has and what comes. -/
theorem SlotsFit.absorb (hr : settings.removable = []) (h : m.SlotsFit) (entry : Entry) :
    (m.absorb settings entry).SlotsFit ∧ ∀ slot, slot.IsValid → slot.IsKept settings →
      (m.absorb settings entry).held? slot =
        if entry.content.slot? = some slot then Entry.keepNewer (m.held? slot) entry
        else m.held? slot := by
  obtain ⟨timestamp, content⟩ := entry
  have hsame (hregisters : (m.absorb settings ⟨timestamp, content⟩).registers = m.registers)
      (hmarks : (m.absorb settings ⟨timestamp, content⟩).globalMarks = m.globalMarks) :
      (m.absorb settings ⟨timestamp, content⟩).SlotsFit :=
    ⟨hregisters ▸ h.registers, hmarks ▸ h.globalMarks⟩
  have hother {slot : Slot} (hk : content.kind ≠ slot.kind) :
      (m.absorb settings ⟨timestamp, content⟩).held? slot =
        if content.slot? = some slot then Entry.keepNewer (m.held? slot) ⟨timestamp, content⟩
        else m.held? slot := by
    have hne : content.slot? ≠ some slot := fun hs => hk (Content.kind_of_slot? hs)
    rw [if_neg hne, (Merge.absorb_step settings m ⟨timestamp, content⟩).held?_of_ne hk]
  cases content with
  | searchPattern p =>
    refine ⟨hsame (Merge.registers_absorb ..) (Merge.globalMarks_absorb ..), fun slot _ _ => ?_⟩
    rw [held?_absorb_pattern]
    simp [Content.slot?, eq_comm]
  | replacement r =>
    refine ⟨hsame (Merge.registers_absorb ..) (Merge.globalMarks_absorb ..), fun slot _ _ => ?_⟩
    cases slot with
    | replacement => exact Entry.map_keepNewer .replacement m.replacement ⟨timestamp, r⟩
    | _ => exact hother Kind.noConfusion
  | register r =>
    obtain ⟨hfit, hnamed⟩ := h.registers_absorb settings timestamp r
    refine ⟨hfit, fun slot hv _ => ?_⟩
    cases slot with
    | register n =>
      rw [hnamed n hv]
      simp [Content.slot?]
    | _ => exact hother Kind.noConfusion
  | globalMark mark =>
    obtain ⟨hfit, hnamed⟩ := h.globalMarks_absorb timestamp hr mark
    refine ⟨hfit, fun slot hv hg => ?_⟩
    cases slot with
    | globalMark n =>
      rw [hnamed n hv hg]
      simp [Content.slot?]
    | _ => exact hother Kind.noConfusion
  | _ =>
    refine ⟨hsame (Merge.registers_absorb ..) (Merge.globalMarks_absorb ..),
      fun slot _ _ => hother ?_⟩
    cases slot <;> exact Kind.noConfusion

theorem SlotsFit.foldl_absorb (hr : settings.removable = []) (h : m.SlotsFit)
    (entries : List Entry) :
    (entries.foldl (Merge.absorb settings) m).SlotsFit ∧ ∀ slot, slot.IsValid →
      slot.IsKept settings → (entries.foldl (Merge.absorb settings) m).held? slot =
        (Entry.inSlot slot entries).foldl Entry.keepNewer (m.held? slot) := by
  induction entries generalizing m with
  | nil => exact ⟨h, fun _ _ _ => rfl⟩
  | cons entry rest ih =>
    obtain ⟨hfit, hslot⟩ := h.absorb hr entry
    obtain ⟨hrun, hfold⟩ := ih hfit
    refine ⟨hrun, fun slot hv hon => ?_⟩
    rw [List.foldl_cons, hfold slot hv hon, hslot slot hv hon]
    unfold Entry.inSlot
    by_cases hs : entry.content.slot? = some slot
    · simp [hs]
    · simp [hs]

end Merge

/-- The registers and global marks of a session stand under their names. -/
structure Session.KeyedByName (session : Session) : Prop where
  registers : ∀ e ∈ session.registers.entries, e.2.value.name = e.1
  globalMarks : ∀ e ∈ session.globalMarks.entries, e.2.value.name = e.1

namespace Merge

variable {settings : Settings} {session : Session}

/-- What stands in a table under its name is found in a collection that takes it from there. -/
theorem onePerName_extend {α : Type} {same : α → α → Bool} {name : α → Char} {isName : Char → Bool}
    (hsame : ∀ a b, same a b = true ↔ name a = name b)
    (hnames : ∀ {n}, n ∈ asciiNames isName ↔ isName n = true) {capacity : Nat}
    (hroom : (asciiNames isName).length ≤ capacity) {table : Table Char (Timed α)}
    (hkeys : ∀ e ∈ table.entries, name e.2.value = e.1) :
    let held := (⟨capacity, []⟩ : Bounded α same).extend
      (table.values.filter fun item => isName (name item.value))
    held.OnePerName name (asciiNames isName) ∧
      ∀ n, isName n = true → held.named? name n = table.find? n := by
  intro held
  have hnodup : (table.values.map fun item => name item.value).Nodup := Table.nodup_values_map hkeys
  have hvalid : ∀ item ∈ table.values.filter fun item => isName (name item.value),
      name item.value ∈ asciiNames isName := fun item hm => hnames.mpr (List.mem_filter.mp hm).2
  have hempty : (⟨capacity, []⟩ : Bounded α same).OnePerName name (asciiNames isName) :=
    ⟨hroom, .nil, by simp⟩
  refine ⟨(hempty.extend hsame hvalid).1, fun n hn => ?_⟩
  have hfound :=
    Bounded.named?_extend_nil hsame hroom hvalid (hnodup.sublist (List.filter_sublist.map _)) n
  apply hfound.trans
  rw [List.find?_filter, Table.values, List.find?_map, Table.find?]
  refine congrArg (Option.map Prod.snd) (List.find?_congr fun e he => ?_)
  rw [Function.comp_apply, hkeys e he, Bool.eq_iff_iff]
  simp only [decide_eq_true_eq, beq_iff_eq, Std.LawfulEqCmp.compare_eq_iff_eq]
  exact ⟨And.right, fun h => ⟨h ▸ hn, h⟩⟩

theorem globalMarks_seed (hg : settings.globalMarks = true) (hr : settings.removable = []) :
    (seedGlobalMarks settings session (start settings)).globalMarks =
      (⟨globalMarkCapacity, []⟩ : GlobalMarks).extend
        (session.globalMarks.values.filter fun mark => isGlobalMarkName mark.value.name) := by
  have hkept : (fun mark : Timed Mark =>
      isGlobalMarkName mark.value.name && !settings.isRemovable mark.value.file) =
      fun mark => isGlobalMarkName mark.value.name := by
    funext mark
    simp [Settings.isRemovable, hr]
  unfold seedGlobalMarks
  rw [if_pos hg, hkept]
  rfl

theorem globalMarks_seed_off (hg : settings.globalMarks = false) :
    (seedGlobalMarks settings session (start settings)).globalMarks = ⟨globalMarkCapacity, []⟩ := by
  unfold seedGlobalMarks
  rw [if_neg (Bool.eq_false_iff.mp hg)]
  rfl

/-- At first a merge has for its slots what the session has. -/
theorem slotsFit_seed (now : Timestamp) (hr : settings.removable = []) (hs : session.KeyedByName) :
    ((start settings).seed settings now session).SlotsFit ∧ ∀ slot, slot.IsValid →
      slot.IsKept settings →
      ((start settings).seed settings now session).held? slot = session.held? slot := by
  obtain ⟨hregisters, hregister⟩ :=
    onePerName_extend Register.sameName_iff mem_registerNames registerNames_fit hs.registers
  obtain ⟨hmarks, hmark⟩ : ((start settings).seedGlobalMarks settings
      session).globalMarks.OnePerName Mark.name
      (asciiNames isGlobalMarkName) ∧ ∀ n, isGlobalMarkName n = true → settings.globalMarks = true →
        ((start settings).seedGlobalMarks settings session).globalMarks.named? Mark.name n =
          session.globalMarks.find? n := by
    by_cases hg : settings.globalMarks = true
    · have hextend :=
        onePerName_extend Mark.sameName_iff mem_globalMarkNames globalMarkNames_fit hs.globalMarks
      rw [globalMarks_seed hg hr]
      exact ⟨hextend.1, fun n hn _ => hextend.2 n hn⟩
    · rw [globalMarks_seed_off (Bool.eq_false_iff.mpr hg)]
      exact ⟨⟨globalMarkNames_fit, .nil, by simp⟩, fun _ _ hon => absurd hon hg⟩
  rw [seed_eq]
  refine ⟨⟨hregisters, hmarks⟩, fun slot hv hon => ?_⟩
  cases slot with
  | pattern substitute => cases substitute <;> rfl
  | replacement => rfl
  | register n => exact congrArg (Option.map (Entry.of .register)) (hregister n hv)
  | globalMark n => exact congrArg (Option.map (Entry.of .globalMark)) (hmark n hv hon)

theorem inSlot_patternEntries (slot substitute : Bool) (p : Option (Timed SearchPattern)) :
    Entry.inSlot (.pattern slot) (patternEntries substitute p) =
      if substitute = slot then (p.map (.ofPattern substitute)).toList else [] := by
  cases p <;> cases substitute <;> cases slot <;> rfl

/-- Of items with different names, one name selects the item that is found under it. -/
theorem inSlot_entriesOf {α : Type} {content : α → Content} {name : α → Char} {slot : Char → Slot}
    (hslot : ∀ a n, (content a).slot? = some (slot n) ↔ name a = n) {items : List (Timed α)}
    (hn : (items.map fun item => name item.value).Nodup) (n : Char) :
    Entry.inSlot (slot n) (entriesOf content items) =
      ((items.find? fun item => name item.value = n).map (.of content)).toList := by
  unfold Entry.inSlot entriesOf
  rw [List.filter_map]
  have hname :
      items.filter ((fun entry : Entry => decide (entry.content.slot? = some (slot n))) ∘
        Entry.of content) = items.filter fun item => name item.value = n :=
    List.filter_congr fun item _ => decide_eq_decide.mpr (hslot item.value n)
  show List.map (Entry.of content) (items.filter (_ ∘ Entry.of content)) = _
  rw [hname, filter_name_eq_find? hn]
  cases items.find? fun item => name item.value = n <;> rfl

theorem inSlot_entries {m : Merge} (h : m.SlotsFit)
    (hu : ∀ entry ∈ m.unknown, entry.kind = .unknown) (occasion : Occasion) (slot : Slot) :
    Entry.inSlot slot (m.entries settings occasion session) = (m.held? slot).toList := by
  have hkind : Entry.inSlot slot (m.entries settings occasion session) =
      Entry.inSlot slot (m.part settings occasion session slot.kind) := by
    rw [← filter_kind_entries occasion hu]
    unfold Entry.inSlot
    rw [List.filter_filter]
    apply List.filter_congr
    intro entry _
    by_cases hs : entry.content.slot? = some slot
    · have hk : entry.kind = slot.kind := Content.kind_of_slot? hs
      simp [hs, hk]
    · simp [hs]
  rw [hkind]
  cases slot with
  | pattern substitute =>
    show Entry.inSlot _ (patternEntries false m.searchPattern ++
      patternEntries true m.substitutePattern) = _
    rw [Entry.inSlot, List.filter_append]
    show Entry.inSlot _ (patternEntries false _) ++ Entry.inSlot _ (patternEntries true _) = _
    rw [inSlot_patternEntries, inSlot_patternEntries]
    cases substitute with
    | false => exact List.append_nil _
    | true => rfl
  | replacement =>
    show Entry.inSlot _ (entriesOf .replacement m.replacement.toList) =
      (m.replacement.map (.of .replacement)).toList
    cases m.replacement <;> rfl
  | register n =>
    have hslot (r : Register) (n : Char) : (Content.register r).slot? = some (.register n) ↔
        r.name = n := by
      simp [Content.slot?]
    exact inSlot_entriesOf hslot h.registers.distinct n
  | globalMark n =>
    have hslot (mark : Mark) (n : Char) :
        (Content.globalMark mark).slot? = some (.globalMark n) ↔ mark.name = n := by
      simp [Content.slot?]
    exact inSlot_entriesOf hslot h.globalMarks.distinct n

end Merge

end SessionStore
