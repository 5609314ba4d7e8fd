import SessionStore.Proofs.Collection.Dictionary
import SessionStore.Proofs.Collection.InOrder
import SessionStore.Proofs.Collection.Table
import SessionStore.Proofs.FirstSave
import SessionStore.Restore

/-! What a restore makes of entries that nothing in the session stands against. -/
namespace SessionStore

open Merge (entriesOf patternEntries)
open Recency

theorem PerHistory.set_set {α : Type} (p : PerHistory α) (type : HistoryType) (a b : α) :
    (p.set type a).set type b = p.set type b := by
  cases type <;> rfl

def Session.withPattern (s : Session) (substitute : Bool) (p : Option (Timed SearchPattern)) :
    Session :=
  match substitute with
  | false => { s with searchPattern := p }
  | true => { s with substitutePattern := p }

namespace Restore

variable {settings : Settings} {options : RestoreOptions} {r : Restore}

/-- The same restore with more entries that changed the session. -/
def gain (r : Restore) (n : Nat) : Restore := { r with report.applied := r.report.applied + n }

theorem gain_gain (r : Restore) (m n : Nat) : (r.gain m).gain n = r.gain (m + n) := by
  unfold gain
  dsimp only
  rw [Nat.add_assoc]

def plus (r : Restore) (more : RestoreReport) : Restore :=
  { r with report :=
    { applied := r.report.applied + more.applied
      skipped := r.report.skipped + more.skipped
      unknown := r.report.unknown + more.unknown
      invalid := r.report.invalid + more.invalid } }

theorem plus_right_comm (r : Restore) (more others : RestoreReport) :
    (r.plus more).plus others = (r.plus others).plus more := by
  unfold plus
  simp only [Nat.add_right_comm]

theorem skip_plus (r : Restore) (more : RestoreReport) : (r.plus more).skip = r.skip.plus more :=
  plus_right_comm r more { skipped := 1 }

theorem countUnknown_plus (r : Restore) (more : RestoreReport) :
    (r.plus more).countUnknown = r.countUnknown.plus more :=
  plus_right_comm r more { unknown := 1 }

theorem count_plus (r : Restore) (more : RestoreReport) (applied : Bool) :
    (r.plus more).count applied = (r.count applied).plus more := by
  cases applied with
  | false => exact skip_plus r more
  | true => exact plus_right_comm r more { applied := 1 }

theorem update_plus (r : Restore) (more : RestoreReport) (applies : Bool) (f : Session → Session) :
    (r.plus more).update applies f = (r.update applies f).plus more :=
  count_plus { r with session := if applies then f r.session else r.session } more applies

theorem applyHistory_plus (r : Restore) (more : RestoreReport) (item : Timed HistoryItem) :
    (r.plus more).applyHistory settings options item =
      (r.applyHistory settings options item).plus more := by
  unfold applyHistory
  dsimp only
  by_cases hcapacity : settings.history.get item.value.type = 0
  · rw [if_pos hcapacity, if_pos hcapacity, skip_plus]
  · rw [if_neg hcapacity, if_neg hcapacity]
    exact count_plus { r with rings := r.rings.set item.value.type _ } more _

theorem applyJump_plus (r : Restore) (more : RestoreReport) (jump : Timed Mark) :
    (r.plus more).applyJump settings jump = (r.applyJump settings jump).plus more := by
  unfold applyJump
  by_cases hcapacity : settings.jumps = 0
  · rw [if_pos hcapacity, if_pos hcapacity, skip_plus]
  · rw [if_neg hcapacity, if_neg hcapacity]
    exact count_plus { r with jumps := some _ } more _

theorem applyChange_plus (r : Restore) (more : RestoreReport) (change : Timed Mark) :
    (r.plus more).applyChange settings change = (r.applyChange settings change).plus more :=
  count_plus { r with changes := r.changes.insert change.value.file _ } more _

theorem noteOldFile_plus (r : Restore) (more : RestoreReport) (file : Path) :
    (r.plus more).noteOldFile options file = (r.noteOldFile options file).plus more := by
  unfold noteOldFile
  by_cases ho : options.oldFiles = true
  · rw [if_pos ho, if_pos ho]
    rfl
  · rw [if_neg ho, if_neg ho]

/-- How many entries were counted does not matter to the entries that come. -/
theorem apply_plus (r : Restore) (more : RestoreReport) (entry : Entry) :
    (r.plus more).apply settings options entry = (r.apply settings options entry).plus more := by
  obtain ⟨timestamp, content⟩ := entry
  unfold apply
  cases content with
  | header => rfl
  | unknown => exact countUnknown_plus r more
  | history item =>
    dsimp only
    by_cases hi : options.info = true
    · rw [if_pos hi, if_pos hi, applyHistory_plus]
    · rw [if_neg hi, if_neg hi, skip_plus]
  | jump mark =>
    dsimp only
    by_cases hm : options.marks = true
    · rw [if_pos hm, if_pos hm, applyJump_plus]
    · rw [if_neg hm, if_neg hm, skip_plus]
  | change mark =>
    dsimp only
    by_cases hm : (options.marks && decide (0 < settings.markedFiles)) = true
    · rw [if_pos hm, if_pos hm, applyChange_plus]
    · rw [if_neg hm, if_neg hm, skip_plus]
  | localMark mark =>
    dsimp only
    rw [noteOldFile_plus]
    exact update_plus ..
  | _ => exact update_plus ..

theorem foldl_apply_plus (entries : List Entry) (r : Restore) (more : RestoreReport) :
    entries.foldl (apply settings options) (r.plus more) =
      (entries.foldl (apply settings options) r).plus more := by
  induction entries generalizing r with
  | nil => rfl
  | cons entry rest ih => rw [List.foldl_cons, apply_plus, ih, List.foldl_cons]

/-- Entries bring a restore to another one, but for how many of them changed the session. -/
def Reaches (settings : Settings) (options : RestoreOptions) (entries : List Entry)
    (r r' : Restore) : Prop :=
  ∃ n, entries.foldl (apply settings options) r = r'.gain n

theorem reaches_nil (r : Restore) : Reaches settings options [] r r := ⟨0, rfl⟩

theorem reaches_single {entry : Entry} {r' : Restore}
    (h : r.apply settings options entry = r'.gain 1) : Reaches settings options [entry] r r' :=
  ⟨1, h⟩

theorem Reaches.append {entries rest : List Entry} {r' r'' : Restore}
    (h : Reaches settings options entries r r') (hr : Reaches settings options rest r' r'') :
    Reaches settings options (entries ++ rest) r r'' := by
  obtain ⟨m, hm⟩ := h
  obtain ⟨n, hn⟩ := hr
  refine ⟨n + m, ?_⟩
  have hrest : rest.foldl (apply settings options) (r'.gain m) =
      (rest.foldl (apply settings options) r').gain m :=
    foldl_apply_plus rest r' { applied := m }
  rw [List.foldl_append, hm, hrest, hn, gain_gain]

theorem Reaches.cons {entry : Entry} {rest : List Entry} {r' r'' : Restore}
    (h : r.apply settings options entry = r'.gain 1) (hr : Reaches settings options rest r' r'') :
    Reaches settings options (entry :: rest) r r'' :=
  (reaches_single h).append hr

theorem update_of_true {applies : Bool} (h : applies = true) (f : Session → Session) :
    r.update applies f = ({ r with session := f r.session } : Restore).gain 1 := by
  subst h
  rfl

theorem wins_none (options : RestoreOptions) (timestamp : Timestamp) {α : Type} :
    wins options timestamp (none : Option (Timed α)) = true := Bool.or_true _

section Each

variable {α : Type} {content : α → Content}

theorem reaches_each (set : Session → Timed α → Session) (Fresh : Session → List (Timed α) → Prop)
    (hstep : ∀ (r : Restore) item rest, Fresh r.session (item :: rest) →
      r.apply settings options ⟨item.timestamp, content item.value⟩ =
        ({ r with session := set r.session item } : Restore).gain 1 ∧ Fresh
    (set r.session item) rest) {items : List (Timed α)} (h : Fresh r.session items) :
    Reaches settings options (entriesOf content items) r
      { r with session := items.foldl set r.session } := by
  induction items generalizing r with
  | nil => exact reaches_nil r
  | cons item rest ih =>
    obtain ⟨happly, hrest⟩ := hstep r item rest h
    exact .cons happly (ih (r := { r with session := set r.session item }) hrest)

/-- Where each item in its turn makes what a restore holds grow, they all end up there. -/
theorem reaches_gathered {β : Type} (Holds : Restore → β → Prop) (put : Restore → β → Restore)
    (grow : β → Timed α → β) (Ready : β → List (Timed α) → Prop) (hholds : ∀ r b, Holds (put r b) b)
    (hput : ∀ r b b', put (put r b) b' = put r b')
    (hstep : ∀ r b item rest, Holds r b → Ready b (item :: rest) →
      r.apply settings options ⟨item.timestamp, content item.value⟩ = (put r (grow b item)).gain 1 ∧
        Ready (grow b item) rest)
    {b : β} {items : List (Timed α)} (hr : Holds r b) (h : Ready b items) :
    Reaches settings options (entriesOf content items) r
      (if items = [] then r else put r (items.foldl grow b)) := by
  induction items generalizing r b with
  | nil => exact reaches_nil r
  | cons item rest ih =>
    obtain ⟨happly, hready⟩ := hstep r b item rest hr h
    have hrest := ih (hholds r (grow b item)) hready
    rw [if_neg (List.cons_ne_nil item rest)]
    by_cases hlast : rest = []
    · subst hlast
      exact .cons happly hrest
    · rw [if_neg hlast, hput] at hrest
      exact .cons happly hrest

/-- Items that find their place behind those that are there all end up there. -/
theorem reaches_behind (Holds : Restore → List (Timed α) → Prop)
    (put : Restore → List (Timed α) → Restore) (Ready : List (Timed α) → Prop)
    (hholds : ∀ r items, Holds (put r items) items)
    (hput : ∀ r items items', put (put r items) items' = put r items')
    (hstep : ∀ r held item rest, Holds r held → Ready (held ++ item :: rest) →
      r.apply settings options ⟨item.timestamp, content item.value⟩ =
      (put r (held ++ [item])).gain 1)
    {items : List (Timed α)} (hr : Holds r []) (h : Ready items) :
    Reaches settings options (entriesOf content items) r
      (if items = [] then r else put r items) := by
  have hgrow (items held : List (Timed α)) :
      items.foldl (fun held item => held ++ [item]) held = held ++ items := by
    induction items generalizing held with
    | nil => exact (List.append_nil held).symm
    | cons item rest ih => rw [List.foldl_cons, ih, ← List.append_cons]
  have hready : Ready ([] ++ items) := h
  have hnext (r held item) (rest : List (Timed α)) (hheld : Holds r held)
      (h : Ready (held ++ item :: rest)) :=
    And.intro (hstep r held item rest hheld h) (List.append_cons held item rest ▸ h)
  have hall := reaches_gathered Holds put (fun held item => held ++ [item])
    (fun held items => Ready (held ++ items)) hholds hput hnext hr hready
  rwa [hgrow] at hall

/-- Values that come under new names, in whichever order, make up their table. -/
theorem reaches_table {name : α → Char} {isName : Char → Bool}
    (get : Session → Table Char (Timed α)) (put : Session → Table Char (Timed α) → Session)
    (hsame : ∀ s, put s (get s) = s) (hget : ∀ s t, get (put s t) = t)
    (hput : ∀ s t t', put (put s t) t' = put s t')
    (hstep : ∀ (r : Restore) (item : Timed α), isName (name item.value) = true →
      (get r.session).find? (name item.value) = none →
        r.apply settings options ⟨item.timestamp, content item.value⟩ =
          ({ r with
            session := put r.session ((get r.session).insert (name item.value) item) } :
            Restore).gain 1)
    {table : Table Char (Timed α)}
    (hk : ∀ e ∈ table.entries, name e.2.value = e.1 ∧ isName e.1 = true) {items : List (Timed α)}
    (hp : items.Perm table.values) (hr : get r.session = .empty) :
    Reaches settings options (entriesOf content items) r
      { r with session := put r.session table } := by
  have hkeys : ∀ e ∈ table.entries, (fun item : Timed α => name item.value) e.2 = e.1 :=
    fun e he => (hk e he).1
  have hnames : ∀ item ∈ items, isName (name item.value) = true := by
    intro item hm
    obtain ⟨e, he, rfl⟩ := List.mem_map.mp (hp.mem_iff.mp hm)
    rw [(hk e he).1]
    exact (hk e he).2
  have hset (items : List (Timed α)) (s : Session) :
      items.foldl (fun s item => put s ((get s).insert (name item.value) item)) s =
        put s (items.foldl (fun held item => held.insert (name item.value) item) (get s)) := by
    induction items generalizing s with
    | nil => exact (hsame s).symm
    | cons item rest ih => rw [List.foldl_cons, ih, hget, hput, List.foldl_cons]
  have hfold : put r.session table =
      items.foldl (fun s item => put s ((get s).insert (name item.value) item)) r.session := by
    rw [hset, hr, Table.foldl_insert_eq hkeys hp]
  rw [hfold]
  refine reaches_each (fun s item => put s ((get s).insert (name item.value) item)) (fun s rest =>
    (get s).Fresh (rest.map fun item => name item.value) ∧
      ∀ item ∈ rest, isName (name item.value) = true) ?_ ?_
  · rintro r item rest ⟨hfresh, hvalid⟩
    obtain ⟨hname, hrest⟩ := List.forall_mem_cons.mp hvalid
    refine ⟨hstep r item hname (hfresh.absent _ List.mem_cons_self), ?_, hrest⟩
    rw [hget]
    exact hfresh.insert item
  · rw [hr]
    exact ⟨Table.fresh_of_perm hkeys hp, hnames⟩

end Each

section Info

variable (hi : options.info = true)
include hi

theorem reaches_registers {table : Table Char (Timed Register)}
    (hk : ∀ e ∈ table.entries, e.2.value.name = e.1 ∧ isRegisterName e.1 = true)
    {items : List (Timed Register)} (hp : items.Perm table.values)
    (hr : r.session.registers = .empty) :
    Reaches settings options (entriesOf .register items) r
      { r with session.registers := table } := by
  refine reaches_table Session.registers (fun s registers => { s with registers }) (fun _ => rfl)
    (fun _ _ => rfl) (fun _ _ _ => rfl) ?_ hk hp hr
  intro r item hname habsent
  have happlies : (options.info && isRegisterName item.value.name &&
      wins options item.timestamp (r.session.registers.find? item.value.name)) = true := by
    rw [hi, hname, habsent, wins_none]
    rfl
  exact update_of_true happlies fun s => s.setRegister item

theorem reaches_variables {held : Dictionary Bytes Msgpack.Value}
    (hg : settings.globalVariables = true ∨ held = .empty) {now : Timestamp}
    {items : List (Timed Variable)}
    (hv : items = held.entries.map fun v => ⟨now, { name := v.1, value := v.2 }⟩)
    (hr : r.session.globalVariables = .empty) (ht : r.session.transient = []) :
    Reaches settings options (entriesOf .variable items) r
      { r with session.globalVariables := held } := by
  rcases hg with hg | rfl
  case inr =>
    obtain rfl : items = [] := hv
    rw [← hr]
    exact reaches_nil r
  have hset (items : List (Timed Variable)) (s : Session) :
      items.foldl (fun s item => s.setVariable item.value.name item.value.value) s =
        { s with globalVariables := items.foldl (fun held item =>
          held.alter item.value.name fun _ => item.value.value) s.globalVariables } := by
    induction items generalizing s with
    | nil => rfl
    | cons item rest ih => exact ih (s.setVariable item.value.name item.value.value)
  have hkeys : (items.map fun item => item.value.name) = held.keys := by
    rw [hv, List.map_map]
    rfl
  have hfresh : (Dictionary.empty : Dictionary Bytes Msgpack.Value).Fresh
      (items.map fun item => item.value.name) := by
    rw [hkeys]
    exact Dictionary.fresh_empty (List.pairwise_map.mpr held.distinct)
  have hall : items.foldl (fun held item => held.alter item.value.name fun _ => item.value.value)
      .empty = held := by
    apply Dictionary.eq_of_entries
    rw [Dictionary.entries_foldl_alter _ (fun item _ => item.value.value) hfresh, hv, List.map_map]
    exact List.map_id _
  have hfold : { r.session with globalVariables := held } =
      items.foldl (fun s item => s.setVariable item.value.name item.value.value) r.session := by
    rw [hset, hr, hall]
  rw [hfold]
  refine reaches_each (fun s item => s.setVariable item.value.name item.value.value)
    (fun s rest => s.transient = [] ∧
      s.globalVariables.Fresh (rest.map fun item : Timed Variable => item.value.name))
    ?_ ⟨ht, hr ▸ hfresh⟩
  rintro r item rest ⟨htransient, hnames⟩
  have habsent : r.session.hasVariable item.value.name = false := by
    have hnone : r.session.globalVariables.contains item.value.name = false :=
      List.any_eq_false.mpr fun e he =>
        Bool.eq_false_iff.mp (hnames.absent _ List.mem_cons_self e he)
    rw [Session.hasVariable, hnone, htransient]
    rfl
  have happlies : (options.info && settings.globalVariables &&
      (options.force || !r.session.hasVariable item.value.name)) = true := by
    rw [hi, hg, habsent]
    exact Bool.or_true _
  exact ⟨update_of_true happlies fun s => s.setVariable item.value.name item.value.value,
    htransient, hnames.alter _⟩

theorem reaches_pattern (substitute : Bool) {p : Option (Timed SearchPattern)}
    (hp : ∀ x ∈ p, x.value.isSubstitute = substitute) (hr : r.session.pattern substitute = none) :
    Reaches settings options (patternEntries substitute p) r
      { r with session := r.session.withPattern substitute p } := by
  cases p with
  | none =>
    have hsame : r.session.withPattern substitute none = r.session := by
      cases substitute with
      | false => rw [Session.withPattern, ← show r.session.searchPattern = none from hr]
      | true => rw [Session.withPattern, ← show r.session.substitutePattern = none from hr]
    rw [hsame]
    exact reaches_nil r
  | some x =>
    obtain rfl : x.value.isSubstitute = substitute := hp x rfl
    have happlies : (options.info &&
        wins options x.timestamp (r.session.pattern x.value.isSubstitute)) = true := by
      rw [hi, hr, wins_none]
      rfl
    have hset : r.session.setPattern x.value.isSubstitute x =
        r.session.withPattern x.value.isSubstitute (some x) := by
      cases x.value.isSubstitute <;> rfl
    rw [← hset]
    exact reaches_single (update_of_true happlies fun s => s.setPattern x.value.isSubstitute x)

theorem reaches_replacement (p : Option (Timed Replacement)) (hr : r.session.replacement = none) :
    Reaches settings options (entriesOf .replacement p.toList) r
      { r with session.replacement := p } := by
  cases p with
  | none =>
    have hsame : { r.session with replacement := none } = r.session := by rw [← hr]
    rw [hsame]
    exact reaches_nil r
  | some x =>
    have happlies : (options.info && wins options x.timestamp r.session.replacement) = true := by
      rw [hi, hr, wins_none]
      rfl
    exact reaches_single (update_of_true happlies fun s => s.setReplacement x)

theorem reaches_bufferList (hb : settings.bufferList.isSome = true) (now : Timestamp)
    (buffers : List Buffer) :
    Reaches settings options [⟨now, .bufferList buffers⟩] r
      { r with session.buffers := buffers } := by
  have happlies : (options.info && settings.bufferList.isSome) = true := by
    rw [hi, hb]
    rfl
  exact reaches_single (update_of_true happlies fun s => s.setBuffers buffers)

/-- Lines that come in order go behind those of their history. -/
theorem reaches_history {type : HistoryType} {items : List (Timed HistoryItem)}
    (hr : r.ring settings type = ⟨settings.history.get type, []⟩)
    (ht : ∀ item ∈ items, item.value.type = type)
    (hl : items.length ≤ settings.history.get type)
    (hd : (items.map fun item => item.value.text).Nodup) (ho : OldestFirst items) :
    Reaches settings options (entriesOf .history items) r (if items = [] then r else
      { r with rings := r.rings.set type (some ⟨settings.history.get type, items⟩) }) := by
  refine reaches_behind (fun r held => r.ring settings type = ⟨settings.history.get type, held⟩)
    (fun r items => { r with rings := r.rings.set type (some ⟨settings.history.get type, items⟩) })
    (fun items => (∀ item ∈ items, item.value.type = type) ∧
      items.length ≤ settings.history.get type ∧
      (items.map fun item => item.value.text).Nodup ∧ OldestFirst items) ?_ ?_ ?_ hr
      ⟨ht, hl, hd, ho⟩
  · intro r items
    simp [ring]
  · intro r items items'
    simp [PerHistory.set_set]
  · rintro r held item rest hring ⟨htypes, hlength, hdistinct, horder⟩
    have hitem : item.value.type = type := htypes item (List.mem_append_right _ List.mem_cons_self)
    simp only [List.length_append, List.length_cons] at hlength
    have hcapacity : settings.history.get type ≠ 0 := by omega
    have hroom : held.length < settings.history.get type := by omega
    have hinsert : HistoryRing.insert ⟨settings.history.get type, held⟩ item options.force =
        (⟨settings.history.get type, held ++ [item]⟩, true) :=
      HistoryRing.insert_last hroom hdistinct horder
    show (if options.info then r.applyHistory settings options item else r.skip) = _
    rw [if_pos hi]
    unfold applyHistory
    rw [hitem]
    dsimp only
    rw [if_neg hcapacity, hring, hinsert]
    rfl

end Info

section Marks

variable (hm : options.marks = true)
include hm

theorem reaches_globalMarks {table : Table Char (Timed Mark)}
    (hg : settings.globalMarks = true ∨ table = .empty)
    (hk : ∀ e ∈ table.entries, e.2.value.name = e.1 ∧ isGlobalMarkName e.1 = true)
    {items : List (Timed Mark)} (hp : items.Perm table.values)
    (hr : r.session.globalMarks = .empty) :
    Reaches settings options (entriesOf .globalMark items) r
      { r with session.globalMarks := table } := by
  rcases hg with hg | rfl
  case inr =>
    rw [hp.eq_nil, ← hr]
    exact reaches_nil r
  refine reaches_table Session.globalMarks (fun s globalMarks => { s with globalMarks })
    (fun _ => rfl) (fun _ _ => rfl) (fun _ _ _ => rfl) ?_ hk hp hr
  intro r item hname habsent
  have happlies : (options.marks && settings.globalMarks && isGlobalMarkName item.value.name &&
      wins options item.timestamp (r.session.globalMarks.find? item.value.name)) = true := by
    rw [hm, hg, hname, habsent, wins_none]
    rfl
  exact update_of_true happlies fun s => s.setGlobalMark item

theorem reaches_jumps {items : List (Timed Mark)} (hr : r.jumpList settings = ⟨settings.jumps, []⟩)
    (hl : items.length ≤ settings.jumps) (hd : (items.map fun item => item.value.place).Nodup)
    (ho : OldestFirst items) :
    Reaches settings options (entriesOf .jump items) r
      (if items = [] then r else { r with jumps := some ⟨settings.jumps, items⟩ }) := by
  refine reaches_behind (fun r held => r.jumpList settings = ⟨settings.jumps, held⟩)
    (fun r items => { r with jumps := some ⟨settings.jumps, items⟩ })
    (fun items => items.length ≤ settings.jumps ∧ (items.map fun item => item.value.place).Nodup ∧
      OldestFirst items) ?_ ?_ ?_ hr ⟨hl, hd, ho⟩
  · exact fun r items => rfl
  · exact fun r items items' => rfl
  · rintro r held item rest hjumps ⟨hlength, hdistinct, horder⟩
    simp only [List.length_append, List.length_cons] at hlength
    have hcapacity : settings.jumps ≠ 0 := by omega
    have hroom : held.length < settings.jumps := by omega
    have hinsert := Bounded.insert_last (c := ⟨settings.jumps, held⟩) Mark.sameLocation_iff hroom
      hdistinct horder
    show (if options.marks then r.applyJump settings item else r.skip) = _
    rw [if_pos hm]
    unfold applyJump
    rw [if_neg hcapacity, hjumps, hinsert]
    rfl

/-- Changes of different places find their own among those of their file. -/
theorem reaches_changes (hf : 0 < settings.markedFiles) {file : Path} {items : List (Timed Mark)}
    (hr : r.changeList settings file = ⟨settings.changes, []⟩)
    (hp : ∀ item ∈ items, item.value.file = file) (hl : items.length ≤ settings.changes)
    (hd : (items.map fun item => item.value.place).Nodup) :
    Reaches settings options (entriesOf .change items) r (if items = [] then r else
      { r with changes := r.changes.insert file ⟨settings.changes, inOrder items⟩ }) := by
  refine reaches_gathered (fun r held => r.changeList settings file = ⟨settings.changes, held⟩)
    (fun r items => { r with changes := r.changes.insert file ⟨settings.changes, items⟩ })
    (fun held item => place item held)
    (fun held items => (∀ item ∈ items, item.value.file = file) ∧
      held.length + items.length ≤ settings.changes ∧
      ((held ++ items).map fun item => item.value.place).Nodup) ?_ ?_ ?_ hr ⟨hp, by
        simpa using hl, hd⟩
  · intro r items
    simp [changeList, Dictionary.find?_insert_self]
  · intro r items items'
    simp [Dictionary.insert_insert]
  · rintro r held item rest hchanges ⟨hfiles, hlength, hdistinct⟩
    obtain ⟨hitem, hrest⟩ := List.forall_mem_cons.mp hfiles
    rw [List.length_cons] at hlength
    have hnew : ∀ other ∈ held, other.value.sameLocation item.value = false := fun other ho =>
      Bounded.same_eq_false Mark.sameLocation_iff
        ((List.pairwise_append.mp (List.pairwise_map.mp hdistinct)).2.2 other ho item
          List.mem_cons_self)
    have hinsert := Bounded.insert_new (c := (⟨settings.changes, held⟩ : ChangeList)) hnew
      (by dsimp only; omega)
    have happlies : (options.marks && decide (0 < settings.markedFiles)) = true := by
      rw [hm, decide_eq_true hf]
      rfl
    refine ⟨?_, hrest, ?_, ?_⟩
    · show (if options.marks && decide (0 < settings.markedFiles) then r.applyChange settings item
        else r.skip) = _
      rw [if_pos happlies]
      unfold applyChange
      rw [hitem]
      dsimp only
      rw [hchanges, hinsert]
      rfl
    · rw [length_place]
      omega
    · refine (List.Perm.map _ ?_).nodup_iff.mp hdistinct
      exact List.perm_middle.trans ((place_perm item held).symm.append_right rest)

end Marks

end Restore

end SessionStore
