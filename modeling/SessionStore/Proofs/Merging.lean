import SessionStore.Save

/-! What each step of a merge does to each of its parts. -/
namespace SessionStore

/-- A part of a state into which steps put what they have for it, one after the other. -/
theorem foldl_filterMap_of_step {σ ε α β : Type} (get : σ → β) {step : σ → ε → σ}
    {pick : ε → Option α} {put : β → α → β} {steps : List ε}
    (h : ∀ e ∈ steps, ∀ s, get (step s e) = (pick e).elim (get s) (put (get s))) (s : σ) :
    get (steps.foldl step s) = (steps.filterMap pick).foldl put (get s) := by
  induction steps generalizing s with
  | nil => rfl
  | cons e rest ih =>
    obtain ⟨hfirst, hrest⟩ := List.forall_mem_cons.mp h
    rw [List.foldl_cons, ih hrest, hfirst]
    cases hp : pick e with
    | none => rw [List.filterMap_cons_none hp]; rfl
    | some item => rw [List.filterMap_cons_some hp]; rfl

namespace Merge

variable (settings : Settings) (now : Timestamp) (session : Session) (m : Merge) (entry : Entry)

/-- The session is taken in part by part, none of which looks at another. -/
theorem seed_eq : m.seed settings now session =
    { m with
      searchPattern := session.searchPattern
      substitutePattern := session.substitutePattern
      replacement := session.replacement
      globalVariables := (m.seedVariables settings now session).globalVariables
      skipped := (m.seedVariables settings now session).skipped
      registers := (m.seedRegisters session).registers
      globalMarks := (m.seedGlobalMarks settings session).globalMarks
      files := (m.seedFiles settings session).files
      jumps := (m.seedJumps settings session).jumps } := by
  unfold seed seedJumps seedFiles seedGlobalMarks seedRegisters seedVariables
  dsimp only
  split <;> split <;> split <;> rfl

/-- Why a merge passes over content of the file: it is written anew, or the
settings or its name rule it out. -/
def Passes (settings : Settings) : Content → Prop
  | .header _ | .bufferList _ => True
  | .register r => isRegisterName r.name = false
  | .variable _ => settings.globalVariables = false
  | .globalMark mark =>
    settings.globalMarks = false ∨ isGlobalMarkName mark.name = false ∨
      settings.isRemovable mark.file = true
  | .jump mark => settings.isRemovable mark.file = true
  | .localMark mark | .change mark =>
    settings.markedFiles = 0 ∨ settings.isRemovable mark.file = true
  | .searchPattern _ | .replacement _ | .history _ | .unknown .. => False

/-- What an entry of the file can make of a merge: it is passed over, or one
part of the merge takes it in. -/
inductive Step (settings : Settings) (m : Merge) (timestamp : Timestamp) : Content → Merge → Prop
  | passed {content : Content} (h : Passes settings content) : Step settings m timestamp content m
  | searchPattern {p : SearchPattern} (hs : p.isSubstitute = false) :
    Step settings m timestamp (.searchPattern p)
    { m with searchPattern := Timed.keepNewer m.searchPattern ⟨timestamp, p⟩ }
  | substitutePattern {p : SearchPattern} (hs : p.isSubstitute = true) :
    Step settings m timestamp (.searchPattern p)
    { m with substitutePattern := Timed.keepNewer m.substitutePattern ⟨timestamp, p⟩ }
  | replacement (r : Replacement) : Step settings m timestamp (.replacement r)
    { m with replacement := Timed.keepNewer m.replacement ⟨timestamp, r⟩ }
  | history (item : HistoryItem) : Step settings m timestamp (.history item)
    { m with
      history := m.history.set item.type
        ((m.history.get item.type).insert ⟨timestamp, item⟩ false).1 }
  | register {r : Register} (hn : isRegisterName r.name = true) :
    Step settings m timestamp (.register r)
    { m with registers := (m.registers.insert ⟨timestamp, r⟩).1 }
  | globalVariable {v : Variable} (hg : settings.globalVariables = true) :
    Step settings m timestamp (.variable v)
    { m with globalVariables := m.globalVariables.insertNew v.name ⟨timestamp, v⟩ }
  | globalMark {mark : Mark} (hg : settings.globalMarks = true)
    (hn : isGlobalMarkName mark.name = true) (hr : settings.isRemovable mark.file = false) :
    Step settings m timestamp (.globalMark mark)
    { m with globalMarks := (m.globalMarks.insert ⟨timestamp, mark⟩).1 }
  | jump {mark : Mark} (hr : settings.isRemovable mark.file = false) :
    Step settings m timestamp (.jump mark) { m with jumps := (m.jumps.insert ⟨timestamp, mark⟩).1 }
  | localMark {mark : Mark} (hm : 0 < settings.markedFiles)
    (hr : settings.isRemovable mark.file = false) : Step settings m timestamp (.localMark mark)
      { m with files := m.files.insertMark mark.file ⟨timestamp, mark⟩ }
  | change {mark : Mark} (hm : 0 < settings.markedFiles)
    (hr : settings.isRemovable mark.file = false) : Step settings m timestamp (.change mark)
      { m with files := m.files.insertChange mark.file ⟨timestamp, mark⟩ }
  | unknown (id : UInt64) (payload : Bytes) : Step settings m timestamp (.unknown id payload)
    { m with unknown := m.unknown ++ [⟨timestamp, .unknown id payload⟩] }

theorem absorb_step : Step settings m entry.timestamp entry.content (m.absorb settings entry) := by
  obtain ⟨timestamp, content⟩ := entry
  unfold absorb
  cases content with
  | header | bufferList => exact .passed trivial
  | searchPattern p =>
    dsimp only
    split
    · next hs => exact .substitutePattern hs
    · next hs => exact .searchPattern (Bool.eq_false_iff.mpr hs)
  | replacement r => exact .replacement r
  | history item => exact .history item
  | register r =>
    dsimp only
    split
    · next hn => exact .register hn
    · next hn => exact .passed (Bool.eq_false_iff.mpr hn)
  | «variable» v =>
    dsimp only
    split
    · next hg => exact .globalVariable hg
    · next hg => exact .passed (Bool.eq_false_iff.mpr hg)
  | globalMark mark =>
    dsimp only
    split
    · next h =>
      obtain ⟨⟨hg, hn⟩, hr⟩ : (settings.globalMarks = true ∧ isGlobalMarkName mark.name = true) ∧
          settings.isRemovable mark.file = false := by simpa using h
      exact .globalMark hg hn hr
    · next h =>
      have hpassed : Passes settings (.globalMark mark) := by grind [Passes]
      exact .passed hpassed
  | jump mark =>
    dsimp only
    split
    · next hr => exact .passed hr
    · next hr => exact .jump (Bool.eq_false_iff.mpr hr)
  | localMark mark =>
    dsimp only
    split
    · next h =>
      obtain ⟨hm, hr⟩ : 0 < settings.markedFiles ∧ settings.isRemovable mark.file = false := by
        simpa using h
      exact .localMark hm hr
    · next h =>
      have hpassed : Passes settings (.localMark mark) := by grind [Passes]
      exact .passed hpassed
  | change mark =>
    dsimp only
    split
    · next h =>
      obtain ⟨hm, hr⟩ : 0 < settings.markedFiles ∧ settings.isRemovable mark.file = false := by
        simpa using h
      exact .change hm hr
    · next h =>
      have hpassed : Passes settings (.change mark) := by grind [Passes]
      exact .passed hpassed
  | unknown id payload => exact .unknown id payload

theorem Step.eq_of_passes {settings : Settings} {m m' : Merge} {timestamp : Timestamp}
    {content : Content} (hstep : Step settings m timestamp content m')
    (h : Passes settings content) : m' = m := by
  cases hstep with
  | passed => rfl
  | searchPattern | substitutePattern | replacement | history | unknown => exact h.elim
  | register hn => cases hn.symm.trans h
  | globalVariable hg => cases hg.symm.trans h
  | globalMark hg hn hr =>
    obtain hg' | hn' | hr' := h
    · cases hg.symm.trans hg'
    · cases hn.symm.trans hn'
    · cases hr.symm.trans hr'
  | jump hr => cases hr.symm.trans h
  | localMark hm hr | change hm hr =>
    obtain hm' | hr' := h
    · exact absurd hm' (Nat.ne_of_gt hm)
    · cases hr.symm.trans hr'

theorem get_history_start (type : HistoryType) :
    (start settings).history.get type = ⟨settings.history.get type, []⟩ := by
  rw [start, PerHistory.get_ofFn]

theorem history_seed : (m.seed settings now session).history = m.history := by rw [seed_eq]

theorem history_absorb : (m.absorb settings entry).history =
    match entry.content with
    | .history item =>
      m.history.set item.type ((m.history.get item.type).insert ⟨entry.timestamp, item⟩ false).1
    | _ => m.history := by
  unfold absorb
  cases entry.content <;> dsimp only <;> (try split) <;> rfl

theorem jumps_absorb : (m.absorb settings entry).jumps =
    match entry.content with
    | .jump mark =>
      if settings.isRemovable mark.file then m.jumps else (m.jumps.insert ⟨entry.timestamp, mark⟩).1
    | _ => m.jumps := by
  unfold absorb
  cases entry.content <;> dsimp only <;> (try split) <;> rfl

theorem registers_absorb : (m.absorb settings entry).registers =
    match entry.content with
    | .register r =>
      if isRegisterName r.name then (m.registers.insert ⟨entry.timestamp, r⟩).1 else m.registers
    | _ => m.registers := by
  unfold absorb
  cases entry.content <;> dsimp only <;> (try split) <;> rfl

theorem globalMarks_absorb : (m.absorb settings entry).globalMarks =
    match entry.content with
    | .globalMark mark =>
      if settings.globalMarks && isGlobalMarkName mark.name && !settings.isRemovable mark.file then
        (m.globalMarks.insert ⟨entry.timestamp, mark⟩).1
      else m.globalMarks
    | _ => m.globalMarks := by
  unfold absorb
  cases entry.content <;> dsimp only <;> (try split) <;> rfl

theorem unknown_absorb : (m.absorb settings entry).unknown =
    match entry.content with
    | .unknown .. => m.unknown ++ [entry]
    | _ => m.unknown := by
  unfold absorb
  cases entry.content <;> dsimp only <;> (try split) <;> rfl

theorem unknown_foldl_absorb (entries : List Entry) :
    (entries.foldl (absorb settings) m).unknown =
      m.unknown ++ entries.filter (·.kind = .unknown) := by
  induction entries generalizing m with
  | nil => exact (List.append_nil _).symm
  | cons entry rest ih =>
    rw [List.foldl_cons, ih, unknown_absorb]
    cases hc : entry.content with
    | unknown id payload =>
      have hk : entry.kind = .unknown := by rw [Entry.kind, hc]; rfl
      simp [hk]
    | _ =>
      have hk : entry.kind ≠ .unknown := by
        rw [Entry.kind, hc]
        exact Kind.noConfusion
      simp [hk]

theorem skipped_foldl_absorb (entries : List Entry) :
    (entries.foldl (absorb settings) m).skipped = m.skipped := by
  have hkept {timestamp : Timestamp} {content : Content} {m m' : Merge}
      (hstep : Step settings m timestamp content m') : m'.skipped = m.skipped := by
    cases hstep <;> rfl
  induction entries generalizing m with
  | nil => rfl
  | cons entry rest ih => rw [List.foldl_cons, ih, hkept (absorb_step settings m entry)]

/-- The entries of one kind, in the order in which they are written. -/
def part (settings : Settings) (occasion : Occasion) (session : Session) (m : Merge) :
    Kind → List Entry
  | .header => [⟨occasion.now, .header (.new occasion settings.maxKbyte)⟩]
  | .bufferList =>
    settings.bufferList.toList.map fun limit =>
      ⟨occasion.now, .bufferList (buffers settings session limit)⟩
  | .variable => entriesOf .variable m.globalVariables.values
  | .searchPattern =>
    patternEntries false m.searchPattern ++ patternEntries true m.substitutePattern
  | .replacement => entriesOf .replacement m.replacement.toList
  | .jump => entriesOf .jump m.jumps.items
  | .globalMark => entriesOf .globalMark m.globalMarks.items
  | .register => entriesOf .register m.registers.items
  | .localMark =>
    (m.files.top settings.markedFiles).flatMap fun file =>
      entriesOf .localMark file.2.slotted ++ entriesOf .localMark file.2.unslotted
  | .change =>
    (m.files.top settings.markedFiles).flatMap fun file => entriesOf .change file.2.changes.items
  | .history => HistoryType.all.flatMap fun type => entriesOf .history (m.history.get type).items
  | .unknown => m.unknown

/-- Entries of one kind are all of those of a kind, or none. -/
theorem filter_kind_eq {kind : Kind} {entries : List Entry}
    (h : ∀ entry ∈ entries, entry.kind = kind) (k : Kind) :
    entries.filter (·.kind = k) = if kind = k then entries else [] := by
  by_cases hk : kind = k
  · rw [if_pos hk]
    exact List.filter_eq_self.mpr fun entry he => decide_eq_true ((h entry he).trans hk)
  · rw [if_neg hk]
    exact List.filter_eq_nil_iff.mpr fun entry he hd =>
      hk ((h entry he).symm.trans (of_decide_eq_true hd))

theorem filter_kind_entriesOf {α : Type} {kind : Kind} (content : α → Content)
    (hc : ∀ a, (content a).kind = kind) (k : Kind) (items : List (Timed α)) :
    (entriesOf content items).filter (·.kind = k) =
      if kind = k then entriesOf content items else [] := by
  have hkind : ∀ entry ∈ entriesOf content items, entry.kind = kind :=
    List.forall_mem_map.mpr fun item _ => hc item.value
  exact filter_kind_eq hkind k

theorem filter_kind_entries {settings : Settings} {session : Session} {m : Merge}
    (occasion : Occasion) (hu : ∀ entry ∈ m.unknown, entry.kind = .unknown) (k : Kind) :
    (m.entries settings occasion session).filter (·.kind = k) =
      m.part settings occasion session k := by
  have hheader : ∀ entry ∈ m.part settings occasion session .header, entry.kind = .header := by
    simp [part, Entry.kind, Content.kind]
  have hbuffers : ∀ entry ∈ m.part settings occasion session .bufferList,
      entry.kind = .bufferList :=
    List.forall_mem_map.mpr fun _ _ => rfl
  unfold part at hheader hbuffers
  have hnone {α : Type} (items : List α) : items.flatMap (fun _ => ([] : List Entry)) = [] := by
    simp
  unfold entries patternEntries fileEntries
  simp only [List.filter_append, List.filter_flatMap, filter_kind_eq hheader,
    filter_kind_eq hbuffers, filter_kind_eq hu,
    filter_kind_entriesOf .variable fun _ => rfl,
    filter_kind_entriesOf (fun p : SearchPattern => .searchPattern { p with isSubstitute := false })
      fun _ => rfl,
    filter_kind_entriesOf (fun p : SearchPattern => .searchPattern { p with isSubstitute := true })
      fun _ => rfl,
    filter_kind_entriesOf .replacement fun _ => rfl, filter_kind_entriesOf .jump fun _ => rfl,
    filter_kind_entriesOf .globalMark fun _ => rfl, filter_kind_entriesOf .register fun _ => rfl,
    filter_kind_entriesOf .localMark fun _ => rfl, filter_kind_entriesOf .change fun _ => rfl,
    filter_kind_entriesOf .history fun _ => rfl]
  cases k <;> simp [part, patternEntries, hnone]

end Merge

end SessionStore
