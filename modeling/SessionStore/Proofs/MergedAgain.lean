import SessionStore.Proofs.FirstSave

/-! Merging a session with a file that has nothing but what the session has. -/
namespace SessionStore

open Merge (entriesOf)
open Recency

namespace Merge

/-- The histories after a line that a file has. Other entries do not matter to them. -/
def absorbLine (history : PerHistory HistoryRing) (entry : Entry) : PerHistory HistoryRing :=
  match entry.content with
  | .history item =>
    history.set item.type ((history.get item.type).insert ⟨entry.timestamp, item⟩ false).1
  | _ => history

variable {settings : Settings} {m : Merge}

/-- Each history takes the lines that are its own. -/
theorem get_foldl_absorbLine (entries : List Entry) (history : PerHistory HistoryRing)
    (type : HistoryType) : (entries.foldl absorbLine history).get type =
      (entries.filterMap (Entry.line? type)).foldl (fun ring line => (ring.insert line false).1)
        (history.get type) := by
  refine foldl_filterMap_of_step (PerHistory.get · type) (fun entry _ history => ?_) history
  unfold absorbLine Entry.line?
  cases entry.content with
  | history item =>
    dsimp only
    by_cases ht : item.type = type
    · subst ht
      rw [PerHistory.get_set_self, if_pos rfl]
      rfl
    · rw [PerHistory.get_set_of_ne _ _ (Ne.symm ht), if_neg ht]
      rfl
  | _ => rfl

theorem get_history_foldl_absorb (settings : Settings) (m : Merge) (entries : List Entry)
    (type : HistoryType) : (entries.foldl (absorb settings) m).history.get type =
      (entries.filterMap (Entry.line? type)).foldl (fun ring line => (ring.insert line false).1)
        (m.history.get type) := by
  rw [← get_foldl_absorbLine, List.foldl_hom history fun m entry =>
    (history_absorb settings m entry).symm]

/-- What an entry belongs to is left as it is by it. The lines of histories are left aside. -/
def Has (m : Merge) (entry : Entry) : Prop :=
  match entry.content with
  | .header _ | .bufferList _ | .history _ => True
  | .searchPattern p =>
    if p.isSubstitute then
      Timed.keepNewer m.substitutePattern ⟨entry.timestamp, p⟩ = m.substitutePattern
    else Timed.keepNewer m.searchPattern ⟨entry.timestamp, p⟩ = m.searchPattern
  | .replacement r => Timed.keepNewer m.replacement ⟨entry.timestamp, r⟩ = m.replacement
  | .register r => (m.registers.insert ⟨entry.timestamp, r⟩).1 = m.registers
  | .variable v => m.globalVariables.insertNew v.name ⟨entry.timestamp, v⟩ = m.globalVariables
  | .globalMark mark => (m.globalMarks.insert ⟨entry.timestamp, mark⟩).1 = m.globalMarks
  | .jump mark => (m.jumps.insert ⟨entry.timestamp, mark⟩).1 = m.jumps
  | .localMark mark => m.files.insertMark mark.file ⟨entry.timestamp, mark⟩ = m.files
  | .change mark => m.files.insertChange mark.file ⟨entry.timestamp, mark⟩ = m.files
  | .unknown .. => False

/-- An entry that a merge has brings nothing new, whichever part would take it in. -/
theorem Has.absorb {entry : Entry} (h : m.Has entry) (history : PerHistory HistoryRing) :
    Merge.absorb settings { m with history } entry =
      { m with history := absorbLine history entry } := by
  obtain ⟨timestamp, content⟩ := entry
  have hstep := absorb_step settings { m with history } ⟨timestamp, content⟩
  generalize Merge.absorb settings { m with history } ⟨timestamp, content⟩ = m' at hstep ⊢
  cases hstep with
  | passed hp =>
    cases content with
    | history => exact hp.elim
    | _ => rfl
  | history => rfl
  | @searchPattern p hs =>
    have hheld : Timed.keepNewer m.searchPattern ⟨timestamp, p⟩ = m.searchPattern := by
      simpa [Has, hs] using h
    exact congrArg (fun searchPattern => { m with history, searchPattern }) hheld
  | @substitutePattern p hs =>
    have hheld : Timed.keepNewer m.substitutePattern ⟨timestamp, p⟩ = m.substitutePattern := by
      simpa [Has, hs] using h
    exact congrArg (fun substitutePattern => { m with history, substitutePattern }) hheld
  | replacement => exact congrArg (fun replacement => { m with history, replacement }) h
  | register => exact congrArg (fun registers => { m with history, registers }) h
  | globalVariable => exact congrArg (fun globalVariables => { m with history, globalVariables }) h
  | globalMark => exact congrArg (fun globalMarks => { m with history, globalMarks }) h
  | jump => exact congrArg (fun jumps => { m with history, jumps }) h
  | localMark | change => exact congrArg (fun files => { m with history, files }) h
  | unknown => exact h.elim

variable (settings) in
theorem foldl_absorb_of_has {entries : List Entry} (h : ∀ entry ∈ entries, m.Has entry)
    (history : PerHistory HistoryRing) :
    entries.foldl (absorb settings) { m with history } =
      { m with history := entries.foldl absorbLine history } := by
  induction entries generalizing history with
  | nil => rfl
  | cons entry rest ih =>
    obtain ⟨hentry, hrest⟩ := List.forall_mem_cons.mp h
    rw [List.foldl_cons, hentry.absorb, ih hrest]
    rfl

end Merge

namespace Session

variable {settings : Settings} {session : Session}

/-- Of a file, a merge knows what is taken from the session. -/
theorem Tidy.get?_files_merged_empty (hr : settings.removable = []) (ht : session.Tidy settings)
    (occasion : Occasion) {file : Path × FileState} (hf : file ∈ session.files.entries) :
    (session.merged settings occasion .empty).files.get? file.1 =
      some ((FileMarks.new settings.changes).extend file.2.marks.values file.2.changes) := by
  have hmarked : settings.markedFiles ≠ 0 := by
    have hroom := ht.fileRoom
    have hpos := List.length_pos_of_mem hf
    omega
  rw [merged_empty, Merge.seed_eq]
  apply Dictionary.find?_of_mem
  show _ ∈ (session.fileMarks settings).files.entries
  rw [entries_fileMarks hr hmarked]
  exact List.mem_map_of_mem (f := fun file : Path × FileState =>
    (file.1, (FileMarks.new settings.changes).extend file.2.marks.values file.2.changes)) hf

theorem Tidy.insert_known (ht : session.Tidy settings) {file : Path × FileState}
    (hf : file ∈ session.files.entries) :
    let known := (FileMarks.new settings.changes).extend file.2.marks.values file.2.changes
    (∀ mark ∈ file.2.marks.values, (known.insertMark mark).1 = known) ∧
      ∀ change ∈ file.2.changes, (known.insertChange change).1 = known := by
  obtain ⟨greatest, hextend⟩ := ht.extend_state hf
  have hgreatest :=
    FileMarks.le_greatest_extend (.new settings.changes) file.2.marks.values file.2.changes
  have hnames : (file.2.marks.values.map fun mark => mark.value.name).Nodup :=
    Table.nodup_values_map fun e he => ((ht.files file hf).marks e he).1
  dsimp only
  rw [hextend] at hgreatest ⊢
  exact ⟨fun mark hm => FileMarks.insertMark_held hnames hm
    (hgreatest _ (List.mem_append_left _ hm)),
    fun change hc => FileMarks.insertChange_held (ht.files file hf).places hc
      (hgreatest _ (List.mem_append_right _ hc))⟩

/-- A merge that a tidy session was taken into has all that the session has to offer. -/
theorem Tidy.has_offer (hr : settings.removable = []) (ht : session.Tidy settings)
    (occasion : Occasion) {now : Timestamp} {entry : Entry}
    (ho : session.Offers settings now entry) :
    (session.merged settings occasion .empty).Has entry := by
  have hcarries := carries_merged_empty hr ht.filed occasion
  cases ho with
  | buffers | history => trivial
  | @globalVariable v hv =>
    have hentry : (v.1, ⟨occasion.now, { name := v.1, value := v.2 }⟩) ∈
        (session.merged settings occasion .empty).globalVariables.entries := by
      rw [hcarries.globalVariables, ht.globalVariables_kept]
      exact List.mem_map_of_mem hv
    exact Dictionary.alter_eq_self (Dictionary.find?_of_mem hentry) rfl
  | @pattern substitute p hp =>
    cases substitute with
    | false =>
      show Timed.keepNewer (session.merged settings occasion .empty).searchPattern _ = _
      rw [hcarries.searchPattern]
      exact Timed.keepNewer_of_mem hp (UInt64.le_refl _)
    | true =>
      show Timed.keepNewer (session.merged settings occasion .empty).substitutePattern _ = _
      rw [hcarries.substitutePattern]
      exact Timed.keepNewer_of_mem hp (UInt64.le_refl _)
  | @replacement r hp =>
    show Timed.keepNewer (session.merged settings occasion .empty).replacement _ = _
    rw [hcarries.replacement]
    exact Timed.keepNewer_of_mem hp (UInt64.le_refl _)
  | @jump jump hj =>
    have hjumps : (session.merged settings occasion .empty).jumps.items.Perm session.jumps := by
      rw [hcarries.jumps, ht.jumps_kept hr]
      exact tiesReversed_perm session.jumps
    exact Bounded.insert_of_perm Mark.sameLocation_iff ht.places hjumps hj
  | @globalMark mark hm =>
    have hmarks := hcarries.globalMarks
    rw [ht.globalMarks_kept] at hmarks
    have hnames : (session.globalMarks.values.map fun mark => mark.value.name).Nodup :=
      Table.nodup_values_map fun e he => (ht.globalMarks e he).1
    exact Bounded.insert_of_perm Mark.sameName_iff hnames hmarks hm
  | @register register hm =>
    have hregisters := hcarries.registers
    rw [ht.registers_kept] at hregisters
    have hnames : (session.registers.values.map fun register => register.value.name).Nodup :=
      Table.nodup_values_map fun e he => (ht.registers e he).1
    exact Bounded.insert_of_perm Register.sameName_iff hnames hregisters hm
  | @localMark state mark hf hm =>
    obtain ⟨file, hfile, rfl⟩ := List.mem_map.mp hf
    obtain ⟨e, he, rfl⟩ := List.mem_map.mp hm
    obtain ⟨hmarks, -⟩ := ht.insert_known hfile
    show (session.merged settings occasion .empty).files.insertMark e.2.value.file e.2 = _
    rw [((ht.files file hfile).marks e he).2]
    exact FileMarksMap.modify_eq_self (ht.get?_files_merged_empty hr occasion hfile) (hmarks _ hm)
  | @change state change hf hc =>
    obtain ⟨file, hfile, rfl⟩ := List.mem_map.mp hf
    obtain ⟨-, hchanges⟩ := ht.insert_known hfile
    show (session.merged settings occasion .empty).files.insertChange change.value.file change = _
    rw [(ht.files file hfile).changes change hc]
    exact FileMarksMap.modify_eq_self (ht.get?_files_merged_empty hr occasion hfile) (hchanges _ hc)

/-- A merge with a file comes to the same as without it if the file has nothing
but what the session has, and the lines of the session in their order. -/
theorem Tidy.merged_eq (ht : session.Tidy settings) (occasion : Occasion) {file : Stream}
    (hknown : ∀ entry ∈ file.entries, (session.merged settings occasion .empty).Has entry)
    (hlines : ∀ type, file.history type = session.history.get type) :
    session.merged settings occasion file = session.merged settings occasion .empty := by
  have hstart : (Merge.start settings).seed settings occasion.now session =
      { session.merged settings occasion .empty with
        history := (Merge.start settings).history } := by
    rw [merged_empty, Merge.seed_eq]
    rfl
  have hfold := Merge.foldl_absorb_of_has settings hknown (Merge.start settings).history
  have hhistory : PerHistory.ofFn (fun type =>
      ((file.entries.foldl Merge.absorbLine (Merge.start settings).history).get type).fill true
        (session.history.get type).reverse) =
          (session.merged settings occasion .empty).history := by
    apply PerHistory.ext_get
    intro type
    have hfirst : (session.merged settings occasion .empty).history.get type =
        HistoryRing.fill ⟨settings.history.get type, []⟩ true
        (session.history.get type).reverse := by
      rw [merged_empty, Merge.seed_eq, Merge.seedHistory, PerHistory.get_ofFn]
      show HistoryRing.fill ((Merge.start settings).history.get type) true _ = _
      rw [Merge.get_history_start]
    have hfile : file.entries.filterMap (Entry.line? type) = session.history.get type := hlines type
    rw [PerHistory.get_ofFn, Merge.get_foldl_absorbLine, Merge.get_history_start, hfile, hfirst]
    exact HistoryRing.fill_put (ht.historyRoom type) (ht.texts type) (ht.historyOrder type)
  rw [merged, hstart, hfold]
  exact congrArg (fun history => { session.merged settings occasion .empty with history }) hhistory

end Session

end SessionStore
