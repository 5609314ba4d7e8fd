import SessionStore.Proofs.MergedAgain
import SessionStore.Proofs.Redated
import SessionStore.Proofs.RestoredSession

/-! Rewriting a restored session: the file has the same entries again, and where they stand. -/
namespace SessionStore

open Merge (entriesOf fileEntries)
open Recency
  (Ascending inOrder inOrder_perm tiesReversed tiesReversed_eq_self_iff tiesReversed_of_ascending
  tiesReversed_perm)

/-- No two lines of a history and no two jumps of a stream are of the same time,
and the changes of each file stand in order. -/
structure Stream.Steady (s : Stream) : Prop where
  history : ∀ type, Ascending (s.history type)
  jumps : Ascending s.jumps
  changes : ∀ file, Recency.OldestFirst (s.changesOf file)

namespace Stream

variable {s : Stream} {entries : List Entry}

theorem entries_of_decoded (hd : s.read.decoded = entries.map .ok) : s.entries = entries := by
  rw [Stream.entries, hd, List.filterMap_map]
  exact List.filterMap_some

theorem results_of_decoded (he : s.read.error = none) (hd : s.read.decoded = entries.map .ok) :
    s.read.results = entries.map .ok := by
  rw [Reading.results, he, hd]
  exact List.append_nil _

end Stream

namespace Session

variable {settings : Settings} {session : Session} {now : Timestamp}

theorem buffers_kept (hr : settings.removable = []) {limit : Nat}
    (hl : limit ∈ settings.bufferList) :
    Merge.buffers settings (session.kept settings) limit =
      Merge.buffers settings session limit := by
  have hkept : (session.kept settings).buffers =
      settings.bufferList.elim [] (Merge.buffers settings session) := rfl
  rw [Option.mem_def.mp hl] at hkept
  exact buffers_again hr hkept

theorem registers_values_kept (hf : session.Filed) : (session.kept settings).registers.values =
    session.registers.values.filter fun register => isRegisterName register.value.name :=
  Table.values_filter hf.keyed.registers

theorem globalMarks_values_kept (hf : session.Filed) (hg : settings.globalMarks = true) :
    (session.kept settings).globalMarks.values =
      session.globalMarks.values.filter fun mark => isGlobalMarkName mark.value.name := by
  have hkept : (session.kept settings).globalMarks = session.globalMarks.filter isGlobalMarkName :=
    if_pos hg
  rw [hkept]
  exact Table.values_filter hf.keyed.globalMarks

/-- What is kept of a session has nothing to offer but what the session has. -/
theorem Offers.of_kept (hr : settings.removable = []) (hf : session.Filed) {entry : Entry}
    (ho : (session.kept settings).Offers settings now entry) :
    session.Offers settings now entry := by
  -- A file that is kept comes from the session, with some of its changes.
  have hfile {state : FileState} (hs : state ∈ (session.kept settings).files.values) :
      ∃ original ∈ session.files.values, state.marks = original.marks ∧ ∀ change ∈ state.changes,
        change ∈ original.changes := by
    obtain ⟨file, hfile, rfl⟩ := List.mem_map.mp hs
    obtain ⟨known, hknown, rfl⟩ := List.mem_map.mp ((files_kept hr).mem_iff.mpr hfile)
    obtain ⟨original, hmem, hmarks, -, -, hchanges⟩ :=
      of_mem_top hr hf (List.mem_of_mem_filter hknown)
    refine ⟨original, List.mem_map_of_mem (f := Prod.snd) hmem, hmarks, fun change hc => ?_⟩
    have hheld := (inOrder_perm known.2.changes.items).mem_iff.mp hc
    rw [hchanges] at hheld
    exact Bounded.forall_extend (by simp) (fun _ => id) change hheld
  cases ho with
  | buffers hl =>
    rw [buffers_kept hr hl]
    exact .buffers hl
  | @globalVariable v hv =>
    refine .globalVariable ?_
    unfold kept at hv
    dsimp only at hv
    split at hv
    · exact hv
    · cases hv
  | @pattern substitute p hp => exact .pattern (by cases substitute <;> exact hp)
  | replacement hp => exact .replacement hp
  | @jump jump hj =>
    refine .jump ?_
    exact Bounded.forall_fill (by simp) (fun jump hj => List.mem_reverse.mp hj) jump hj
  | @globalMark mark hm =>
    by_cases hg : settings.globalMarks = true
    · rw [globalMarks_values_kept hf hg] at hm
      exact .globalMark (List.mem_of_mem_filter hm)
    · have hnone : (session.kept settings).globalMarks = .empty := if_neg hg
      rw [hnone] at hm
      cases hm
  | @register register hm =>
    rw [registers_values_kept hf] at hm
    exact .register (List.mem_of_mem_filter hm)
  | localMark hs hm =>
    obtain ⟨original, ho, hmarks, -⟩ := hfile hs
    exact .localMark ho (hmarks ▸ hm)
  | change hs hc =>
    obtain ⟨original, ho, -, hchanges⟩ := hfile hs
    exact .change ho (hchanges _ hc)
  | @history type item hi =>
    rw [kept, PerHistory.get_ofFn] at hi
    have hline : item ∈ session.history.get type :=
      HistoryRing.forall_fill (by simp) (fun line hl => List.mem_reverse.mp hl) item hi
    exact .history hline

theorem registers_kept_merged (hf : session.Filed) (first second : Occasion) :
    ((session.kept settings).merged settings second .empty).registers =
      (session.merged settings first .empty).registers := by
  rw [merged_empty, merged_empty, Merge.seed_eq, Merge.seed_eq]
  show (⟨registerCapacity, []⟩ : Registers).extend
    ((session.kept settings).registers.values.filter fun register =>
      isRegisterName register.value.name) = _
  rw [registers_values_kept hf, List.filter_filter]
  simp only [Bool.and_self]
  rfl

theorem globalMarks_kept_merged (hr : settings.removable = []) (hf : session.Filed)
    (first second : Occasion) :
    ((session.kept settings).merged settings second .empty).globalMarks =
      (session.merged settings first .empty).globalMarks := by
  rw [merged_empty, merged_empty, Merge.seed_eq, Merge.seed_eq]
  show (Merge.seedGlobalMarks settings (session.kept settings) (Merge.start settings)).globalMarks =
    (Merge.seedGlobalMarks settings session (Merge.start settings)).globalMarks
  by_cases hg : settings.globalMarks = true
  · rw [Merge.globalMarks_seed hg hr, Merge.globalMarks_seed hg hr, globalMarks_values_kept hf hg,
      List.filter_filter]
    simp only [Bool.and_self]
  · unfold Merge.seedGlobalMarks
    rw [if_neg hg, if_neg hg]

/-- What is written of what was kept, next to what was written first: lines and
jumps of the same time come the other way round, and changes come in order. -/
theorem entries_kept (hr : settings.removable = []) (hc : settings.changes ≠ 0) (hf : session.Filed)
    (ho : session.OldestFirst) (first second : Occasion) :
    ((session.kept settings).merged settings second .empty).entries settings second
      (session.kept settings) =
      (session.merged settings first .empty).entriesWith settings second session
        (tiesReversed (session.kept settings).jumps)
        (((((session.merged settings first .empty).files.top settings.markedFiles).filter
          fun file => file.2.isInhabited).map fun file => (file.1, file.2.ordered)).flatMap
            fun file => fileEntries file.2)
        fun type => tiesReversed ((session.kept settings).history.get type) := by
  have ht : (session.kept settings).Tidy settings := tidy_kept hr hf ho
  have hfirst := carries_merged_empty hr hf first
  have hsecond := carries_merged_empty hr ht.filed second
  have hvariables : entriesOf .variable
      ((session.kept settings).merged settings second .empty).globalVariables.values =
      (session.merged settings first .empty).globalVariables.values.map fun v =>
      ⟨second.now, .variable v.value⟩ := by
    rw [entriesOf, Dictionary.values, Dictionary.values, hfirst.globalVariables,
      hsecond.globalVariables, ht.globalVariables_kept]
    simp only [List.map_map]
    rfl
  have hbuffers : settings.bufferList.toList.map (fun limit =>
      (⟨second.now, .bufferList (Merge.buffers settings (session.kept settings) limit)⟩ : Entry)) =
        settings.bufferList.toList.map fun limit =>
        ⟨second.now, .bufferList (Merge.buffers settings session limit)⟩ :=
    List.map_congr_left fun limit hl => by rw [buffers_kept hr (Option.mem_toList.mp hl)]
  have htop : ((session.kept settings).merged settings second .empty).files.top
      settings.markedFiles =
      (((session.merged settings first .empty).files.top settings.markedFiles).filter fun file =>
        file.2.isInhabited).map fun file => (file.1, file.2.ordered) := by
    rw [merged_empty, merged_empty, Merge.seed_eq, Merge.seed_eq]
    exact top_kept hr hc hf
  have hlines (type : HistoryType) :
      (((session.kept settings).merged settings second .empty).history.get type).items =
      tiesReversed ((session.kept settings).history.get type) := by
    rw [hsecond.history, ht.history_kept]
  unfold Merge.entries Merge.entriesWith
  simp only [hlines]
  rw [hvariables, hbuffers, hsecond.jumps, ht.jumps_kept hr, htop, hsecond.unknown, List.append_nil,
    registers_kept_merged hf first second, globalMarks_kept_merged hr hf first second,
    hfirst.searchPattern, hfirst.substitutePattern, hfirst.replacement, hsecond.searchPattern,
    hsecond.substitutePattern, hsecond.replacement]
  rfl

theorem files_merged_empty (occasion : Occasion) :
    (session.merged settings occasion .empty).files = session.fileMarks settings := by
  rw [merged_empty, Merge.seed_eq]
  rfl

def writtenFiles (hr : settings.removable = []) (session : Session) : Dictionary Path FileMarks :=
  ⟨(session.fileMarks settings).top settings.markedFiles,
    (distinct_top hr).imp Path.beq_eq_false_of_compare⟩

theorem changes_first (hr : settings.removable = []) (hf : session.Filed) (occasion : Occasion)
    (path : Path) : ((session.merged settings occasion .empty).entries settings occasion
      session).filterMap (Entry.change? path) =
      ((session.writtenFiles hr).find? path).elim [] fun f => f.changes.items := by
  refine Merge.changes_entries ?_ ?_ (carries_merged_empty hr hf occasion).unknown occasion path
  · rw [files_merged_empty]
    rfl
  · intro file hfile change hc
    obtain ⟨state, hmem, -, -, -, hchanges⟩ := of_mem_top hr hf hfile
    rw [hchanges] at hc
    exact Bounded.forall_extend (P := fun change => change.value.file = file.1) (by simp)
      (hf.changes _ hmem) change hc

theorem changes_kept (hr : settings.removable = []) (hc : settings.changes ≠ 0) (hf : session.Filed)
    (ho : session.OldestFirst) (first second : Occasion) (path : Path) :
    (((session.kept settings).merged settings second .empty).entries settings second
        (session.kept settings)).filterMap (Entry.change? path) =
      inOrder (((session.merged settings first .empty).entries settings first session).filterMap
        (Entry.change? path)) := by
  rw [changes_first hr hf, changes_first hr (tidy_kept hr hf ho).filed]
  exact Merge.changes_ordered (top_kept hr hc hf) path

theorem jumps_first (hr : settings.removable = []) (hf : session.Filed) (occasion : Occasion) :
    ((session.merged settings occasion .empty).entries settings occasion session).filterMap
      Entry.jump? = (session.kept settings).jumps := by
  have hcarries := carries_merged_empty hr hf occasion
  rw [Merge.jumps_entries hcarries.unknown, hcarries.jumps]

theorem lines_first (hr : settings.removable = []) (hf : session.Filed) (ho : session.OldestFirst)
    (occasion : Occasion) (type : HistoryType) :
    ((session.merged settings occasion .empty).entries settings occasion session).filterMap
      (Entry.line? type) = (session.kept settings).history.get type := by
  have hcarries := carries_merged_empty hr hf occasion
  rw [Merge.lines_entries ?_ hcarries.unknown, hcarries.history]
  intro other
  rw [hcarries.history]
  exact (tidy_kept hr hf ho).history other

theorem redated_first (hr : settings.removable = []) (hf : session.Filed)
    (first second : Occasion) :
    ((session.merged settings first .empty).entries settings first session).map
      (Entry.redated settings second) =
      (session.merged settings first .empty).entriesWith settings second session
        (session.kept settings).jumps
        (((session.merged settings first .empty).files.top settings.markedFiles).flatMap fun file =>
          fileEntries file.2)
        fun type => (session.kept settings).history.get type := by
  have hcarries := carries_merged_empty hr hf first
  have hlines : (fun type => ((session.merged settings first .empty).history.get type).items) =
      fun type => (session.kept settings).history.get type := funext hcarries.history
  rw [Merge.redated_entries hcarries.unknown, hcarries.jumps, hlines]

/-- What is written of what was kept are the entries that were written first, redated. -/
theorem entries_kept_perm (hr : settings.removable = []) (hc : settings.changes ≠ 0)
    (hf : session.Filed) (ho : session.OldestFirst) (first second : Occasion) :
    (((session.kept settings).merged settings second .empty).entries settings second
      (session.kept settings)).Perm
      (((session.merged settings first .empty).entries settings first session).map
        (Entry.redated settings second)) := by
  rw [redated_first hr hf, entries_kept hr hc hf ho first second]
  exact Merge.entriesWith_perm (tiesReversed_perm _) (Merge.flatMap_ordered_perm _) fun type =>
    tiesReversed_perm _

/-- The entries stand where they stood exactly if the first file was steady. -/
theorem entries_kept_eq_iff (hr : settings.removable = []) (hc : settings.changes ≠ 0)
    (hf : session.Filed) (ho : session.OldestFirst) {first second : Occasion}
    {written rewritten : Stream}
    (hw : written.entries = (session.merged settings first .empty).entries settings first session)
    (hw' : rewritten.entries = ((session.kept settings).merged settings second .empty).entries
      settings second (session.kept settings)) :
    rewritten.entries = written.entries.map (Entry.redated settings second) ↔ written.Steady := by
  have ht : (session.kept settings).Tidy settings := tidy_kept hr hf ho
  have hhistory (type : HistoryType) : written.history type =
      (session.kept settings).history.get type := by
    rw [Stream.history, hw, lines_first hr hf ho]
  have hjumps : written.jumps = (session.kept settings).jumps := by
    rw [Stream.jumps, hw, jumps_first hr hf]
  have hhistory' (type : HistoryType) : rewritten.history type =
      tiesReversed (written.history type) := by
    rw [Stream.history, hw', lines_first hr ht.filed ht.oldestFirst, ht.history_kept, hhistory]
  have hjumps' : rewritten.jumps = tiesReversed written.jumps := by
    rw [Stream.jumps, hw', jumps_first hr ht.filed, ht.jumps_kept hr, hjumps]
  have hchanges' (path : Path) : rewritten.changesOf path = inOrder (written.changesOf path) := by
    rw [Stream.changesOf, hw', changes_kept hr hc hf ho first, ← hw]
    rfl
  refine ⟨fun heq => ⟨fun type => ?_, ?_, fun path => ?_⟩, fun hs => ?_⟩
  · have hsame : rewritten.history type = written.history type :=
      (congrArg (List.filterMap (Entry.line? type)) heq).trans
        (Entry.filterMap_redated settings second (Entry.line?_redated settings second type) _)
    rw [hhistory', hhistory] at hsame
    rw [hhistory]
    exact (tiesReversed_eq_self_iff (ht.historyOrder type) (.of_map _ (ht.texts type))).mp hsame
  · have hsame : rewritten.jumps = written.jumps :=
      (congrArg (List.filterMap Entry.jump?) heq).trans
        (Entry.filterMap_redated settings second (Entry.jump?_redated settings second) _)
    rw [hjumps', hjumps] at hsame
    rw [hjumps]
    exact (tiesReversed_eq_self_iff ht.jumpsOrder (.of_map _ ht.places)).mp hsame
  · have hsame : rewritten.changesOf path = written.changesOf path :=
      (congrArg (List.filterMap (Entry.change? path)) heq).trans
        (Entry.filterMap_redated settings second (Entry.change?_redated settings second path) _)
    rw [hchanges'] at hsame
    exact Recency.inOrder_eq_self_iff.mp hsame
  · have hlines : (fun type => tiesReversed ((session.kept settings).history.get type)) =
        fun type => (session.kept settings).history.get type := by
      funext type
      exact tiesReversed_of_ascending (hhistory type ▸ hs.history type)
    have hordered : ∀ file ∈ (session.merged settings first .empty).files.top settings.markedFiles,
        Recency.OldestFirst file.2.changes.items := by
      intro file hfile
      have hchanges := hs.changes file.1
      rw [Stream.changesOf, hw, changes_first hr hf] at hchanges
      rw [files_merged_empty] at hfile
      have hfind : (session.writtenFiles hr).find? file.1 = some file.2 :=
        Dictionary.find?_of_mem hfile
      rwa [hfind] at hchanges
    rw [hw, hw', redated_first hr hf, entries_kept hr hc hf ho first, hlines,
      tiesReversed_of_ascending (hjumps ▸ hs.jumps), Merge.flatMap_ordered_of_oldestFirst hordered]

/-- If all that is written first is within the limits, so is what is written of what was kept. -/
theorem keeps_kept (hr : settings.removable = []) (hc : settings.changes ≠ 0) (hf : session.Filed)
    (ho : session.OldestFirst) (first second : Occasion)
    (hk : ∀ entry ∈ (session.merged settings first .empty).entries settings first session,
      settings.keeps entry = true) :
    ∀ entry ∈ ((session.kept settings).merged settings second .empty).entries settings second
        (session.kept settings),
      settings.keeps entry = true := by
  have hheader : ∀ entry ∈ ((session.kept settings).merged settings second .empty).entries
      settings second
      (session.kept settings), entry.kind = .header → settings.keeps entry = true := by
    have hcarries := carries_merged_empty hr (tidy_kept hr hf ho).filed second
    refine hcarries.forall_entries (fun _ => keeps_header settings second) (fun _ _ hkind =>
      Kind.noConfusion hkind) ?_
    intro entry hoffers hkind
    cases hoffers <;> exact Kind.noConfusion hkind
  intro entry he
  by_cases hkind : entry.kind = .header
  · exact hheader entry he hkind
  · have hperm := entries_kept_perm hr hc hf ho first second
    obtain ⟨original, hmem, rfl⟩ := List.mem_map.mp (hperm.mem_iff.mp he)
    rw [original.kind_redated] at hkind
    rw [settings.keeps_congr (original.content_redated settings second hkind)]
    exact hk original hmem

theorem save_oldFiles (session : Session) (oldFiles : List Path) (settings : Settings)
    (occasion : Occasion) (previous : Option Stream) (sink : Sink) :
    ({ session with oldFiles } : Session).save settings occasion previous sink =
      session.save settings occasion previous sink := by
  unfold save merge
  rfl

/-- A first save that leaves out nothing is read back as all entries of the merge. -/
theorem read_save_first (hs : session.Survives settings) (hclean : session.Clean settings)
    {first : Occasion} {sink : Sink} {report : SaveReport}
    (hsave : session.save settings first none {} = (sink, .ok report))
    (hskipped : report.skipped = 0) :
    let written : Stream := ⟨sink.bytes, false⟩
    let entries := (session.merged settings first .empty).entries settings first session
    written.read.error = none ∧ written.read.decoded = entries.map .ok ∧
      ∀ entry ∈ entries, settings.keeps entry = true := by
  intro written entries
  obtain ⟨hkeeps, hsink⟩ := save_of_skipped_eq_zero (merge_none first session) hsave hskipped
  have hwritten : written = session.saved settings first .empty :=
    congrArg (fun sink => Stream.mk sink.bytes false) hsink
  obtain ⟨herror, hdecoded⟩ :=
    read_whole hs hclean first fun entry he => Settings.writes_of_keeps (hkeeps entry he)
  rw [← hwritten] at herror hdecoded
  exact ⟨herror, hdecoded, hkeeps⟩

/-- From the entries of a first save, what was kept is restored. -/
theorem restore_kept (hr : settings.removable = []) (hf : session.Filed) (ho : session.OldestFirst)
    {first : Occasion} {options : RestoreOptions} (hi : options.info = true)
    (hm : options.marks = true) {written : Stream} (he : written.read.error = none)
    (hd : written.read.decoded =
      ((session.merged settings first .empty).entries settings first session).map .ok) :
    ∃ applied oldFiles, Session.restore settings options {} written =
      ({ session.kept settings with oldFiles }, .ok { applied }) := by
  have ht : (session.kept settings).Tidy settings := tidy_kept hr hf ho
  have hcarries := carries_merged_empty hr hf first
  have hreaches := Restore.reaches_carried ht rfl hi hm hcarries
  have hreport : (Restore.gathered settings options (session.kept settings)
      ((session.merged settings first .empty).files.states settings.markedFiles)).report = {} := by
    unfold Restore.gathered
    dsimp only
    rw [Restore.foldl_putFile]
  obtain ⟨applied, hrestore⟩ := restore_of_reaches he hd hreaches hreport
  have hinhabited : ∀ file ∈ (session.kept settings).files.entries, file.2.marks.entries ≠ [] ∨
      file.2.changes ≠ [] :=
    fun file hfile => (ht.files file hfile).inhabited
  rw [Restore.finish_gathered_inhabited rfl hinhabited hcarries.files] at hrestore
  exact ⟨applied, _, hrestore⟩

/-- A first save has nothing that is new to what was kept: merged with it, this
is as if there were no file. -/
theorem merge_kept (hr : settings.removable = []) (hf : session.Filed) (ho : session.OldestFirst)
    {first : Occasion} (second : Occasion) {written : Stream} (he : written.read.error = none)
    (hw : written.entries = (session.merged settings first .empty).entries settings first session) :
    ∃ status, (session.kept settings).merge settings second (some written) =
      .ok ((session.kept settings).merged settings second .empty, status) := by
  have ht : (session.kept settings).Tidy settings := tidy_kept hr hf ho
  have hknown : ∀ entry ∈ written.entries,
      ((session.kept settings).merged settings second .empty).Has entry := by
    rw [hw]
    exact (carries_merged_empty hr hf first).forall_entries trivial (fun _ _ => trivial)
      fun entry hoffers => ht.has_offer hr second hoffers
  have hlines (type : HistoryType) : written.history type =
      (session.kept settings).history.get type := by
    rw [Stream.history, hw, lines_first hr hf ho]
  obtain ⟨status, hmerge⟩ := (session.kept settings).merge_of_isReadable settings second
    (Stream.isReadable_of_error_eq_none he)
  rw [ht.merged_eq second hknown hlines] at hmerge
  exact ⟨status, hmerge⟩

/-- A session is saved where there was no file, restored into an empty session, and saved over that
file. If the first save leaves out nothing, neither does the second, and it writes the same entries
again, of another occasion. They come in the same order exactly if no two lines of a history and no
two jumps in the file are of the same time, and the changes of each file are in order. -/
theorem rewrite_restored (hr : settings.removable = []) (hc : settings.changes ≠ 0)
    (hf : session.Filed) (ho : session.OldestFirst) (hs : session.Survives settings)
    (hclean : session.Clean settings) {first : Occasion} {sink : Sink} {report : SaveReport}
    (hsave : session.save settings first none {} = (sink, .ok report))
    (hskipped : report.skipped = 0) {options : RestoreOptions} (hi : options.info = true)
    (hm : options.marks = true) (second : Occasion) :
    let written : Stream := ⟨sink.bytes, false⟩
    ∃ restored applied saved report', ∃ entries entries' : List Entry,
      Session.restore settings options {} written = (restored, .ok { applied }) ∧
      restored.save settings second (some written) {} = ({ bytes := saved }, .ok report') ∧
      report'.skipped = 0 ∧ written.read.results = entries.map .ok ∧
      (Stream.mk saved false).read.results = entries'.map .ok ∧
      entries'.Perm (entries.map (Entry.redated settings second)) ∧
      (entries' = entries.map (Entry.redated settings second) ↔ written.Steady) := by
  intro written
  obtain ⟨herror, hdecoded, hkeeps⟩ := read_save_first hs hclean hsave hskipped
  have hentries := Stream.entries_of_decoded hdecoded
  obtain ⟨applied, oldFiles, hrestore⟩ := restore_kept hr hf ho hi hm herror hdecoded
  obtain ⟨status, hmerge⟩ := merge_kept hr hf ho second herror hentries
  have hkeeps' := keeps_kept hr hc hf ho first second hkeeps
  obtain ⟨report', hsave', hskipped'⟩ := save_of_keeps hmerge hkeeps'
  -- What was kept is of the session, so that it can be stored and read back as well.
  have hs' : (session.kept settings).Survives settings :=
    fun now entry hoffers => hs now entry (hoffers.of_kept hr hf)
  have hclean' : (session.kept settings).Clean settings := fun now entry hoffers =>
    hclean now entry (hoffers.of_kept hr hf)
  obtain ⟨herror', hdecoded'⟩ := read_whole hs' hclean' second fun entry he =>
    Settings.writes_of_keeps (hkeeps' entry he)
  have hentries' := Stream.entries_of_decoded hdecoded'
  refine ⟨_, applied, _, report', _, _, hrestore, (save_oldFiles ..).trans hsave', ?_,
    Stream.results_of_decoded herror hdecoded, Stream.results_of_decoded herror' hdecoded',
    entries_kept_perm hr hc hf ho first second, ?_⟩
  · rw [hskipped', skipped_merged]
    split <;> rfl
  · rw [← hentries, ← hentries']
    exact entries_kept_eq_iff hr hc hf ho hentries hentries'

/-- Two jumps of the same second change places. -/
theorem rewrite_restored_jumps :
    let settings : Settings := { maxKbyte := 0 }
    let session : Session :=
      { jumps := [⟨5, { file := .ofAscii "/a" }⟩, ⟨5, { file := .ofAscii "/b" }⟩] }
    ∃ sink report, session.save settings ⟨7, 1⟩ none {} = (sink, .ok report) ∧ report.skipped = 0 ∧
      let written : Stream := ⟨sink.bytes, false⟩
      ∃ restored applied saved report', ∃ entries entries' : List Entry,
        Session.restore settings { info := true, marks := true } {} written =
          (restored, .ok { applied }) ∧
        restored.save settings ⟨9, 1⟩ (some written) {} = ({ bytes := saved }, .ok report') ∧
        report'.skipped = 0 ∧ written.read.results = entries.map .ok ∧
        (Stream.mk saved false).read.results = entries'.map .ok ∧
        entries'.Perm (entries.map (Entry.redated settings ⟨9, 1⟩)) ∧
        entries' ≠ entries.map (Entry.redated settings ⟨9, 1⟩) := by
  intro settings session
  have hr : settings.removable = [] := rfl
  have hhistory (type : HistoryType) : session.history.get type = [] := by cases type <;> rfl
  have hoffers {now : Timestamp} {entry : Entry} (h : session.Offers settings now entry) :
      entry.content = .jump { file := .ofAscii "/a" } ∨
      entry.content = .jump { file := .ofAscii "/b" } := by
    cases h with
    | jump h =>
      rcases List.mem_pair.mp h with rfl | rfl
      · exact .inl rfl
      · exact .inr rfl
    | history h => cases hhistory _ ▸ h
    | @pattern substitute _ h => cases substitute <;> cases h
    | buffers h | globalVariable h | replacement h | globalMark h | register h | localMark h
    | change h => cases h
  have hfiled : session.Filed :=
    { search := fun p hp => by cases hp
      substitute := fun p hp => by cases hp
      history := fun type item hm => by cases hhistory type ▸ hm
      keyed := ⟨(fun e he => by cases he), (fun e he => by cases he)⟩
      marks := fun file hf => by cases hf
      changes := fun file hf => by cases hf }
  have hordered : session.OldestFirst :=
    { history := fun type => by rw [hhistory]; exact .nil
      jumps := List.pairwise_pair.mpr (UInt64.le_refl _)
      changes := fun file => .nil }
  -- Either jump can be stored, is read back as it is, and is within the limits.
  have hjump {content : Content}
      (h : content = .jump { file := .ofAscii "/a" } ∨ content = .jump { file := .ofAscii "/b" }) :
      content.Survives ∧ content.Clean ∧
      ∀ timestamp, settings.keeps ⟨timestamp, content⟩ = true := by
    have ha : Content.encode (.jump { file := .ofAscii "/a" }) =
        .ok [0x81, 0xA1, 0x66, 0xA2, 0x2F, 0x61] := rfl
    have hb : Content.encode (.jump { file := .ofAscii "/b" }) =
        .ok [0x81, 0xA1, 0x66, 0xA2, 0x2F, 0x62] := rfl
    rcases h with rfl | rfl
    · refine ⟨⟨⟨by decide, by decide, fun _ => rfl, ⟨by decide, by simp, by simp, by simp⟩⟩,
        fun payload hp => ?_⟩, fun pair hp => List.not_mem_nil.elim hp, fun _ => rfl⟩
      exact Except.ok.inj (ha.symm.trans hp) ▸ by simp
    · refine ⟨⟨⟨by decide, by decide, fun _ => rfl, ⟨by decide, by simp, by simp, by simp⟩⟩,
        fun payload hp => ?_⟩, fun pair hp => List.not_mem_nil.elim hp, fun _ => rfl⟩
      exact Except.ok.inj (hb.symm.trans hp) ▸ by simp
  have hsurvives : session.Survives settings := fun now entry h => (hjump (hoffers h)).1
  have hclean : session.Clean settings := fun now entry h => (hjump (hoffers h)).2.1
  have hkeeps : ∀ entry ∈ (session.merged settings ⟨7, 1⟩ .empty).entries settings ⟨7, 1⟩ session,
      settings.keeps entry = true := by
    have hcarries := carries_merged_empty hr hfiled ⟨7, 1⟩
    refine hcarries.forall_entries (keeps_header settings ⟨7, 1⟩) (fun _ hl => by cases hl) ?_
    exact fun entry h => (hjump (hoffers (h.of_kept hr hfiled))).2.2 entry.timestamp
  obtain ⟨report, hsave, hskipped⟩ := save_of_keeps (merge_none ⟨7, 1⟩ session) hkeeps
  rw [skipped_merged] at hskipped
  obtain ⟨-, hdecoded, -⟩ := read_save_first hsurvives hclean hsave hskipped
  let options : RestoreOptions := { info := true, marks := true }
  have hinfo : options.info = true := rfl
  have hrewrite := rewrite_restored hr (by decide) hfiled hordered hsurvives hclean hsave hskipped
    hinfo rfl ⟨9, 1⟩
  obtain ⟨restored, applied, saved, report', entries, entries', hrestore, hsave', hskipped', hread,
      hread', hperm,
    hiff⟩ := hrewrite
  refine ⟨_, report, hsave, hskipped, restored, applied, saved, report', entries, entries',
    hrestore, hsave', hskipped', hread, hread', hperm, fun heq => ?_⟩
  have hjumps := (hiff.mp heq).jumps
  rw [Stream.jumps, Stream.entries_of_decoded hdecoded, jumps_first hr hfiled] at hjumps
  have hlt : (5 : Timestamp) < 5 :=
    (List.pairwise_cons.mp hjumps).1 ⟨5, { file := .ofAscii "/a" }⟩ (.head _)
  exact UInt64.lt_irrefl _ hlt

end Session

end SessionStore
