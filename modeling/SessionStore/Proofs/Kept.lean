import SessionStore.Proofs.Collection.KnownFiles
import SessionStore.Proofs.Collection.Ties
import SessionStore.Proofs.RestoredLists
import SessionStore.Proofs.Slots

/-! What is kept of a session that is written where there is no file yet: all
that there is room for, in order. -/
namespace SessionStore

open Recency

/-- Marks and changes that stand where they belong, with room for all changes. -/
structure FileState.WellFormed (settings : Settings) (file : Path) (state : FileState) : Prop where
  marks : ∀ mark ∈ state.marks.entries, mark.2.value.name = mark.1 ∧ mark.2.value.file = file
  changes : ∀ change ∈ state.changes, change.value.file = file
  places : (state.changes.map fun change => change.value.place).Nodup
  oldestFirst : OldestFirst state.changes
  room : state.changes.length ≤ settings.changes
  inhabited : state.marks.entries ≠ [] ∨ state.changes ≠ []

/-- Everything stands under its own name, in its own list and in its own file. -/
structure Session.Filed (session : Session) : Prop where
  search : ∀ p ∈ session.searchPattern, p.value.isSubstitute = false
  substitute : ∀ p ∈ session.substitutePattern, p.value.isSubstitute = true
  history : ∀ type, ∀ item ∈ session.history.get type, item.value.type = type
  keyed : session.KeyedByName
  marks : ∀ file ∈ session.files.entries, ∀ mark ∈ file.2.marks.entries,
    mark.2.value.name = mark.1 ∧ mark.2.value.file = file.1
  changes : ∀ file ∈ session.files.entries, ∀ change ∈ file.2.changes, change.value.file = file.1

/-- A session that has nothing but what is kept of it, and for which lists are in order. -/
structure Session.Tidy (settings : Settings) (session : Session) : Prop where
  search : ∀ p ∈ session.searchPattern, p.value.isSubstitute = false
  substitute : ∀ p ∈ session.substitutePattern, p.value.isSubstitute = true
  history : ∀ type, ∀ item ∈ session.history.get type, item.value.type = type
  texts : ∀ type, ((session.history.get type).map fun item => item.value.text).Nodup
  historyOrder : ∀ type, Recency.OldestFirst (session.history.get type)
  historyRoom : ∀ type, (session.history.get type).length ≤ settings.history.get type
  registers : ∀ e ∈ session.registers.entries, e.2.value.name = e.1 ∧ isRegisterName e.1 = true
  globalVariables : settings.globalVariables = true ∨ session.globalVariables = .empty
  transient : session.transient = []
  globalMarks : ∀ e ∈ session.globalMarks.entries, e.2.value.name = e.1 ∧
    isGlobalMarkName e.1 = true
  globalMarksKept : settings.globalMarks = true ∨ session.globalMarks = .empty
  files : ∀ file ∈ session.files.entries, file.2.WellFormed settings file.1
  fileRoom : session.files.entries.length ≤ settings.markedFiles
  places : (session.jumps.map fun jump => jump.value.place).Nodup
  jumpsOrder : Recency.OldestFirst session.jumps
  jumpRoom : session.jumps.length ≤ settings.jumps
  buffers : settings.bufferList.elim [] (Merge.buffers settings session) = session.buffers

theorem Session.Tidy.filed {settings : Settings} {session : Session} (ht : session.Tidy settings) :
    session.Filed where
  search := ht.search
  substitute := ht.substitute
  history := ht.history
  keyed := ⟨fun e he => (ht.registers e he).1, fun e he => (ht.globalMarks e he).1⟩
  marks := fun file hf => (ht.files file hf).marks
  changes := fun file hf => (ht.files file hf).changes

theorem Session.not_isRemovable {settings : Settings} (h : settings.removable = []) (path : Path) :
    (!settings.isRemovable path) = true := by
  rw [Settings.isRemovable, h]
  rfl

theorem Session.buffers_eq {settings : Settings} (h : settings.removable = []) (session : Session)
    (limit : Nat) : Merge.buffers settings session limit =
      if limit = 0 then session.buffers else session.buffers.take limit := by
  have hkept : session.buffers.filter (fun buffer => !settings.isRemovable buffer.file) =
      session.buffers :=
    List.filter_eq_self.mpr fun buffer _ => not_isRemovable h buffer.file
  rw [Merge.buffers, hkept]

theorem Session.buffers_again {settings : Settings} (h : settings.removable = [])
    {session kept : Session} {limit : Nat}
    (hk : kept.buffers = Merge.buffers settings session limit) :
    Merge.buffers settings kept limit = Merge.buffers settings session limit := by
  rw [buffers_eq h, hk, buffers_eq h]
  split
  · rfl
  · rw [List.take_take, Nat.min_self]

namespace Session

variable {settings : Settings} {session : Session}

def fileMarks (settings : Settings) (session : Session) : FileMarksMap :=
  (Merge.seedFiles settings session (Merge.start settings)).files

/-- What is kept of a session where there is no file yet, as it is read back. -/
def kept (settings : Settings) (session : Session) : Session :=
  { session with
    history := .ofFn fun type =>
      (HistoryRing.fill ⟨settings.history.get type, []⟩ true
        (session.history.get type).reverse).items
    registers := session.registers.filter isRegisterName
    globalVariables := if settings.globalVariables then session.globalVariables else .empty
    transient := []
    globalMarks :=
      if settings.globalMarks then session.globalMarks.filter isGlobalMarkName else .empty
    files := ((session.fileMarks settings).states settings.markedFiles).foldl
      (fun held file => held.insert file.1 file.2) .empty
    jumps := (Bounded.fill (⟨settings.jumps, []⟩ : JumpList)
      (fun mark => !settings.isRemovable mark.file) session.jumps.reverse).items
    buffers := settings.bufferList.elim [] (Merge.buffers settings session) }

section Files

/-- What is known of each file, in the order of the session. -/
theorem entries_fileMarks (hr : settings.removable = []) (hm : settings.markedFiles ≠ 0) :
    (session.fileMarks settings).files.entries = session.files.entries.map fun file =>
      (file.1, (FileMarks.new settings.changes).extend file.2.marks.values file.2.changes) := by
  have hkept : session.markedFiles.filter (fun file => !settings.isRemovable file) =
      session.markedFiles :=
    List.filter_eq_self.mpr fun file _ => not_isRemovable hr file
  have hfresh : (Dictionary.empty : Dictionary Path FileMarks).Fresh
      (session.markedFiles.map id) := by
    rw [List.map_id]
    exact Dictionary.fresh_empty
      (List.pairwise_map.mpr (session.files.distinct.imp Path.beq_eq_false_of_compare))
  have hentries := Dictionary.entries_foldl_alter id (fun file held =>
    (held.getD (FileMarks.new settings.changes)).extend (session.localMarks file)
      (session.changesOf file)) hfresh
  unfold fileMarks Merge.seedFiles
  rw [if_neg hm, hkept]
  dsimp only
  rw [FileMarksMap.files_foldl_modify]
  apply hentries.trans
  rw [markedFiles, Table.keys, List.map_map]
  refine List.map_congr_left fun file hf => ?_
  have hfind : session.files.find? file.1 = some file.2 := Table.find?_of_mem hf
  dsimp only [id, Function.comp_apply]
  rw [localMarks, changesOf, hfind]
  rfl

/-- No files, where none are to be kept. -/
theorem top_zero (m : FileMarksMap) : m.top 0 = [] := List.take_zero

theorem of_mem_top (hr : settings.removable = []) (hf : session.Filed) {file : Path × FileMarks}
    (h : file ∈ (session.fileMarks settings).top settings.markedFiles) :
    ∃ state, (file.1, state) ∈ session.files.entries ∧ file.2.state.marks = state.marks ∧
      file.2.marks = state.marks.values ∧
      file.2 = (FileMarks.new settings.changes).extend state.marks.values state.changes ∧
      file.2.changes = (⟨settings.changes, []⟩ : ChangeList).extend state.changes := by
  by_cases hm : settings.markedFiles = 0
  · rw [hm, top_zero] at h
    cases h
  · have hentry := FileMarksMap.mem_entries_of_mem_top h
    rw [entries_fileMarks hr hm] at hentry
    obtain ⟨⟨path, state⟩, hmem, rfl⟩ := List.mem_map.mp hentry
    have hkeys : ∀ e ∈ state.marks.entries, e.2.value.name = e.1 :=
      fun e he => (hf.marks _ hmem e he).1
    have hnames : (state.marks.values.map fun mark => mark.value.name).Nodup :=
      Table.nodup_values_map hkeys
    obtain ⟨greatest, hextend⟩ := FileMarks.extend_new settings.changes hnames state.changes
    refine ⟨state, hmem, ?_, ?_, rfl, ?_⟩
    · rw [hextend]
      exact Table.foldl_insert_eq hkeys (.refl _)
    · rw [hextend]
    · rw [hextend]

theorem distinct_top (hr : settings.removable = []) :
    ((session.fileMarks settings).top settings.markedFiles).Pairwise fun a b =>
      compare a.1 b.1 ≠ .eq := by
  by_cases hm : settings.markedFiles = 0
  · rw [hm, top_zero]
    exact .nil
  · refine FileMarksMap.pairwise_top Table.compare_ne_symm ?_ settings.markedFiles
    rw [entries_fileMarks hr hm, List.pairwise_map]
    exact session.files.distinct

/-- The files of what is kept are those that are written. -/
theorem files_kept (hr : settings.removable = []) :
    ((session.fileMarks settings).states settings.markedFiles).Perm
      (session.kept settings).files.entries := by
  have hdistinct : (((session.fileMarks settings).states settings.markedFiles).map
      Prod.fst).Pairwise fun a b => compare a b ≠ .eq := by
    rw [FileMarksMap.states, List.map_map]
    exact List.pairwise_map.mpr ((distinct_top hr).filter _)
  have hentries :=
    Table.entries_foldl_insert Prod.fst Prod.snd (Table.fresh_empty (υ := FileState) hdistinct)
  refine List.Perm.symm (hentries.trans (.of_eq ?_))
  exact List.map_id _

theorem wellFormed_kept (hr : settings.removable = []) (hf : session.Filed) :
    ∀ file ∈ (session.kept settings).files.entries, file.2.WellFormed settings file.1 := by
  intro file hfile
  obtain ⟨known, hknown, rfl⟩ := List.mem_map.mp ((files_kept hr).mem_iff.mpr hfile)
  obtain ⟨htop, hinhabited⟩ := List.mem_filter.mp hknown
  obtain ⟨state, hmem, hstate, hmarks, -, hchanges⟩ := of_mem_top hr hf htop
  obtain ⟨hplaces, hroom⟩ := FileMarks.nodup_changes settings.changes state.changes
  have hperm := inOrder_perm known.2.changes.items
  rw [← hchanges] at hplaces hroom
  refine ⟨?_, fun change hc => ?_, ?_, oldestFirst_inOrder _, ?_, ?_⟩
  · dsimp only
    rw [hstate]
    exact hf.marks _ hmem
  · have hheld := hperm.mem_iff.mp hc
    rw [hchanges] at hheld
    exact Bounded.forall_extend (P := fun change => change.value.file = known.1) (by simp)
      (hf.changes _ hmem) change hheld
  · exact (hperm.map _).nodup_iff.mpr hplaces
  · exact hperm.length_eq ▸ hroom
  · rcases FileMarks.isInhabited_iff.mp hinhabited with hsome | hsome
    · refine .inl fun hnil => hsome ?_
      dsimp only at hnil
      rw [hmarks, Table.values, ← hstate, hnil]
      rfl
    · refine .inr fun hnil => hsome ?_
      have hnil : inOrder known.2.changes.items = [] := hnil
      rw [hnil] at hperm
      exact hperm.symm.eq_nil

/-- Of what is kept, the same files are written, in the same order. -/
theorem top_kept (hr : settings.removable = []) (hc : settings.changes ≠ 0) (hf : session.Filed) :
    ((session.kept settings).fileMarks settings).top settings.markedFiles =
      (((session.fileMarks settings).top settings.markedFiles).filter fun file =>
        file.2.isInhabited).map fun file =>
        (file.1, file.2.ordered) := by
  by_cases hm : settings.markedFiles = 0
  · rw [hm, top_zero, top_zero]
    rfl
  · have hagain : ∀ file ∈ ((session.fileMarks settings).top settings.markedFiles).filter
          fun file => file.2.isInhabited,
        (FileMarks.new settings.changes).extend file.2.state.marks.values file.2.state.changes =
          file.2.ordered := by
      intro file hfile
      obtain ⟨state, hmem, hstate, -, hknown, -⟩ := of_mem_top hr hf (List.mem_of_mem_filter hfile)
      have hnames : (state.marks.values.map fun mark => mark.value.name).Nodup :=
        Table.nodup_values_map fun e he => (hf.marks _ hmem e he).1
      have hall := FileMarks.extend_again hc hnames state.changes
      rw [← hknown] at hall
      rw [hstate]
      exact hall
    have hperm : ((session.kept settings).fileMarks settings).files.entries.Perm
        ((((session.fileMarks settings).top settings.markedFiles).filter fun file =>
          file.2.isInhabited).map fun file => (file.1, file.2.ordered)) := by
      rw [entries_fileMarks hr hm]
      refine ((files_kept hr).symm.map _).trans (.of_eq ?_)
      rw [FileMarksMap.states, List.map_map]
      exact List.map_congr_left fun file hfile => congrArg (Prod.mk file.1) (hagain file hfile)
    have hordered : (((session.kept settings).fileMarks settings).files.entries.mergeSort
        fun a b => b.2.greatest ≤ a.2.greatest).Pairwise FileMarksMap.GoesFirst := by
      refine FileMarksMap.goesFirst_mergeSort ?_
      rw [entries_fileMarks hr hm]
      exact List.pairwise_map.mpr (session.kept settings).files.ascending
    have hold : ((session.fileMarks settings).top settings.markedFiles).Pairwise
        FileMarksMap.GoesFirst := by
      refine (FileMarksMap.goesFirst_mergeSort ?_).sublist (List.take_sublist ..)
      rw [entries_fileMarks hr hm]
      exact List.pairwise_map.mpr session.files.ascending
    have hkept : ((((session.fileMarks settings).top settings.markedFiles).filter fun file =>
        file.2.isInhabited).map fun file => (file.1, file.2.ordered)).Pairwise
          FileMarksMap.GoesFirst :=
      List.pairwise_map.mpr (hold.filter _)
    have hsame :=
      FileMarksMap.eq_of_goesFirst hordered hkept ((List.mergeSort_perm _ _).trans hperm)
    have hroom : ((session.fileMarks settings).top settings.markedFiles).length ≤
        settings.markedFiles :=
      List.length_take_le ..
    rw [FileMarksMap.top, hsame, List.take_of_length_le]
    rw [List.length_map]
    exact Nat.le_trans (List.length_filter_le ..) hroom

end Files

/-- The lines that are kept: different ones, in order, and not too many. -/
theorem newestKept_history (settings : Settings) (ho : session.OldestFirst) (type : HistoryType) :
    NewestKept (settings.history.get type)
      (fun k t => (k, t) ∈ facts HistoryItem.text (session.history.get type).reverse)
      (facts HistoryItem.text ((session.kept settings).history.get type)) := by
  have hempty : NewestKept (⟨settings.history.get type, []⟩ : HistoryRing).capacity
      (fun _ _ => False)
      (facts HistoryItem.text (⟨settings.history.get type, []⟩ : HistoryRing).items) :=
    NewestKept.nil _
  have hfill :=
    HistoryRing.newestKept_fill hempty .nil (List.pairwise_reverse.mpr (ho.history type)) true
  rw [kept, PerHistory.get_ofFn]
  exact hfill.congr fun _ _ => (or_iff_right id).symm

theorem newestKept_jumps (hr : settings.removable = []) (ho : session.OldestFirst) :
    NewestKept settings.jumps (fun k t => (k, t) ∈ facts Mark.place session.jumps.reverse)
      (facts Mark.place (session.kept settings).jumps) := by
  have hempty : NewestKept (⟨settings.jumps, []⟩ : JumpList).capacity (fun _ _ => False)
      (facts Mark.place (⟨settings.jumps, []⟩ : JumpList).items) := NewestKept.nil _
  let isWanted (mark : Mark) : Bool := !settings.isRemovable mark.file
  have hwanted : ∀ jump ∈ session.jumps.reverse, isWanted jump.value = true := fun jump _ =>
    not_isRemovable hr jump.value.file
  have hfill := Bounded.newestKept_fill Mark.sameLocation_iff hempty
    (List.pairwise_reverse.mpr ho.jumps) hwanted
  exact hfill.congr fun _ _ => (or_iff_right id).symm

theorem tidy_kept (hr : settings.removable = []) (hf : session.Filed) (ho : session.OldestFirst) :
    (session.kept settings).Tidy settings where
  search := hf.search
  substitute := hf.substitute
  history := fun type => by
    rw [kept, PerHistory.get_ofFn]
    exact HistoryRing.forall_fill (by simp) fun item hi =>
      hf.history type item (List.mem_reverse.mp hi)
  texts := fun type => nodup_of_newestKept (newestKept_history settings ho type)
  historyOrder := fun type => by
    rw [kept, PerHistory.get_ofFn]
    exact HistoryRing.oldestFirst_fill (HistoryRing.oldestFirst_empty _) true _
  historyRoom := fun type => length_le_of_newestKept (newestKept_history settings ho type)
  registers := fun e he =>
    have he := List.mem_filter.mp he
    ⟨hf.keyed.registers e he.1, he.2⟩
  globalVariables := by
    unfold kept
    dsimp only
    split
    · next h => exact .inl h
    · exact .inr rfl
  transient := rfl
  globalMarks := by
    unfold kept
    dsimp only
    split
    · exact fun e he =>
        have he := List.mem_filter.mp he
        ⟨hf.keyed.globalMarks e he.1, he.2⟩
    · exact fun e he => by cases he
  globalMarksKept := by
    unfold kept
    dsimp only
    split
    · next h => exact .inl h
    · exact .inr rfl
  files := wellFormed_kept hr hf
  fileRoom := by
    rw [← (files_kept hr).length_eq, FileMarksMap.states, List.length_map]
    exact Nat.le_trans (List.length_filter_le ..) (List.length_take_le ..)
  places := nodup_of_newestKept (newestKept_jumps hr ho)
  jumpsOrder := by
    have hwanted : (fun mark : Mark => !settings.isRemovable mark.file) = fun _ => true :=
      funext fun mark => not_isRemovable hr mark.file
    have hfilled := (Bounded.orderly_empty Mark.place settings.jumps).fill Mark.sameLocation_iff
      (show ([] ++ session.jumps.reverse).Pairwise _ from List.pairwise_reverse.mpr ho.jumps)
    unfold kept
    rw [hwanted]
    exact hfilled.oldestFirst
  jumpRoom := length_le_of_newestKept (newestKept_jumps hr ho)
  buffers := by
    have hkept : (session.kept settings).buffers =
        settings.bufferList.elim [] (Merge.buffers settings session) := rfl
    rw [hkept]
    cases hb : settings.bufferList with
    | none => rfl
    | some limit =>
      rw [hb] at hkept
      exact buffers_again hr hkept

section Tidy

theorem Tidy.oldestFirst (ht : session.Tidy settings) : session.OldestFirst where
  history := ht.historyOrder
  jumps := ht.jumpsOrder
  changes := fun file => by
    unfold changesOf
    cases hfind : session.files.find? file with
    | none => exact .nil
    | some state =>
      obtain ⟨held, hm, rfl⟩ := List.mem_map.mp (Table.mem_values_of_find? hfind)
      exact (ht.files held hm).oldestFirst

theorem Tidy.history_kept (ht : session.Tidy settings) (type : HistoryType) :
    (session.kept settings).history.get type = tiesReversed (session.history.get type) := by
  rw [kept, PerHistory.get_ofFn, HistoryRing.fill_reverse (ht.historyRoom type) (ht.texts type)]

theorem Tidy.jumps_kept (hr : settings.removable = []) (ht : session.Tidy settings) :
    (session.kept settings).jumps = tiesReversed session.jumps := by
  have hwanted : ∀ jump ∈ session.jumps, (!settings.isRemovable jump.value.file) = true :=
    fun jump _ => not_isRemovable hr jump.value.file
  exact congrArg Bounded.items
    (Bounded.fill_reverse Mark.sameLocation_iff hwanted ht.jumpRoom ht.places)

theorem Tidy.registers_kept (ht : session.Tidy settings) :
    (session.kept settings).registers = session.registers :=
  Table.filter_eq_self fun e he => (ht.registers e he).2

theorem Tidy.globalMarks_kept (ht : session.Tidy settings) :
    (session.kept settings).globalMarks = session.globalMarks := by
  unfold kept
  dsimp only
  rcases ht.globalMarksKept with hg | hnone
  · rw [if_pos hg, Table.filter_eq_self fun e he => (ht.globalMarks e he).2]
  · rw [hnone]
    split <;> rfl

theorem Tidy.globalVariables_kept (ht : session.Tidy settings) :
    (session.kept settings).globalVariables = session.globalVariables := by
  unfold kept
  dsimp only
  rcases ht.globalVariables with hg | hnone
  · rw [if_pos hg]
  · rw [hnone]
    split <;> rfl

theorem Tidy.extend_state (ht : session.Tidy settings) {file : Path × FileState}
    (hf : file ∈ session.files.entries) :
    ∃ greatest, (FileMarks.new settings.changes).extend file.2.marks.values file.2.changes =
      ⟨file.2.marks.values, ⟨settings.changes, file.2.changes⟩, greatest⟩ := by
  have hfile := ht.files file hf
  have hnames : (file.2.marks.values.map fun mark => mark.value.name).Nodup :=
    Table.nodup_values_map fun e he => (hfile.marks e he).1
  obtain ⟨greatest, hextend⟩ := FileMarks.extend_new settings.changes hnames file.2.changes
  refine ⟨greatest, ?_⟩
  rw [hextend, Bounded.extend_new Mark.sameLocation_iff]
  · exact congrArg (fun changes => FileMarks.mk _ (Bounded.mk _ changes) _)
      (inOrder_of_oldestFirst hfile.oldestFirst)
  · simpa using hfile.room
  · exact hfile.places

theorem Tidy.state_extend (ht : session.Tidy settings) {file : Path × FileState}
    (hf : file ∈ session.files.entries) :
    let known := (FileMarks.new settings.changes).extend file.2.marks.values file.2.changes
    known.state = file.2 ∧ known.isInhabited = true := by
  have hfile := ht.files file hf
  obtain ⟨greatest, hextend⟩ := ht.extend_state hf
  dsimp only
  rw [hextend]
  constructor
  · have hmarks : file.2.marks.values.foldl (fun held mark => held.insert mark.value.name mark)
        .empty = file.2.marks :=
      Table.foldl_insert_eq (fun e he => (hfile.marks e he).1) (.refl _)
    unfold FileMarks.state
    dsimp only
    rw [hmarks, inOrder_of_oldestFirst hfile.oldestFirst]
  · refine FileMarks.isInhabited_iff.mpr (hfile.inhabited.imp_left fun hsome hnil => hsome ?_)
    exact List.map_eq_nil_iff.mp hnil

theorem Tidy.top_fileMarks (hr : settings.removable = []) (ht : session.Tidy settings) :
    ((session.fileMarks settings).top settings.markedFiles).Perm
      (session.files.entries.map fun file =>
      (file.1, (FileMarks.new settings.changes).extend file.2.marks.values file.2.changes)) := by
  have hroom := ht.fileRoom
  by_cases hm : settings.markedFiles = 0
  · have hnil : session.files.entries = [] := List.length_eq_zero_iff.mp (by omega)
    rw [hm, top_zero, hnil]
    exact .refl _
  · have hfiles : (session.fileMarks settings).files.entries = _ := entries_fileMarks hr hm
    unfold FileMarksMap.top
    rw [List.take_of_length_le, ← hfiles]
    · exact List.mergeSort_perm ..
    · rw [List.length_mergeSort, hfiles, List.length_map]
      exact hroom

theorem Tidy.states_fileMarks (hr : settings.removable = []) (ht : session.Tidy settings) :
    (session.fileMarks settings).states settings.markedFiles =
        ((session.fileMarks settings).top settings.markedFiles).map
          (fun file => (file.1, file.2.state)) ∧
      ((session.fileMarks settings).states settings.markedFiles).Perm session.files.entries := by
  have htop := ht.top_fileMarks hr
  have hall : ((session.fileMarks settings).top settings.markedFiles).filter
      (fun file => file.2.isInhabited) = (session.fileMarks settings).top settings.markedFiles := by
    refine List.filter_eq_self.mpr fun known hknown => ?_
    obtain ⟨file, hf, rfl⟩ := List.mem_map.mp (htop.mem_iff.mp hknown)
    exact (ht.state_extend hf).2
  rw [FileMarksMap.states, hall]
  refine ⟨rfl, (htop.map _).trans (.of_eq ?_)⟩
  rw [List.map_map]
  refine (List.map_congr_left fun file hf => ?_).trans (List.map_id _)
  rw [Function.comp_apply, (ht.state_extend hf).1]
  rfl

theorem Tidy.files_kept (hr : settings.removable = []) (ht : session.Tidy settings) :
    (session.kept settings).files = session.files :=
  Table.eq_of_perm ((Session.files_kept hr).symm.trans (ht.states_fileMarks hr).2)

end Tidy

end Session

end SessionStore
