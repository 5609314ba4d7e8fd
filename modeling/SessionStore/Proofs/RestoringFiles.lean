import SessionStore.Proofs.Restoring

/-! What a restore makes of the marks and changes of files that nothing is known of. -/
namespace SessionStore

theorem Merge.flatMap_inhabited (files : List (Path × FileMarks)) :
    (files.filter fun file => file.2.isInhabited).flatMap (fun file => fileEntries file.2) =
      files.flatMap fun file => fileEntries file.2 := by
  induction files with
  | nil => rfl
  | cons file rest ih =>
    by_cases hf : file.2.isInhabited = true
    · rw [List.filter_cons_of_pos (by exact hf), List.flatMap_cons, List.flatMap_cons, ih]
    · have hnone := mt FileMarks.isInhabited_iff.mpr hf
      rw [not_or, not_not, not_not] at hnone
      have hentries : fileEntries file.2 = [] := by
        unfold fileEntries FileMarks.slotted FileMarks.unslotted FileMarks.named?
        rw [hnone.1, hnone.2]
        rfl
      rw [List.filter_cons_of_neg (by exact hf), List.flatMap_cons, hentries, ih]
      rfl

end SessionStore

namespace SessionStore.Restore

open Merge (entriesOf)
open Recency

variable {settings : Settings} {options : RestoreOptions} {r : Restore}

/-- The restore with the marks of a file, which is noted as an old one if these are wanted. -/
def putMarks (options : RestoreOptions) (file : Path) (r : Restore) (state : FileState) : Restore :=
  { r with
    session.files := r.session.files.insert file state
    oldFiles := if options.oldFiles then r.oldFiles.insertNew file () else r.oldFiles }

def addMark (state : FileState) (mark : Timed Mark) : FileState :=
  { state with marks := state.marks.insert mark.value.name mark }

theorem putMarks_putMarks (file : Path) (r : Restore) (state state' : FileState) :
    putMarks options file (putMarks options file r state) state' =
      putMarks options file r state' := by
  unfold putMarks
  dsimp only
  rw [Table.insert_insert]
  by_cases ho : options.oldFiles
  · simp only [ho, if_true, Dictionary.insertNew_insertNew]
  · simp only [ho, if_false, Bool.false_eq_true]

theorem foldl_addMark (state : FileState) (marks : List (Timed Mark)) : marks.foldl addMark state =
    { state with
      marks := marks.foldl (fun held mark => held.insert mark.value.name mark) state.marks } := by
  induction marks generalizing state with
  | nil => rfl
  | cons mark rest ih => exact ih (addMark state mark)

/-- Marks of names that a file does not have yet join those that it has. -/
theorem reaches_localMarks (hm : options.marks = true) (hf : 0 < settings.markedFiles) {file : Path}
    {state : FileState} {items : List (Timed Mark)}
    (hr : (r.session.files.find? file).getD {} = state)
    (hp : ∀ item ∈ items, item.value.file = file)
    (hfresh : state.marks.Fresh (items.map fun item => item.value.name)) :
    Reaches settings options (entriesOf .localMark items) r
      (if items = [] then r else putMarks options file r (items.foldl addMark state)) := by
  refine reaches_gathered (fun r state => (r.session.files.find? file).getD {} = state)
    (putMarks options file) addMark
    (fun state items => (∀ item ∈ items, item.value.file = file) ∧
      state.marks.Fresh (items.map fun item => item.value.name)) ?_ (putMarks_putMarks file) ?_
      hr ⟨hp, hfresh⟩
  · intro r state
    show ((r.session.files.insert file state).find? file).getD {} = state
    rw [Table.find?_insert_self]
    rfl
  · rintro r state item rest hstate ⟨hfiles, hnames⟩
    obtain ⟨hfile, hrest⟩ := List.forall_mem_cons.mp hfiles
    refine ⟨?_, hrest, hnames.insert item⟩
    have habsent : r.session.localMark? file item.value.name = none := by
      have hname : state.marks.find? item.value.name = none := hnames.absent _ List.mem_cons_self
      unfold Session.localMark?
      cases hfind : r.session.files.find? file with
      | none => rfl
      | some held =>
        rw [hfind] at hstate
        rw [← hstate] at hname
        exact hname
    have happlies : (options.marks && decide (0 < settings.markedFiles) &&
        wins options item.timestamp (r.session.localMark? file item.value.name)) = true := by
      rw [hm, decide_eq_true hf, habsent, wins_none]
      rfl
    have hset : r.session.setLocalMark item =
        { r.session with files := r.session.files.insert file (addMark state item) } := by
      unfold Session.setLocalMark Session.alterFile
      rw [hfile, Table.alter_eq_insert, hstate]
      rfl
    have happly : r.apply settings options ⟨item.timestamp, .localMark item.value⟩ =
        (r.noteOldFile options item.value.file).update (options.marks &&
          decide (0 < settings.markedFiles) &&
          wins options item.timestamp (r.session.localMark? item.value.file item.value.name))
          (·.setLocalMark item) := rfl
    rw [happly, hfile, update_of_true happlies]
    unfold putMarks noteOldFile
    by_cases ho : options.oldFiles
    · simp only [ho, if_true, hset]
    · simp only [ho, if_false, Bool.false_eq_true, hset]

/-- The restore with marks of a file that nothing was known of, unless there are none. -/
def withMarks (options : RestoreOptions) (file : Path) (r : Restore) (marks : List (Timed Mark)) :
    Restore :=
  if marks = [] then r else putMarks options file r (marks.foldl addMark {})

theorem changes_withMarks (file : Path) (r : Restore) (marks : List (Timed Mark)) :
    (withMarks options file r marks).changes = r.changes := by
  unfold withMarks
  by_cases hmarks : marks = []
  · rw [if_pos hmarks]
  · rw [if_neg hmarks]
    rfl

theorem files_withMarks {file : Path} (hr : r.session.files.find? file = none)
    (marks : List (Timed Mark)) :
    ((withMarks options file r marks).session.files.find? file).getD {} =
      marks.foldl addMark {} := by
  unfold withMarks
  by_cases hmarks : marks = []
  · rw [if_pos hmarks, hr, hmarks]
    rfl
  · rw [if_neg hmarks]
    show ((r.session.files.insert file _).find? file).getD {} = _
    rw [Table.find?_insert_self]
    rfl

theorem changesOf_withMarks {file : Path} (hr : r.session.files.find? file = none)
    (marks : List (Timed Mark)) : (withMarks options file r marks).session.changesOf file = [] := by
  have hstate : ((withMarks options file r marks).session.files.find? file).getD {} =
      marks.foldl addMark {} :=
    files_withMarks hr marks
  rw [foldl_addMark] at hstate
  unfold Session.changesOf
  cases hfind : (withMarks options file r marks).session.files.find? file with
  | none => rfl
  | some held =>
    rw [hfind] at hstate
    exact congrArg FileState.changes hstate

theorem reaches_withMarks (hm : options.marks = true) (hf : 0 < settings.markedFiles) {file : Path}
    {held items : List (Timed Mark)} (hr : r.session.files.find? file = none)
    (hp : ∀ item ∈ items, item.value.file = file)
    (hd : ((held ++ items).map fun item => item.value.name).Nodup) :
    Reaches settings options (entriesOf .localMark items) (withMarks options file r held)
      (withMarks options file r (held ++ items)) := by
  have hnames : (held.foldl addMark {}).marks.Fresh (items.map fun item => item.value.name) := by
    have hfresh : (Table.empty : Table Char (Timed Mark)).Fresh ((held ++ items).map fun item =>
        item.value.name) :=
      Table.fresh_empty (hd.imp fun hne heq => hne (Std.LawfulEqCmp.eq_of_compare heq))
    rw [List.map_append] at hfresh
    rw [foldl_addMark]
    exact hfresh.foldl_insert
  have hall : (if items = [] then withMarks options file r held else
      putMarks options file (withMarks options file r held)
      (items.foldl addMark (held.foldl addMark {}))) =
        withMarks options file r (held ++ items) := by
    by_cases hitems : items = []
    · rw [if_pos hitems, hitems, List.append_nil]
    · have hboth : held ++ items ≠ [] := fun hnil => hitems (List.append_eq_nil_iff.mp hnil).2
      rw [if_neg hitems, ← List.foldl_append]
      unfold withMarks
      rw [if_neg hboth]
      by_cases hheld : held = []
      · rw [if_pos hheld]
      · rw [if_neg hheld, putMarks_putMarks]
  exact hall ▸ reaches_localMarks hm hf (files_withMarks hr held) hp hnames

/-- In whichever order marks come, they are those of the table. -/
theorem withMarks_perm {table : Table Char (Timed Mark)}
    (hk : ∀ e ∈ table.entries, e.2.value.name = e.1) {marks : List (Timed Mark)}
    (hp : marks.Perm table.values) (file : Path) (r : Restore) :
    withMarks options file r marks =
      if table.entries = [] then r else putMarks options file r { marks := table } := by
  have hnil : marks = [] ↔ table.entries = [] := by
    rw [← List.length_eq_zero_iff, hp.length_eq, Table.values, List.length_map,
      List.length_eq_zero_iff]
  have htable : marks.foldl addMark {} = { marks := table } := by
    rw [foldl_addMark, Table.foldl_insert_eq hk hp]
  unfold withMarks
  rw [htable]
  by_cases hmarks : marks = []
  · rw [if_pos hmarks, if_pos (hnil.mp hmarks)]
  · rw [if_neg hmarks, if_neg (mt hnil.mpr hmarks)]

/-- The restore with the changes of a file that nothing was known of, unless there are none. -/
def withChanges (settings : Settings) (file : Path) (r : Restore) (changes : List (Timed Mark)) :
    Restore :=
  if changes = [] then r
  else { r with changes := r.changes.insert file ⟨settings.changes, changes⟩ }

theorem session_withChanges (file : Path) (r : Restore) (changes : List (Timed Mark)) :
    (withChanges settings file r changes).session = r.session := by
  unfold withChanges
  by_cases hchanges : changes = []
  · rw [if_pos hchanges]
  · rw [if_neg hchanges]

theorem withChanges_withMarks (file : Path) (r : Restore) (marks changes : List (Timed Mark)) :
    withChanges settings file (withMarks options file r marks) changes =
      withMarks options file (withChanges settings file r changes) marks := by
  unfold withChanges withMarks
  by_cases hmarks : marks = []
  · rw [if_pos hmarks, if_pos hmarks]
  · rw [if_neg hmarks, if_neg hmarks]
    by_cases hchanges : changes = []
    · rw [if_pos hchanges, if_pos hchanges]
    · rw [if_neg hchanges, if_neg hchanges]
      rfl

def putFile (settings : Settings) (options : RestoreOptions) (r : Restore)
    (file : Path × FileState) : Restore :=
  let changed := withChanges settings file.1 r file.2.changes
  if file.2.marks.entries = [] then changed
  else putMarks options file.1 changed { marks := file.2.marks }

/-- The marks and changes of a file that nothing is known of yet. -/
theorem reaches_file (hm : options.marks = true) (hf : 0 < settings.markedFiles) {file : Path}
    {f : FileMarks} (hw : f.state.WellFormed settings file)
    (hmarks : f.marks = f.state.marks.values) (hfile : r.session.files.find? file = none)
    (hnew : r.changes.find? file = none) :
    Reaches settings options (Merge.fileEntries f) r
      (r.putFile settings options (file, f.state)) := by
  have hkeys : ∀ e ∈ f.state.marks.entries, e.2.value.name = e.1 := fun e he => (hw.marks e he).1
  have hnames : (f.marks.map fun mark => mark.value.name).Nodup :=
    hmarks ▸ Table.nodup_values_map hkeys
  have hperm : (f.slotted ++ f.unslotted).Perm f.marks := FileMarks.slotted_append_unslotted hnames
  have hfiles : ∀ mark ∈ f.slotted ++ f.unslotted, mark.value.file = file := by
    intro mark hmark
    obtain ⟨e, he, rfl⟩ := List.mem_map.mp (hmarks ▸ hperm.mem_iff.mp hmark)
    exact (hw.marks e he).2
  obtain ⟨hslotted, hunslotted⟩ := List.forall_mem_append.mp hfiles
  have hdistinct : ((f.slotted ++ f.unslotted).map fun mark => mark.value.name).Nodup :=
    (hperm.map _).nodup_iff.mpr hnames
  have hprefix : ((([] : List (Timed Mark)) ++ f.slotted).map fun mark =>
      mark.value.name).Nodup := by
    rw [List.map_append] at hdistinct
    exact hdistinct.of_append_left
  have hfirst : Reaches settings options (entriesOf .localMark f.slotted) r
      (withMarks options file r f.slotted) :=
    reaches_withMarks hm hf hfile hslotted hprefix
  have hlist : changeList settings (withMarks options file r f.slotted) file =
      ⟨settings.changes, []⟩ := by
    unfold changeList
    rw [changes_withMarks, hnew, changesOf_withMarks hfile]
    rfl
  -- In the session the changes stand in order, in the file as they were kept.
  have hchanges : f.state.changes.Perm f.changes.items := inOrder_perm f.changes.items
  have hnone : f.changes.items = [] ↔ f.state.changes = [] :=
    ⟨fun h => (h ▸ hchanges).eq_nil, fun h => (h ▸ hchanges.symm).eq_nil⟩
  have hsecond : Reaches settings options (entriesOf .change f.changes.items)
      (withMarks options file r f.slotted)
      (withMarks options file (withChanges settings file r f.state.changes) f.slotted) := by
    have hreaches :=
      reaches_changes hm hf hlist (fun change hc => hw.changes change (hchanges.mem_iff.mpr hc))
      (hchanges.length_eq ▸ hw.room) ((hchanges.map _).nodup_iff.mp hw.places)
    rw [← withChanges_withMarks]
    unfold withChanges
    simp only [hnone] at hreaches
    exact hreaches
  have hunknown : (withChanges settings file r f.state.changes).session.files.find? file =
      none := by
    rw [session_withChanges, hfile]
  have hthird := reaches_withMarks hm hf hunknown hunslotted hdistinct
  have hvalues : (f.slotted ++ f.unslotted).Perm f.state.marks.values := hmarks ▸ hperm
  rw [withMarks_perm hkeys hvalues file (withChanges settings file r f.state.changes)] at hthird
  exact (hfirst.append hsecond).append hthird

theorem fresh_putFile {file : Path × FileState} {paths : List Path}
    (hfiles : r.session.files.Fresh (file.1 :: paths))
    (hchanges : r.changes.Fresh (file.1 :: paths)) :
    (r.putFile settings options file).session.files.Fresh paths ∧
      (r.putFile settings options file).changes.Fresh paths := by
  have hsession : (withChanges settings file.1 r file.2.changes).session = r.session :=
    session_withChanges ..
  have hnew : (withChanges settings file.1 r file.2.changes).changes.Fresh paths := by
    unfold withChanges
    by_cases hnone : file.2.changes = []
    · rw [if_pos hnone]
      exact hchanges.tail
    · rw [if_neg hnone]
      exact hchanges.alter _
  unfold putFile
  dsimp only
  by_cases hmarks : file.2.marks.entries = []
  · rw [if_pos hmarks, hsession]
    exact ⟨hfiles.tail, hnew⟩
  · rw [if_neg hmarks]
    unfold putMarks
    dsimp only
    rw [hsession]
    exact ⟨hfiles.insert _, hnew⟩

theorem reaches_files (hm : options.marks = true) {files : List (Path × FileMarks)}
    (hl : files.length ≤ settings.markedFiles)
    (hw : ∀ file ∈ files, file.2.state.WellFormed settings file.1 ∧
      file.2.marks = file.2.state.marks.values)
    (hfiles : r.session.files.Fresh (files.map Prod.fst))
    (hchanges : r.changes.Fresh (files.map Prod.fst)) :
    Reaches settings options (files.flatMap fun file => Merge.fileEntries file.2) r
      ((files.map fun file => (file.1, file.2.state)).foldl (putFile settings options) r) := by
  induction files generalizing r with
  | nil => exact reaches_nil r
  | cons file rest ih =>
    obtain ⟨⟨hstate, hmarks⟩, hrest⟩ := List.forall_mem_cons.mp hw
    rw [List.length_cons] at hl
    have hf : 0 < settings.markedFiles := by omega
    have hfile := hfiles.absent file.1 List.mem_cons_self
    have hnew := Dictionary.find?_eq_none_iff.mpr (hchanges.absent file.1 List.mem_cons_self)
    have hfresh : (r.putFile settings options (file.1, file.2.state)).session.files.Fresh
        (rest.map Prod.fst) ∧
        (r.putFile settings options (file.1, file.2.state)).changes.Fresh (rest.map Prod.fst) :=
      fresh_putFile hfiles hchanges
    exact (reaches_file hm hf hstate hmarks hfile hnew).append
      (ih (by omega) hrest hfresh.1 hfresh.2)

def marked (files : List (Path × FileState)) : List (Path × FileState) :=
  files.filter fun file => file.2.marks.entries ≠ []

def changed (files : List (Path × FileState)) : List (Path × FileState) :=
  files.filter fun file => file.2.changes ≠ []

/-- Marks are in the session at once; changes are not yet. -/
theorem foldl_putFile (files : List (Path × FileState)) (r : Restore) :
    files.foldl (putFile settings options) r = { r with
      session.files :=
  (marked files).foldl (fun held file => held.insert file.1 { marks := file.2.marks })
        r.session.files
      changes := (changed files).foldl (fun held file =>
        held.insert file.1 ⟨settings.changes, file.2.changes⟩) r.changes
      oldFiles := if options.oldFiles then
          (marked files).foldl (fun held file => held.insertNew file.1 ()) r.oldFiles
        else r.oldFiles } := by
  unfold marked changed
  induction files generalizing r with
  | nil => simp
  | cons file rest ih =>
    rw [List.foldl_cons, ih]
    unfold putFile withChanges putMarks
    by_cases hchanges : file.2.changes = [] <;> by_cases hmarks : file.2.marks.entries = [] <;>
      by_cases ho : options.oldFiles = true <;> simp [hchanges, hmarks, ho]

def handBack (held : Table Path FileState) (file : Path × FileState) : Table Path FileState :=
  held.alter file.1 fun state => { state.getD {} with changes := file.2.changes }

/-- Files that have their marks only, next to files that have all: handing back
the changes completes them. -/
theorem entries_foldl_handBack {front rest : List (Path × FileState)} {held : Table Path FileState}
    (hh : held.entries.Perm (front ++ (marked rest).map fun file =>
      (file.1, { marks := file.2.marks })))
    (hd : (front ++ rest).Pairwise fun a b => compare a.1 b.1 ≠ .eq)
    (hi : ∀ file ∈ rest, file.2.marks.entries ≠ [] ∨ file.2.changes ≠ []) :
    ((changed rest).foldl handBack held).entries.Perm (front ++ rest) := by
  induction rest generalizing front held with
  | nil => exact hh
  | cons file rest ih =>
    obtain ⟨hfile, hrest⟩ := List.forall_mem_cons.mp hi
    have hassoc : front ++ file :: rest = front ++ [file] ++ rest := by simp
    obtain ⟨hothers, -⟩ :=
      List.pairwise_cons.mp ((List.perm_middle.pairwise_iff Table.compare_ne_symm).mp hd)
    -- What the file becomes stands behind the files that are complete.
    have hnext (held : Table Path FileState) (hheld : held.entries.Perm
        (file :: (front ++ (marked rest).map fun file => (file.1, { marks := file.2.marks })))) :
        ((changed rest).foldl handBack held).entries.Perm (front ++ file :: rest) := by
      rw [hassoc]
      refine ih (hheld.trans ?_) (hassoc ▸ hd) hrest
      rw [List.append_assoc]
      exact List.perm_middle.symm
    by_cases hmarks : file.2.marks.entries = []
    · have hchanges : file.2.changes ≠ [] := hfile.resolve_left (not_not_intro hmarks)
      have hchanged : changed (file :: rest) = file :: changed rest :=
        List.filter_cons_of_pos (decide_eq_true hchanges)
      have hmarked : marked (file :: rest) = marked rest :=
        List.filter_cons_of_neg (by simpa using hmarks)
      have hempty : file.2.marks = .empty := Table.eq_of_perm (by rw [hmarks]; exact .refl _)
      rw [hmarked] at hh
      have hnew : ∀ e ∈ held.entries, compare e.1 file.1 ≠ .eq := by
        intro e he
        rcases List.mem_append.mp (hh.mem_iff.mp he) with he | he
        · exact Table.compare_ne_symm (hothers e (List.mem_append_left _ he))
        · obtain ⟨other, hother, rfl⟩ := List.mem_map.mp he
          exact Table.compare_ne_symm
            (hothers other (List.mem_append_right _ (List.mem_of_mem_filter hother)))
      have hback : handBack held file = held.insert file.1 file.2 := by
        rw [handBack, Table.alter_eq_insert, Table.find?_eq_none_iff.mpr hnew]
        dsimp only [Option.getD_none]
        rw [← hempty]
      rw [hchanged, List.foldl_cons, hback]
      exact hnext _ ((Table.entries_insert_new hnew file.2).trans (hh.cons file))
    · have hmarked : marked (file :: rest) = file :: marked rest :=
        List.filter_cons_of_pos (decide_eq_true hmarks)
      rw [hmarked, List.map_cons] at hh
      have hfirst := hh.trans List.perm_middle
      by_cases hchanges : file.2.changes = []
      · have hchanged : changed (file :: rest) = changed rest :=
          List.filter_cons_of_neg (by simpa using hchanges)
        have hsame : ((file.1, { marks := file.2.marks }) : Path × FileState) = file := by
          rw [← hchanges]
        rw [hsame] at hfirst
        rw [hchanged]
        exact hnext held hfirst
      · have hchanged : changed (file :: rest) = file :: changed rest :=
          List.filter_cons_of_pos (decide_eq_true hchanges)
        have hfind : held.find? file.1 = some { marks := file.2.marks } :=
          Table.find?_of_mem (hfirst.mem_iff.mpr List.mem_cons_self)
        have hback : handBack held file = held.insert file.1 file.2 := by
          rw [handBack, Table.alter_eq_insert, hfind]
          rfl
        rw [hchanged, List.foldl_cons, hback]
        exact hnext _ (Table.entries_insert_held hfirst file.2)

theorem distinct_files {files : List (Path × FileState)}
    (hd : files.Pairwise fun a b => compare a.1 b.1 ≠ .eq) {υ : Type} :
    (Dictionary.empty : Dictionary Path υ).Fresh (files.map Prod.fst) :=
  Dictionary.fresh_empty (List.pairwise_map.mpr (hd.imp Path.beq_eq_false_of_compare))

theorem keys_foldl_insertNew {files : List (Path × FileState)}
    (hd : files.Pairwise fun a b => compare a.1 b.1 ≠ .eq) :
    (files.foldl (fun held file => held.insertNew file.1 ())
      (Dictionary.empty : Dictionary Path Unit)).keys = files.map Prod.fst := by
  have hentries :=
    Dictionary.entries_foldl_alter Prod.fst (fun _ held => held.getD ()) (distinct_files hd)
  apply (congrArg (List.map Prod.fst) hentries).trans
  rw [List.map_append, List.map_map]
  rfl

/-- With the changes handed back, files are what they were. -/
theorem foldl_changed {held : Table Path FileState} {files : List (Path × FileState)}
    (hf : files.Perm held.entries)
    (hi : ∀ file ∈ files, file.2.marks.entries ≠ [] ∨ file.2.changes ≠ []) :
    ((changed files).foldl (fun changes file =>
      changes.insert file.1 ⟨settings.changes, file.2.changes⟩)
      (Dictionary.empty : Dictionary Path ChangeList)).entries.foldl (fun held file =>
        held.alter file.1 fun state => { state.getD {} with changes := file.2.items })
      ((marked files).foldl (fun held file => held.insert file.1 { marks := file.2.marks })
        .empty) = held := by
  have hdistinct := Table.distinct_of_perm hf
  have hchanged := hdistinct.sublist (List.filter_sublist (p := fun file => file.2.changes ≠ []))
  have hmarked :=
    hdistinct.sublist (List.filter_sublist (p := fun file => file.2.marks.entries ≠ []))
  have hchanges : ((changed files).foldl (fun changes file =>
      changes.insert file.1 ⟨settings.changes, file.2.changes⟩)
      (Dictionary.empty : Dictionary Path ChangeList)).entries =
        (changed files).map fun file => (file.1, ⟨settings.changes, file.2.changes⟩) :=
    Dictionary.entries_foldl_alter Prod.fst
      (fun (file : Path × FileState) _ => (⟨settings.changes, file.2.changes⟩ : ChangeList))
      (distinct_files hchanged)
  have hmarks :
      ((marked files).foldl (fun held file => held.insert file.1 { marks := file.2.marks })
      (Table.empty : Table Path FileState)).entries.Perm
        ([] ++ (marked files).map fun file => (file.1, { marks := file.2.marks })) :=
    Table.entries_foldl_insert Prod.fst
      (fun file : Path × FileState => ({ marks := file.2.marks } : FileState))
      (Table.fresh_empty (List.pairwise_map.mpr hmarked))
  have hback := entries_foldl_handBack hmarks hdistinct hi
  rw [hchanges, List.foldl_map]
  exact Table.eq_of_perm (hback.trans hf)

end SessionStore.Restore
