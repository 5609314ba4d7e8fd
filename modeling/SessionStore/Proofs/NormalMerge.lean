import SessionStore.Proofs.Collection.OneEach
import SessionStore.Proofs.KeptInTurns

/-! What a merge holds is in normal form, whatever the file and the session were like. -/
namespace SessionStore

/-- Every local mark and every change of the session is in the file that it
stands under, however either is spelled. -/
structure Session.FiledByPath (session : Session) : Prop where
  marks : ∀ file ∈ session.files.entries, ∀ mark ∈ file.2.marks.values,
    (mark.value.file == file.1) = true
  changes : ∀ file ∈ session.files.entries, ∀ change ∈ file.2.changes,
    (change.value.file == file.1) = true

theorem Session.FiledByPath.of_file {session : Session} (h : session.FiledByPath) (file : Path) :
    (∀ mark ∈ session.localMarks file, (mark.value.file == file) = true) ∧
      ∀ change ∈ session.changesOf file, (change.value.file == file) = true := by
  unfold localMarks changesOf Table.find?
  cases hfind : session.files.entries.find? fun e => compare e.1 file == .eq with
  | none => exact ⟨List.forall_mem_nil _, List.forall_mem_nil _⟩
  | some e =>
    have hm := List.mem_of_find?_eq_some hfind
    have hkey : (e.1 == file) = true := Path.compare_eq_iff.mp (eq_of_beq (List.find?_some hfind :))
    exact ⟨fun mark hmark => BEq.trans (h.marks e hm mark hmark) hkey,
      fun change hc => BEq.trans (h.changes e hm change hc) hkey⟩

/-- What holds of all files still does if it holds of the file that is changed,
under the spelling that it has. -/
theorem FileMarksMap.forall_entries_modify {P : Path → FileMarks → Prop}
    {m : FileMarksMap} {file : Path} {f : FileMarks → FileMarks}
    (hm : ∀ e ∈ m.files.entries, P e.1 e.2) (hn : P file (f (.new m.changeCapacity)))
    (hf : ∀ key held, (key == file) = true → P key held → P key (f held)) :
    ∀ e ∈ (m.modify file f).files.entries, P e.1 e.2 :=
  Dictionary.forall_entries_alter hm hn hf

namespace Merge

/-- Everything stands once, under its own name or in its own file, and nothing exceeds its limit. -/
structure Normal (settings : Settings) (m : Merge) : Prop where
  globalVariables : ∀ v ∈ m.globalVariables.entries, v.2.value.name = v.1
  registers : m.registers.OneEach Register.name registerCapacity
  globalMarks : m.globalMarks.OneEach Mark.name globalMarkCapacity
  jumps : m.jumps.OneEach Mark.place settings.jumps
  changeCapacity : m.files.changeCapacity = settings.changes
  files : ∀ file ∈ m.files.files.entries, file.2.OneEach file.1 settings.changes
  history : ∀ type, (m.history.get type).OneEach (settings.history.get type)

variable {settings : Settings} {m : Merge} {session : Session} {now : Timestamp}

theorem Normal.modify (h : m.Normal settings) {file : Path} {f : FileMarks → FileMarks}
    (hf : ∀ key held, (file == key) = true → held.OneEach key settings.changes →
      (f held).OneEach key settings.changes) : ({ m with files := m.files.modify file f } :
    Merge).Normal settings := by
  refine { h with files := ?_ }
  refine FileMarksMap.forall_entries_modify (P := fun key held => held.OneEach key settings.changes)
    h.files ?_ ?_
  · rw [h.changeCapacity]
    exact hf file _ BEq.rfl (FileMarks.oneEach_new file settings.changes)
  · exact fun key held hkey hh => hf key held (BEq.symm hkey) hh

theorem Normal.step {timestamp : Timestamp} {content : Content} {m' : Merge} (h : m.Normal settings)
    (hstep : Step settings m timestamp content m') : m'.Normal settings := by
  cases hstep with
  | passed => exact h
  | searchPattern | substitutePattern | replacement | unknown => exact { h with }
  | history item =>
    refine { h with history := fun type => ?_ }
    dsimp only
    by_cases ht : type = item.type
    · subst ht
      rw [PerHistory.get_set_self]
      exact (h.history _).insert _ _
    · rw [PerHistory.get_set_of_ne _ _ ht]
      exact h.history type
  | register => exact { h with registers := h.registers.insert Register.sameName_iff _ }
  | globalVariable =>
    refine { h with globalVariables := ?_ }
    refine Dictionary.forall_entries_alter (P := fun name (held : Timed Variable) =>
      held.value.name = name) h.globalVariables rfl ?_
    exact fun _ _ _ hh => hh
  | globalMark => exact { h with globalMarks := h.globalMarks.insert Mark.sameName_iff _ }
  | jump => exact { h with jumps := h.jumps.insert Mark.sameLocation_iff _ }
  | localMark => exact h.modify fun _ _ hkey hh => hh.insertMark hkey
  | change => exact h.modify fun _ _ hkey hh => hh.insertChange hkey

theorem Normal.foldl_absorb (h : m.Normal settings) (entries : List Entry) :
    (entries.foldl (Merge.absorb settings) m).Normal settings :=
  List.foldlRecOn entries _ h fun m h entry _ => h.step (absorb_step settings m entry)

theorem Normal.seedVariables (h : m.Normal settings) :
    (m.seedVariables settings now session).Normal settings := by
  unfold Merge.seedVariables
  split
  · refine { h with globalVariables := ?_ }
    refine List.foldlRecOn session.globalVariables.entries _
      (motive := fun held : Dictionary Bytes (Timed Variable) => ∀ v ∈ held.entries,
        v.2.value.name = v.1)
      h.globalVariables fun held hh v _ => ?_
    refine Dictionary.forall_entries_alter (P := fun name (held : Timed Variable) =>
      held.value.name = name) hh rfl ?_
    exact fun name _ hname _ => (eq_of_beq hname).symm
  · exact h

theorem Normal.seedGlobalMarks (h : m.Normal settings) :
    (m.seedGlobalMarks settings session).Normal settings := by
  unfold Merge.seedGlobalMarks
  split
  · exact { h with globalMarks := h.globalMarks.extend Mark.sameName_iff _ }
  · exact h

theorem Normal.seedFiles (h : m.Normal settings) (hs : session.FiledByPath) :
    (m.seedFiles settings session).Normal settings := by
  unfold Merge.seedFiles
  split
  · exact h
  · generalize session.markedFiles.filter (fun file => !settings.isRemovable file) = paths
    induction paths generalizing m with
    | nil => exact h
    | cons path rest ih =>
      obtain ⟨hmarks, hchanges⟩ := hs.of_file path
      exact ih (m := { m with files := m.files.modify path _ }) (h.modify fun key held hkey hh =>
        hh.extend (fun mark hm => BEq.trans (hmarks mark hm) hkey) fun change hc =>
          BEq.trans (hchanges change hc) hkey)

theorem Normal.seed (h : m.Normal settings) (hs : session.FiledByPath) :
    (m.seed settings now session).Normal settings := by
  have hpatterns : Normal settings { m with
      searchPattern := session.searchPattern
      substitutePattern := session.substitutePattern
      replacement := session.replacement } := { h with }
  have hvariables : (Merge.seedVariables settings now session _).Normal settings :=
    hpatterns.seedVariables
  have hregisters : (Merge.seedRegisters session _).Normal settings :=
    { hvariables with registers := hvariables.registers.extend Register.sameName_iff _ }
  have hglobalMarks : (Merge.seedGlobalMarks settings session _).Normal settings :=
    hregisters.seedGlobalMarks
  have hfiles := hglobalMarks.seedFiles hs
  exact { hfiles with jumps := hfiles.jumps.fill Mark.sameLocation_iff _ _ }

theorem Normal.seedHistory (h : m.Normal settings) : (m.seedHistory session).Normal settings := by
  refine { h with history := fun type => ?_ }
  rw [Merge.seedHistory, PerHistory.get_ofFn]
  exact (h.history type).fill _ _

end Merge

end SessionStore
