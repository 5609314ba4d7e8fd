import SessionStore.Proofs.Collection.Dictionary
import SessionStore.Proofs.Collection.HistoryRing
import SessionStore.Proofs.Collection.Table
import SessionStore.Proofs.RestoreSteps
import SessionStore.Proofs.Turns

/-! A restore makes nothing up: what a session holds afterwards it held before,
or it is from the stream. -/
namespace SessionStore

open Msgpack (Value)

structure Session.Within (P : Content → Prop) (session : Session) : Prop where
  patterns : ∀ substitute, ∀ p ∈ session.pattern substitute,
    P (.searchPattern { p.value with isSubstitute := substitute })
  replacement : ∀ r ∈ session.replacement, P (.replacement r.value)
  history : ∀ type, ∀ item ∈ session.history.get type, P (.history item.value)
  registers : ∀ register ∈ session.registers.values, P (.register register.value)
  globalVariables : ∀ v ∈ session.globalVariables.entries,
    P (.variable { name := v.1, value := v.2 })
  globalMarks : ∀ mark ∈ session.globalMarks.values, P (.globalMark mark.value)
  marks : ∀ file ∈ session.files.values, ∀ mark ∈ file.marks.values, P (.localMark mark.value)
  changes : ∀ file ∈ session.files.values, ∀ change ∈ file.changes, P (.change change.value)
  jumps : ∀ jump ∈ session.jumps, P (.jump jump.value)
  buffers : P (.bufferList session.buffers)

namespace Session

variable {P : Content → Prop} {session : Session}

theorem within_empty (hb : P (.bufferList [])) : Session.Within P {} := by
  refine ⟨?_, ?_, ?_, ?_, ?_, ?_, ?_, ?_, ?_, hb⟩
  · intro substitute p hp
    cases substitute <;> cases hp
  · exact fun r hr => by cases hr
  · intro type item hi
    rw [show ({} : Session).history.get type = [] from PerHistory.get_uniform _ _] at hi
    cases hi
  all_goals exact fun _ h => by cases h

theorem pattern_setPattern (session : Session) (slot substitute : Bool) (p : Timed SearchPattern) :
    (session.setPattern slot p).pattern substitute =
      if substitute = slot then some p else session.pattern substitute := by
  cases slot <;> cases substitute <;> rfl

theorem Within.setPattern (h : session.Within P) {slot : Bool} {p : Timed SearchPattern}
    (hp : P (.searchPattern { p.value with isSubstitute := slot })) :
    (session.setPattern slot p).Within P := by
  have hpatterns : ∀ substitute, ∀ q ∈ (session.setPattern slot p).pattern substitute,
      P (.searchPattern { q.value with isSubstitute := substitute }) := by
    intro substitute q hq
    rw [pattern_setPattern] at hq
    split at hq
    · next hs =>
      cases Option.some.inj hq
      exact hs ▸ hp
    · exact h.patterns substitute q hq
  cases slot <;> exact { h with patterns := hpatterns }

theorem Within.setVariable (h : session.Within P) {name : Bytes} {value : Value}
    (hv : P (.variable { name, value })) : (session.setVariable name value).Within P := by
  refine { h with globalVariables := fun v hm => ?_ }
  rcases Dictionary.mem_of_mem_insert hm with rfl | hm
  · exact hv
  · exact h.globalVariables v hm

theorem Within.setRegister (h : session.Within P) {register : Timed Register}
    (hr : P (.register register.value)) : (session.setRegister register).Within P :=
  { h with registers := Table.forall_alter h.registers fun _ _ => hr }

theorem Within.setGlobalMark (h : session.Within P) {mark : Timed Mark}
    (hm : P (.globalMark mark.value)) : (session.setGlobalMark mark).Within P :=
  { h with globalMarks := Table.forall_alter h.globalMarks fun _ _ => hm }

theorem Within.setLocalMark (h : session.Within P) {mark : Timed Mark}
    (hm : P (.localMark mark.value)) : (session.setLocalMark mark).Within P := by
  have hmarks : ∀ file ∈ (session.setLocalMark mark).files.values, ∀ other ∈ file.marks.values,
      P (.localMark other.value) := by
    refine Table.forall_alter h.marks fun held hheld => Table.forall_alter ?_ fun _ _ => hm
    cases held with
    | none => exact fun _ he => by cases he
    | some state => exact hheld state rfl
  have hchanges : ∀ file ∈ (session.setLocalMark mark).files.values, ∀ change ∈ file.changes,
      P (.change change.value) := by
    refine Table.forall_alter h.changes fun held hheld => ?_
    cases held with
    | none => exact fun _ he => by cases he
    | some state => exact hheld state rfl
  exact { h with marks := hmarks, changes := hchanges }

theorem Within.changesOf (h : session.Within P) (file : Path) :
    ∀ change ∈ session.changesOf file, P (.change change.value) := by
  unfold Session.changesOf
  cases hf : session.files.find? file with
  | none => simp
  | some state => exact h.changes state (Table.mem_values_of_find? hf)

theorem foldl_setChanges (changes : List (Path × ChangeList)) (s : Session) :
    changes.foldl (fun s file => s.setChanges file.1 file.2.items) s =
      { s with files := changes.foldl (fun held file => held.alter file.1 fun state =>
        { state.getD {} with changes := file.2.items }) s.files } := by
  induction changes generalizing s with
  | nil => rfl
  | cons file rest ih => exact ih (s.setChanges file.1 file.2.items)

end Session

namespace Restore

variable {settings : Settings} {options : RestoreOptions}

theorem finish_eq (r : Restore) : r.finish options =
    { r.session with
      history :=
        .ofFn fun type => (r.rings.get type).elim (r.session.history.get type) HistoryRing.items
      jumps := r.jumps.elim r.session.jumps Bounded.items
      files := r.changes.entries.foldl (fun held file => held.alter file.1 fun state =>
        { state.getD {} with changes := file.2.items }) r.session.files
      oldFiles := if options.oldFiles then r.oldFiles.keys else r.session.oldFiles } := by
  have hhistory (s : Session) (type : HistoryType) :
      ((r.rings.get type).elim s fun ring => s.setHistory type ring.items) =
        s.setHistory type ((r.rings.get type).elim (s.history.get type) HistoryRing.items) := by
    cases r.rings.get type with
    | none => cases type <;> rfl
    | some ring => rfl
  have hjumps (s : Session) : (r.jumps.elim s fun jumps => s.setJumps jumps.items) =
      { s with jumps := r.jumps.elim s.jumps Bounded.items } := by
    cases r.jumps <;> rfl
  have hstart : (HistoryType.all.foldl (fun s type => (r.rings.get type).elim s fun ring =>
      s.setHistory type ring.items) r.session) = { r.session with
        history := .ofFn fun type => (r.rings.get type).elim (r.session.history.get type)
          HistoryRing.items } := by
    simp only [hhistory, HistoryType.all, List.foldl_cons, List.foldl_nil]
    rfl
  unfold finish
  dsimp only
  rw [hstart, hjumps]
  by_cases ho : options.oldFiles = true
  · rw [if_pos ho, if_pos ho]
    exact congrArg (Session.setOldFiles · r.oldFiles.keys)
      (Session.foldl_setChanges r.changes.entries _)
  · rw [if_neg ho, if_neg ho]
    exact Session.foldl_setChanges r.changes.entries _

theorem history_finish (r : Restore) (type : HistoryType) : (r.finish options).history.get type =
    (r.rings.get type).elim (r.session.history.get type) HistoryRing.items := by
  rw [finish_eq, PerHistory.get_ofFn]

theorem jumps_finish (r : Restore) :
    (r.finish options).jumps = r.jumps.elim r.session.jumps Bounded.items := by
  rw [finish_eq]

theorem oldFiles_finish (r : Restore) : (r.finish options).oldFiles =
    if options.oldFiles then r.oldFiles.keys else r.session.oldFiles := by
  rw [finish_eq]

theorem find?_files_finish (r : Restore) (file : Path) : (r.finish options).files.find? file =
    (r.changes.find? file).elim (r.session.files.find? file) fun list =>
      some { (r.session.files.find? file).getD {} with changes := list.items } := by
  have hfold (lists : List (Path × ChangeList)) (h : lists.Pairwise fun a b => (a.1 == b.1) = false)
      (files : Table Path FileState) :
      (lists.foldl (fun held file => held.alter file.1 fun state =>
        { state.getD {} with changes := file.2.items }) files).find? file =
      ((lists.find? (·.1 == file)).map Prod.snd).elim (files.find? file) fun list =>
        some { (files.find? file).getD {} with changes := list.items } := by
    induction lists generalizing files with
    | nil => rfl
    | cons list rest ih =>
      obtain ⟨hfirst, hrest⟩ := List.pairwise_cons.mp h
      rw [List.foldl_cons, ih hrest, Table.find?_alter, List.find?_cons]
      by_cases hf : (list.1 == file) = true
      · have hnone : rest.find? (·.1 == file) = none := by
          refine List.find?_eq_none.mpr fun other ho he => ?_
          exact Bool.eq_false_iff.mp (hfirst other ho)
            (PartialEquivBEq.trans hf (PartialEquivBEq.symm he))
        have hkey : compare list.1 file = .eq := Path.compare_eq_iff.mpr hf
        rw [hnone, if_pos hkey, hf, Table.find?_congr files hkey]
        rfl
      · rw [if_neg (mt Path.compare_eq_iff.mp hf), Bool.eq_false_iff.mpr hf]
  rw [finish_eq]
  exact hfold r.changes.entries r.changes.distinct r.session.files

/-- What holds of the files of the session still does when the changes are handed back. -/
theorem forall_files_finish {P : FileState → Prop} {r : Restore}
    (hs : ∀ file ∈ r.session.files.values, P file) (hn : P {})
    (hc : ∀ list ∈ r.changes.values, ∀ file, P file → P { file with changes := list.items }) :
    ∀ file ∈ (r.finish options).files.values, P file := by
  rw [finish_eq]
  dsimp only
  rw [Dictionary.values, List.forall_mem_map] at hc
  generalize r.changes.entries = changes at hc
  generalize r.session.files = files at hs
  induction changes generalizing files with
  | nil => exact hs
  | cons change rest ih =>
    obtain ⟨hfirst, hrest⟩ := List.forall_mem_cons.mp hc
    refine ih hrest _ (Table.forall_alter hs fun held hheld => hfirst _ ?_)
    cases held with
    | none => exact hn
    | some file => exact hheld file rfl

/-- All that a restore under way holds has a property, in the session and in the
lists that it took from it. -/
structure Within (P : Content → Prop) (r : Restore) : Prop where
  session : r.session.Within P
  rings : ∀ type, ∀ ring ∈ r.rings.get type, ∀ item ∈ ring.items, P (.history item.value)
  jumps : ∀ list ∈ r.jumps, ∀ jump ∈ list.items, P (.jump jump.value)
  changes : ∀ list ∈ r.changes.values, ∀ change ∈ list.items, P (.change change.value)

variable {P : Content → Prop} {r : Restore}

theorem within_start {session : Session} (h : session.Within P) : Restore.Within P { session } := by
  refine ⟨h, fun type ring hr => ?_, ?_, ?_⟩
  · rw [PerHistory.get_uniform] at hr
    cases hr
  all_goals exact fun _ hl => by cases hl

theorem Within.ring (h : r.Within P) (type : HistoryType) :
    ∀ item ∈ (r.ring settings type).items, P (.history item.value) := by
  unfold Restore.ring
  cases hr : r.rings.get type with
  | some ring => exact h.rings type ring hr
  | none =>
    exact HistoryRing.forall_fill (fun _ he => by cases he) fun item hi =>
      h.session.history type item (List.mem_reverse.mp hi)

theorem Within.jumpList (h : r.Within P) :
    ∀ jump ∈ (r.jumpList settings).items, P (.jump jump.value) := by
  unfold Restore.jumpList
  cases hl : r.jumps with
  | some list => exact h.jumps list hl
  | none =>
    exact Bounded.forall_fill (fun _ he => by cases he) fun jump hj =>
      h.session.jumps jump (List.mem_reverse.mp hj)

theorem Within.changeList (h : r.Within P) (file : Path) :
    ∀ change ∈ (r.changeList settings file).items, P (.change change.value) := by
  unfold Restore.changeList
  cases hl : r.changes.find? file with
  | some list => exact h.changes list (Dictionary.mem_values_of_find? hl)
  | none => exact Bounded.forall_extend (fun _ he => by cases he) (h.session.changesOf file)

/-- An entry that has the property can be applied. The session keeps no
additional elements of a variable. -/
theorem Within.apply (hv : ∀ v, P (.variable v) →
    P (.variable { name := v.name, value := v.value }))
    (h : r.Within P) {entry : Entry} (he : P entry.content) :
    (r.apply settings options entry).Within P := by
  obtain ⟨timestamp, content⟩ := entry
  have hite {applies : Bool} {s : Session}
      (hs : s.Within P) : (if applies then s else r.session).Within P := by
    cases applies with
    | false => exact h.session
    | true => exact hs
  constructor
  case session =>
    rw [session_apply]
    cases content with
    | searchPattern p => exact hite (h.session.setPattern he)
    | replacement held =>
      refine hite { h.session with replacement := fun new hn => ?_ }
      cases Option.some.inj hn
      exact he
    | register register => exact hite (h.session.setRegister he)
    | «variable» v => exact hite (h.session.setVariable (hv v he))
    | globalMark mark => exact hite (h.session.setGlobalMark he)
    | bufferList buffers => exact hite { h.session with buffers := he }
    | localMark mark => exact hite (h.session.setLocalMark he)
    | _ => exact h.session
  case rings =>
    rw [rings_apply]
    cases content with
    | history item =>
      dsimp only
      split
      · intro type ring hr
        by_cases ht : type = item.type
        · subst ht
          rw [PerHistory.get_set_self] at hr
          cases Option.some.inj hr
          exact HistoryRing.forall_insert (h.ring _) he
        · rw [PerHistory.get_set_of_ne _ _ ht] at hr
          exact h.rings type ring hr
      · exact h.rings
    | _ => exact h.rings
  case jumps =>
    rw [jumps_apply]
    cases content with
    | jump mark =>
      dsimp only
      split
      · intro list hl
        cases Option.some.inj hl
        exact Bounded.forall_insert h.jumpList he
      · exact h.jumps
    | _ => exact h.jumps
  case changes =>
    rw [changes_apply]
    cases content with
    | change mark =>
      dsimp only
      split
      · exact Dictionary.forall_alter h.changes fun _ _ =>
          Bounded.forall_insert (h.changeList mark.file) he
      · exact h.changes
    | _ => exact h.changes

theorem Within.foldl_take
    (hv : ∀ v, P (.variable v) → P (.variable { name := v.name, value := v.value }))
    {results : List (Except Error Entry)} (h : r.Within P)
    (hr : ∀ entry, .ok entry ∈ results → P entry.content) :
    (results.foldl (Restore.take settings options) r).Within P :=
  foldl_take_keeps h (fun _ h => ⟨h.session, h.rings, h.jumps, h.changes⟩)
    fun _ entry hm h => h.apply hv (hr entry hm)

theorem Within.finish (h : r.Within P) : (r.finish options).Within P := by
  have hhistory : ∀ type, ∀ item ∈ (r.finish options).history.get type,
      P (.history item.value) := by
    intro type
    rw [history_finish]
    cases hr : r.rings.get type with
    | none => exact h.session.history type
    | some ring => exact h.rings type ring hr
  have hjumps : ∀ jump ∈ (r.finish options).jumps, P (.jump jump.value) := by
    rw [jumps_finish]
    cases hl : r.jumps with
    | none => exact h.session.jumps
    | some list => exact h.jumps list hl
  have hmarks : ∀ file ∈ (r.finish options).files.values, ∀ mark ∈ file.marks.values,
      P (.localMark mark.value) :=
    forall_files_finish h.session.marks (fun _ he => by cases he) fun _ _ _ hfile => hfile
  have hchanges : ∀ file ∈ (r.finish options).files.values, ∀ change ∈ file.changes,
      P (.change change.value) :=
    forall_files_finish h.session.changes (fun _ he => by cases he) fun list hl _ _ =>
      h.changes list hl
  rw [finish_eq] at hhistory hjumps hmarks hchanges ⊢
  exact { h.session with
    history := hhistory, jumps := hjumps, marks := hmarks, changes := hchanges }

end Restore

/-- Whatever a restore leaves in a session was there before, or is from the stream. -/
theorem Session.Within.restore {P : Content → Prop}
    (hv : ∀ v, P (.variable v) → P (.variable { name := v.name, value := v.value }))
    {session : Session} (h : session.Within P) (settings : Settings) (options : RestoreOptions)
    {stream : Stream} (hs : ∀ entry ∈ stream.entries, P entry.content) :
    (session.restore settings options stream).1.Within P := by
  have hresults : ∀ entry, .ok entry ∈ stream.read.decoded → P entry.content := fun entry he =>
    hs entry (List.mem_filterMap.mpr ⟨.ok entry, he, rfl⟩)
  exact ((Restore.within_start h).foldl_take hv hresults).finish

end SessionStore
