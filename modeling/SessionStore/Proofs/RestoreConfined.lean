import SessionStore.Proofs.Collection.Grouping
import SessionStore.Proofs.RestoreTwice

/-! What a restore leaves alone: what is not asked for, and what the settings switch off. -/
namespace SessionStore

def Entry.markedFile? (entry : Entry) : Option Path :=
  match entry.content with
  | .localMark mark => some mark.file
  | _ => none

/-- The files that have local marks, each in its first spelling, in first-seen order. -/
def Stream.markedFiles (s : Stream) : List Path := (s.entries.filterMap Entry.markedFile?).eraseDups

/-- What a restore of information is about. -/
def Session.infoPart (s : Session) : Session :=
  { s with globalMarks := .empty, files := .empty, jumps := [], oldFiles := [] }

/-- What a restore of marks is about. -/
def Session.marksPart (s : Session) : Session :=
  { globalMarks := s.globalMarks, files := s.files, jumps := s.jumps }

theorem Session.eq_of_parts {s s' : Session} (hi : s.infoPart = s'.infoPart)
    (hm : s.marksPart = s'.marksPart) (ho : s.oldFiles = s'.oldFiles) : s = s' := by
  obtain ⟨⟩ := s
  obtain ⟨⟩ := s'
  simp_all [infoPart, marksPart]

namespace Restore

variable (settings : Settings) (options : RestoreOptions) (r : Restore) (entry : Entry)

section Kept

variable {settings options} {β : Type}

/-- What no step changes, and no list that is handed back, is as it was after a restore. -/
theorem get_restore (get : Session → β)
    (hstep : ∀ s s', SessionStep settings options s s' → get s' = get s)
    (hfinish : ∀ r : Restore, get (r.finish options) = get r.session) (session : Session)
    (stream : Stream) :
    get (session.restore settings options stream).1 = get session :=
  (hfinish _).trans (get_foldl_take (fun r => get r.session) (fun _ => rfl)
    (fun r entry => hstep _ _ (session_step settings options r entry))
    stream.read.decoded { session })

theorem files_restore (hf : settings.markedFiles = 0) (session : Session) (stream : Stream) :
    (session.restore settings options stream).1.files = session.files := by
  have hstep (s s' : Session) (h : SessionStep settings options s s') : s'.files = s.files := by
    cases h with
    | localMark hm hpos mark => omega
    | _ => rfl
  have hnone (r : Restore) (entry : Entry) : (r.apply settings options entry).changes =
      r.changes := by
    rw [changes_apply]
    cases entry.content <;> simp [hf]
  have hall := get_foldl_take (fun r => (r.session.files, r.changes)) (fun _ => rfl)
    (fun r entry => Prod.ext (hstep _ _ (session_step settings options r entry)) (hnone r entry))
    stream.read.decoded { session }
  obtain ⟨hfiles, hchanges⟩ := Prod.ext_iff.mp hall
  dsimp only at hfiles hchanges
  show ((stream.read.decoded.foldl (take settings options) { session }).finish options).files = _
  rw [finish_eq, hchanges]
  exact hfiles

end Kept

def infoPart (r : Restore) : Restore := { session := r.session.infoPart, rings := r.rings }

def marksPart (r : Restore) : Restore :=
  { session := r.session.marksPart, jumps := r.jumps, changes := r.changes }

section Parts

theorem infoPart_eq {r r' : Restore} (hs : r.session.infoPart = r'.session.infoPart)
    (hr : r.rings = r'.rings) : r.infoPart = r'.infoPart := by
  unfold infoPart
  rw [hs, hr]

theorem marksPart_eq {r r' : Restore} (hs : r.session.marksPart = r'.session.marksPart)
    (hj : r.jumps = r'.jumps) (hc : r.changes = r'.changes) : r.marksPart = r'.marksPart := by
  unfold marksPart
  rw [hs, hj, hc]

theorem apply_ite_part {part : Session → Session} {applies : Bool} {s s' t t' : Session}
    (hs : part s = part t) (hs' : part s' = part t') : part (if applies then s' else s) =
      part (if applies then t' else t) := by
  cases applies with
  | false => exact hs
  | true => exact hs'

/-- What an entry does to the one part is a matter of this part and of the options for it. -/
theorem infoPart_apply : (r.apply settings options entry).infoPart =
    (r.infoPart.apply settings { info := options.info, force := options.force }
      entry).infoPart := by
  refine infoPart_eq ?_ ?_
  · rw [session_apply, session_apply]
    cases entry.content with
    | searchPattern p =>
      dsimp only
      cases p.isSubstitute <;> exact apply_ite_part rfl rfl
    | globalMark | localMark =>
      show Session.infoPart (ite _ _ _) = r.session.infoPart
      split <;> rfl
    | header | history | jump | change | unknown => rfl
    | _ => exact apply_ite_part rfl rfl
  · rw [rings_apply, rings_apply]
    cases entry.content <;> rfl

theorem marksPart_apply : (r.apply settings options entry).marksPart =
    (r.marksPart.apply settings { marks := options.marks, force := options.force }
      entry).marksPart := by
  refine marksPart_eq ?_ ?_ ?_
  · rw [session_apply, session_apply]
    cases entry.content with
    | globalMark | localMark => exact apply_ite_part rfl rfl
    | header | history | jump | change | unknown => rfl
    | searchPattern p =>
      show Session.marksPart (ite _ _ _) = r.session.marksPart
      cases p.isSubstitute <;> split <;> rfl
    | _ =>
      show Session.marksPart (ite _ _ _) = r.session.marksPart
      split <;> rfl
  · rw [jumps_apply, jumps_apply]
    cases entry.content <;> rfl
  · rw [changes_apply, changes_apply]
    cases entry.content <;> rfl

theorem infoPart_apply_of_not_info {options : RestoreOptions} (hi : options.info = false) :
    (r.apply settings options entry).infoPart = r.infoPart := by
  have hstep (s s' : Session) (h : SessionStep settings options s s') : s'.infoPart =
      s.infoPart := by
    cases h with
    | unchanged | globalMark | localMark => rfl
    | _ => simp_all
  refine infoPart_eq (hstep _ _ (session_step settings options r entry)) ?_
  rw [rings_apply]
  cases entry.content <;> simp [hi]

theorem marksPart_apply_of_not_marks {options : RestoreOptions} (hm : options.marks = false) :
    (r.apply settings options entry).marksPart = r.marksPart := by
  have hstep (s s' : Session) (h : SessionStep settings options s s') : s'.marksPart =
      s.marksPart := by
    cases h with
    | globalMark | localMark => simp_all
    | _ => rfl
  refine marksPart_eq (hstep _ _ (session_step settings options r entry)) ?_ ?_
  · rw [jumps_apply]
    cases entry.content <;> simp [hm]
  · rw [changes_apply]
    cases entry.content <;> simp [hm]

variable {options} {other : RestoreOptions} (hforce : other.force = options.force)
include hforce

/-- Whatever else is restored, entries do the same to the one part. -/
theorem infoPart_foldl_take (hi : other.info = options.info) (results : List (Except Error Entry))
    (r : Restore) : (results.foldl (take settings other) r).infoPart =
      (results.foldl (take settings options) r).infoPart := by
  refine part_foldl_take infoPart (fun _ => rfl) (fun r r' entry h => ?_) results rfl
  rw [infoPart_apply settings other, infoPart_apply settings options r, h, hi, hforce]

theorem marksPart_foldl_take (hm : other.marks = options.marks)
    (results : List (Except Error Entry)) (r : Restore) :
    (results.foldl (take settings other) r).marksPart =
      (results.foldl (take settings options) r).marksPart := by
  refine part_foldl_take marksPart (fun _ => rfl) (fun r r' entry h => ?_) results rfl
  rw [marksPart_apply settings other, marksPart_apply settings options r, h, hm, hforce]

omit hforce

/-- What is handed back of the one part is a matter of this part. -/
theorem infoPart_finish (r : Restore) :
    (r.finish options).infoPart = (r.infoPart.finish {}).infoPart := by
  rw [finish_eq, finish_eq]
  rfl

theorem marksPart_finish (r : Restore) :
    (r.finish options).marksPart = (r.marksPart.finish {}).marksPart := by
  rw [finish_eq, finish_eq]
  rfl

end Parts

theorem oldFiles_read (ho : options.oldFiles = true) (session : Session) (stream : Stream) :
    (stream.read.decoded.foldl (take settings options) { session }).oldFiles.keys =
      stream.markedFiles := by
  have hstep (result : Except Error Entry)
      (r : Restore) : (r.take settings options result).oldFiles =
      (result.toOption.bind Entry.markedFile?).elim r.oldFiles fun file =>
      r.oldFiles.insertNew file () := by
    cases result with
    | error e => rfl
    | ok entry =>
      rw [take, oldFiles_apply, Except.toOption, Option.bind_some, Entry.markedFile?]
      cases entry.content with
      | localMark mark => exact if_pos ho
      | _ => rfl
  have hfold : (stream.read.decoded.foldl (take settings options) { session }).oldFiles =
      (stream.read.decoded.filterMap fun result => result.toOption.bind Entry.markedFile?).foldl
        (fun files file => files.insertNew file ()) .empty :=
    foldl_filterMap_of_step Restore.oldFiles (fun result _ r => hstep result r) { session }
  rw [hfold, ← List.filterMap_filterMap, Dictionary.keys]
  show List.map Prod.fst (((stream.entries.filterMap Entry.markedFile?).foldl
    (fun (files : Dictionary Path Unit) file => files.alter (id file) fun held => (held.getD ()))
    .empty).entries) = _
  rw [Dictionary.entries_foldl_group id (fun _ _ => ()) () _, List.map_map, List.map_id]
  exact List.map_id _

end Restore

namespace Session

/-- A restore leaves alone what the settings switch off: each history and the jumps if
there is to be no room for them, all files if none is to have marks, and variables, global
marks and buffers if they are not wanted. Where there is to be no room for changes, those
of a file are left alone only if none of them is restored; otherwise all are lost. -/
theorem restore_switched_off (settings : Settings) (options : RestoreOptions) (session : Session)
    (stream : Stream) : let restored := (session.restore settings options stream).1
    (∀ type, settings.history.get type = 0 → restored.history.get type = session.history.get type) ∧
      (settings.jumps = 0 → restored.jumps = session.jumps) ∧
      (settings.changes = 0 → ∀ file, restored.changesOf file =
        if options.marks = true ∧ 0 < settings.markedFiles ∧ stream.changesOf file ≠ [] then []
        else session.changesOf file) ∧
      (settings.markedFiles = 0 → restored.files = session.files) ∧
      (settings.globalVariables = false → restored.globalVariables = session.globalVariables) ∧
      (settings.globalMarks = false → restored.globalMarks = session.globalMarks) ∧
      (settings.bufferList = none → restored.buffers = session.buffers) := by
  refine ⟨fun type hroom => ?_, fun hroom => ?_, fun hroom file => ?_, fun hf => ?_,
    fun hg => ?_, fun hg => ?_, fun hb => ?_⟩
  · rw [history_restore]
    simp [hroom]
  · rw [jumps_restore]
    simp [hroom]
  · have hempty (changes : List (Timed Mark)) :
        ((⟨0, []⟩ : ChangeList).extend changes).items = [] :=
      List.eq_nil_of_length_eq_zero (Nat.le_zero.mp
        ((Bounded.oneEach_empty Mark.place 0).extend Mark.sameLocation_iff changes).room)
    rw [changesOf_restore, hroom, ← Bounded.extend_append, hempty]
    simp [and_assoc]
  · exact Restore.files_restore hf session stream
  · refine Restore.get_restore globalVariables (fun s s' hstep => ?_)
      (fun r => by rw [Restore.finish_eq]) session stream
    cases hstep with
    | globalVariable hi hon name value => exact absurd hon (Bool.eq_false_iff.mp hg)
    | _ => rfl
  · refine Restore.get_restore globalMarks (fun s s' hstep => ?_)
      (fun r => by rw [Restore.finish_eq]) session stream
    cases hstep with
    | globalMark hm hon mark => exact absurd hon (Bool.eq_false_iff.mp hg)
    | _ => rfl
  · refine Restore.get_restore buffers (fun s s' hstep => ?_) (fun r => by rw [Restore.finish_eq])
      session stream
    cases hstep with
    | buffers hi hon buffers =>
      rw [hb] at hon
      cases hon
    | _ => rfl

/-- There is to be no room for changes. The session has a change of a file, and
the stream another one. -/
theorem restore_switched_off_changes :
    let file : Path := .ofAscii "a"
    let settings : Settings := { changes := 0 }
    let session : Session := ({} : Session).pushChange ⟨1, { file }⟩
    let stream : Stream := ⟨[11, 5, 5, 0x81, 0xA1, 0x66, 0xA1, 0x61], false⟩
    settings.changes = 0 ∧ session.changesOf file = [⟨1, { file }⟩] ∧
      (session.restore settings { marks := true } stream).1.changesOf file = [] := by
  intro file settings session stream
  have hroom : settings.changes = 0 := rfl
  have hchanges : stream.changesOf file = [⟨5, { file }⟩] := by decide +kernel
  refine ⟨hroom, rfl, ?_⟩
  rw [(restore_switched_off settings { marks := true } session stream).2.2.1 hroom file, hchanges]
  exact if_pos ⟨rfl, by decide, List.cons_ne_nil _ _⟩

section Parts

variable {settings : Settings} {options : RestoreOptions} (session : Session) (stream : Stream)

theorem infoPart_restore_of_not_info (hi : options.info = false) :
    (session.restore settings options stream).1.infoPart = session.infoPart := by
  have hread := Restore.get_foldl_take Restore.infoPart (fun _ => rfl)
    (fun r entry => Restore.infoPart_apply_of_not_info settings r entry hi)
      stream.read.decoded { session }
  refine (Restore.infoPart_finish _).trans ?_
  rw [hread]
  rfl

theorem marksPart_restore_of_not_marks (hm : options.marks = false) :
    (session.restore settings options stream).1.marksPart = session.marksPart := by
  have hread := Restore.get_foldl_take Restore.marksPart (fun _ => rfl)
    (fun r entry => Restore.marksPart_apply_of_not_marks settings r entry hm)
      stream.read.decoded { session }
  refine (Restore.marksPart_finish _).trans ?_
  rw [hread]
  rfl

theorem oldFiles_restore : (session.restore settings options stream).1.oldFiles =
    if options.oldFiles then stream.markedFiles else session.oldFiles := by
  have hsession : (stream.read.decoded.foldl (Restore.take settings options)
      { session }).session.oldFiles = session.oldFiles := by
    refine Restore.get_foldl_take (fun r => r.session.oldFiles) (fun _ => rfl)
      (fun r entry => ?_) _ _
    have hstep (s s' : Session) (h : Restore.SessionStep settings options s s') : s'.oldFiles =
        s.oldFiles := by
      cases h <;> rfl
    exact hstep _ _ (Restore.session_step settings options r entry)
  refine (Restore.oldFiles_finish _).trans ?_
  split
  · next ho => exact Restore.oldFiles_read settings options ho session stream
  · exact hsession

/-- A restore that is asked for nothing leaves the session as it is. -/
theorem restore_nothing (hi : options.info = false) (hm : options.marks = false)
    (ho : options.oldFiles = false) : (session.restore settings options stream).1 = session := by
  have hold : (session.restore settings options stream).1.oldFiles = session.oldFiles := by
    rw [oldFiles_restore, ho]
    rfl
  exact eq_of_parts (infoPart_restore_of_not_info session stream hi)
    (marksPart_restore_of_not_marks session stream hm) hold

end Parts

/-- Options confine a restore, whatever the settings and the session are. Information, marks
and old files are left as they were unless they are asked for. Old files, if they are, become
the files of the local marks that the stream has up to its end or its damage, each of them
once. What becomes of information, and of marks, does not depend on what else is asked for. -/
theorem restore_confined (settings : Settings) (options : RestoreOptions) (session : Session)
    (stream : Stream) : let restored := (session.restore settings options stream).1
    (options.info = false → restored.infoPart = session.infoPart) ∧
      (options.marks = false → restored.marksPart = session.marksPart) ∧
      restored.oldFiles = (if options.oldFiles then stream.markedFiles else session.oldFiles) ∧
      ∀ other : RestoreOptions, other.force = options.force →
        (other.info = options.info →
          (session.restore settings other stream).1.infoPart = restored.infoPart) ∧
        (other.marks = options.marks →
          (session.restore settings other stream).1.marksPart = restored.marksPart) := by
  refine ⟨infoPart_restore_of_not_info session stream,
    marksPart_restore_of_not_marks session stream, oldFiles_restore session stream,
      fun other hforce => ⟨fun hi => ?_, fun hm => ?_⟩⟩
  · have hread := Restore.infoPart_foldl_take settings hforce hi stream.read.decoded { session }
    refine (Restore.infoPart_finish _).trans ?_
    rw [hread]
    exact (Restore.infoPart_finish _).symm
  · have hread := Restore.marksPart_foldl_take settings hforce hm stream.read.decoded { session }
    refine (Restore.marksPart_finish _).trans ?_
    rw [hread]
    exact (Restore.marksPart_finish _).symm

/-- A register and a local mark, of which only the mark is asked for, and its file. -/
theorem restore_confined_marks :
    let file : Path := .ofAscii "f"
    let session : Session := ({} : Session).setRegister ⟨3, { name := 'a', contents := [[0x78]] }⟩
    let stream : Stream := ⟨[5, 9, 10, 0x82, 0xA2, 0x72, 0x63, 0x91, 0xA1, 0x79, 0xA1, 0x6E, 0x61,
      10, 1, 8, 0x82, 0xA1, 0x66, 0xA1, 0x66, 0xA1, 0x6E, 0x62], false⟩
    let options : RestoreOptions := { marks := true, oldFiles := true }
    let other : RestoreOptions := { info := true, marks := true }
    let restored := (session.restore {} options stream).1
    (options.info = false ∧ other.force = options.force ∧ other.marks = options.marks) ∧
      restored.infoPart = session.infoPart ∧ restored.oldFiles = [file] ∧
      restored.localMark? file 'b' = some ⟨1, { file, name := 'b' }⟩ ∧
      (session.restore {} other stream).1.marksPart = restored.marksPart ∧
      (session.restore {} other stream).1.registers.find? 'a' =
      some ⟨9, { name := 'a', contents := [[0x79]] }⟩ := by
  intro file session stream options other restored
  obtain ⟨hinfo, -, hold, hothers⟩ := restore_confined {} options session stream
  have hi : options.info = false := rfl
  have hforce : other.force = options.force := rfl
  have hm : other.marks = options.marks := rfl
  have hfiles : stream.markedFiles = [file] := by decide +kernel
  refine ⟨⟨hi, hforce, hm⟩, hinfo hi, ?_, ?_, (hothers other hforce).2 hm, ?_⟩
  · rw [← hfiles]
    exact hold
  · show (Session.restore {} { marks := true, oldFiles := true } session
      stream).1.localMark? file 'b' = _
    decide +kernel
  · show (Session.restore {} { info := true, marks := true } session
      stream).1.registers.find? 'a' = _
    decide +kernel

end Session

end SessionStore
