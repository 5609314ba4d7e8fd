import SessionStore.Restore

/-! What an entry does to each part of a restore, and how it is counted. -/
namespace SessionStore.Restore

section Parts

variable (r : Restore) (applied : Bool) (f : Session → Session)
  (options : RestoreOptions) (file : Path)

@[simp] theorem session_count : (r.count applied).session = r.session := by cases applied <;> rfl

@[simp] theorem rings_count : (r.count applied).rings = r.rings := by cases applied <;> rfl

@[simp] theorem jumps_count : (r.count applied).jumps = r.jumps := by cases applied <;> rfl

@[simp] theorem changes_count : (r.count applied).changes = r.changes := by cases applied <;> rfl

@[simp] theorem oldFiles_count : (r.count applied).oldFiles = r.oldFiles := by cases applied <;> rfl

theorem report_count : (r.count applied).report =
    if applied then { r.report with applied := r.report.applied + 1 }
    else { r.report with skipped := r.report.skipped + 1 } := by
  cases applied <;> rfl

theorem noteOldFile_eq : r.noteOldFile options file =
    { r with
      oldFiles := if options.oldFiles then r.oldFiles.insertNew file () else r.oldFiles } := by
  unfold noteOldFile
  split <;> rfl

end Parts

variable (settings : Settings) (options : RestoreOptions) (r : Restore) (entry : Entry)

theorem session_apply : (r.apply settings options entry).session =
    match entry.content with
    | .searchPattern p =>
      if options.info && wins options entry.timestamp (r.session.pattern p.isSubstitute) then
        r.session.setPattern p.isSubstitute ⟨entry.timestamp, p⟩
      else r.session
    | .replacement replacement =>
      if options.info && wins options entry.timestamp r.session.replacement then
        r.session.setReplacement ⟨entry.timestamp, replacement⟩
      else r.session
    | .register register =>
      if options.info && isRegisterName register.name &&
          wins options entry.timestamp (r.session.registers.find? register.name) then
        r.session.setRegister ⟨entry.timestamp, register⟩
      else r.session
    | .variable v =>
      if options.info && settings.globalVariables &&
        (options.force || !r.session.hasVariable v.name) then r.session.setVariable v.name v.value
      else r.session
    | .globalMark mark =>
      if options.marks && settings.globalMarks && isGlobalMarkName mark.name &&
          wins options entry.timestamp (r.session.globalMarks.find? mark.name) then
        r.session.setGlobalMark ⟨entry.timestamp, mark⟩
      else r.session
    | .bufferList buffers =>
      if options.info && settings.bufferList.isSome then r.session.setBuffers buffers else r.session
    | .localMark mark =>
      if options.marks && 0 < settings.markedFiles &&
          wins options entry.timestamp (r.session.localMark? mark.file mark.name) then
        r.session.setLocalMark ⟨entry.timestamp, mark⟩
      else r.session
    | _ => r.session := by
  unfold apply
  cases entry.content with
  | header | unknown => rfl
  | history item =>
    dsimp only [applyHistory]
    split <;> (try split) <;> first | rfl | exact session_count _ _
  | jump mark =>
    dsimp only [applyJump]
    split <;> (try split) <;> first | rfl | exact session_count _ _
  | change mark =>
    dsimp only [applyChange]
    split <;> first | rfl | exact session_count _ _
  | localMark mark =>
    dsimp only [update]
    rw [session_count, noteOldFile_eq]
  | _ => exact session_count _ _

theorem rings_apply : (r.apply settings options entry).rings =
    match entry.content with
    | .history item =>
      if options.info && settings.history.get item.type ≠ 0 then
        r.rings.set item.type
          (some ((r.ring settings item.type).insert ⟨entry.timestamp, item⟩ options.force).1)
      else r.rings
    | _ => r.rings := by
  unfold apply
  cases entry.content <;> dsimp only [applyHistory, applyJump, applyChange, update, noteOldFile] <;>
    (repeat' split) <;> simp_all [skip, countUnknown]

theorem jumps_apply : (r.apply settings options entry).jumps =
    match entry.content with
    | .jump mark =>
      if options.marks && settings.jumps ≠ 0 then
        some ((r.jumpList settings).insert ⟨entry.timestamp, mark⟩).1
      else r.jumps
    | _ => r.jumps := by
  unfold apply
  cases entry.content <;> dsimp only [applyHistory, applyJump, applyChange, update, noteOldFile] <;>
    (repeat' split) <;> simp_all [skip, countUnknown]

theorem changes_apply : (r.apply settings options entry).changes =
    match entry.content with
    | .change mark =>
      if options.marks && 0 < settings.markedFiles then
        r.changes.insert mark.file
          ((r.changeList settings mark.file).insert ⟨entry.timestamp, mark⟩).1
      else r.changes
    | _ => r.changes := by
  unfold apply
  cases entry.content <;> dsimp only [applyHistory, applyJump, applyChange, update, noteOldFile] <;>
    (repeat' split) <;> simp_all [skip, countUnknown]

theorem oldFiles_apply : (r.apply settings options entry).oldFiles =
    match entry.content with
    | .localMark mark => if options.oldFiles then r.oldFiles.insertNew mark.file () else r.oldFiles
    | _ => r.oldFiles := by
  unfold apply
  cases entry.content <;> dsimp only [applyHistory, applyJump, applyChange, update, noteOldFile] <;>
    (repeat' split) <;> simp_all [skip, countUnknown]

/-- Whether an entry changes the session or one of the lists that are taken from it. -/
def applies (r : Restore) (entry : Entry) : Bool :=
  match entry.content with
  | .header _ | .unknown .. => false
  | .searchPattern p =>
    options.info && wins options entry.timestamp (r.session.pattern p.isSubstitute)
  | .replacement _ => options.info && wins options entry.timestamp r.session.replacement
  | .history item =>
    options.info && settings.history.get item.type ≠ 0 &&
      ((r.ring settings item.type).insert ⟨entry.timestamp, item⟩ options.force).2
  | .register register =>
    options.info && isRegisterName register.name &&
      wins options entry.timestamp (r.session.registers.find? register.name)
  | .variable v =>
    options.info && settings.globalVariables && (options.force || !r.session.hasVariable v.name)
  | .globalMark mark =>
    options.marks && settings.globalMarks && isGlobalMarkName mark.name &&
      wins options entry.timestamp (r.session.globalMarks.find? mark.name)
  | .jump mark =>
    options.marks && settings.jumps ≠
      0 && ((r.jumpList settings).insert ⟨entry.timestamp, mark⟩).2.isStored
  | .bufferList _ => options.info && settings.bufferList.isSome
  | .localMark mark =>
    options.marks && 0 < settings.markedFiles &&
      wins options entry.timestamp (r.session.localMark? mark.file mark.name)
  | .change mark =>
    options.marks && 0 < settings.markedFiles &&
      ((r.changeList settings mark.file).insert ⟨entry.timestamp, mark⟩).2.isStored

/-- Every entry is counted once, but for headers. -/
theorem report_apply : (r.apply settings options entry).report =
    match entry.content with
    | .header _ => r.report
    | .unknown .. => { r.report with unknown := r.report.unknown + 1 }
    | _ =>
      if r.applies settings options entry then { r.report with applied := r.report.applied + 1 }
      else { r.report with skipped := r.report.skipped + 1 } := by
  obtain ⟨timestamp, content⟩ := entry
  unfold apply applies
  cases content with
  | header | unknown => rfl
  | history item =>
    dsimp only [applyHistory]
    by_cases hi : options.info = true
    · by_cases hroom : settings.history.get item.type = 0
      · simp [hi, hroom, skip]
      · simp [hi, hroom, report_count]
    · simp [hi, skip]
  | jump mark =>
    dsimp only [applyJump]
    by_cases hm : options.marks = true
    · by_cases hroom : settings.jumps = 0
      · simp [hm, hroom, skip]
      · simp [hm, hroom, report_count]
    · simp [hm, skip]
  | change mark =>
    dsimp only [applyChange]
    by_cases hm : (options.marks && decide (0 < settings.markedFiles)) = true
    · simp only [hm, report_count, if_true, Bool.true_and]
    · simp only [hm, Bool.false_and, skip]
      rfl
  | localMark mark =>
    dsimp only [update]
    rw [report_count, noteOldFile_eq]
  | _ => exact report_count _ _

/-- What one entry can make of a session. Lists are not handed back yet. -/
inductive SessionStep (settings : Settings) (options : RestoreOptions) (s : Session) :
    Session → Prop
  | unchanged : SessionStep settings options s s
  | searchPattern (hi : options.info = true) (p : Timed SearchPattern) :
    SessionStep settings options s { s with searchPattern := some p }
  | substitutePattern (hi : options.info = true) (p : Timed SearchPattern) :
    SessionStep settings options s { s with substitutePattern := some p }
  | replacement (hi : options.info = true) (p : Timed Replacement) :
    SessionStep settings options s (s.setReplacement p)
  | register (hi : options.info = true) (register : Timed Register) :
    SessionStep settings options s (s.setRegister register)
  | globalVariable (hi : options.info = true) (hg : settings.globalVariables = true) (name : Bytes)
    (value : Msgpack.Value) : SessionStep settings options s (s.setVariable name value)
  | buffers (hi : options.info = true) (hb : settings.bufferList.isSome = true)
    (buffers : List Buffer) : SessionStep settings options s (s.setBuffers buffers)
  | globalMark (hm : options.marks = true) (hg : settings.globalMarks = true) (mark : Timed Mark) :
    SessionStep settings options s (s.setGlobalMark mark)
  | localMark (hm : options.marks = true) (hf : 0 < settings.markedFiles) (mark : Timed Mark) :
    SessionStep settings options s (s.setLocalMark mark)

theorem SessionStep.ite {settings : Settings} {options : RestoreOptions} {s s' : Session}
    {applies : Bool} (h : applies = true → SessionStep settings options s s') :
    SessionStep settings options s (if applies then s' else s) := by
  cases applies with
  | false => exact .unchanged
  | true => exact h rfl

theorem session_step :
    SessionStep settings options r.session (r.apply settings options entry).session := by
  rw [session_apply]
  cases entry.content with
  | searchPattern p =>
    refine .ite fun h => ?_
    have hi : options.info = true := (Bool.and_eq_true_iff.mp h).1
    cases p.isSubstitute with
    | false => exact .searchPattern hi _
    | true => exact .substitutePattern hi _
  | replacement p => exact .ite fun h => .replacement (Bool.and_eq_true_iff.mp h).1 _
  | register register =>
    exact .ite fun h => .register (Bool.and_eq_true_iff.mp (Bool.and_eq_true_iff.mp h).1).1 _
  | «variable» v =>
    refine .ite fun h => ?_
    obtain ⟨hi, hg⟩ := Bool.and_eq_true_iff.mp (Bool.and_eq_true_iff.mp h).1
    exact .globalVariable hi hg v.name v.value
  | bufferList buffers =>
    refine .ite fun h => ?_
    obtain ⟨hi, hb⟩ := Bool.and_eq_true_iff.mp h
    exact .buffers hi hb buffers
  | globalMark mark =>
    refine .ite fun h => ?_
    obtain ⟨hm, hg⟩ :=
      Bool.and_eq_true_iff.mp (Bool.and_eq_true_iff.mp (Bool.and_eq_true_iff.mp h).1).1
    exact .globalMark hm hg _
  | localMark mark =>
    refine .ite fun h => ?_
    obtain ⟨hm, hf⟩ := Bool.and_eq_true_iff.mp (Bool.and_eq_true_iff.mp h).1
    exact .localMark hm (of_decide_eq_true hf) _
  | _ => exact .unchanged

section Run

variable {settings options} {β : Type}

/-- What every entry of a run keeps, and every result that is none, the run keeps. -/
theorem foldl_take_keeps {P : Restore → Prop} {results : List (Except Error Entry)}
    {r : Restore} (h : P r) (herror : ∀ r, P r → P r.countInvalid)
    (happly : ∀ r entry, .ok entry ∈ results → P r → P (r.apply settings options entry)) :
    P (results.foldl (take settings options) r) := by
  refine List.foldlRecOn results _ h fun r hr result hm => ?_
  cases result with
  | error e => exact herror r hr
  | ok entry => exact happly r entry hm hr

theorem get_foldl_take (get : Restore → β) (herror : ∀ r, get r.countInvalid = get r)
    (happly : ∀ r entry, get (r.apply settings options entry) = get r)
    (results : List (Except Error Entry)) (r : Restore) :
    get (results.foldl (take settings options) r) = get r :=
  foldl_take_keeps (P := fun r' => get r' = get r) rfl (fun r' h => (herror r').trans h)
    fun r' entry _ h => (happly r' entry).trans h

/-- What two restores make of a part is the same if each entry makes the same of it. -/
theorem part_foldl_take {other : RestoreOptions} (part : Restore → β)
    (herror : ∀ r, part r.countInvalid = part r) (happly : ∀ r r' entry, part r' = part r →
      part (r'.apply settings other entry) = part (r.apply settings options entry))
    (results : List (Except Error Entry)) {r r' : Restore} (h : part r' = part r) :
    part (results.foldl (take settings other) r') =
      part (results.foldl (take settings options) r) := by
  induction results generalizing r r' with
  | nil => exact h
  | cons result rest ih =>
    refine ih ?_
    cases result with
    | error e => exact (herror r').trans (h.trans (herror r).symm)
    | ok entry => exact happly r r' entry h

end Run

end SessionStore.Restore
