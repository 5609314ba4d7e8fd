import SessionStore.Proofs.Collection.Late
import SessionStore.Proofs.RestoredLists
import SessionStore.Proofs.RestoredValues

/-! How a restore counts entries: what is not counted as applied changes nothing. -/
namespace SessionStore

def Entry.buffers? (entry : Entry) : Option (List Buffer) :=
  match entry.content with
  | .bufferList buffers => some buffers
  | _ => none

def Stream.bufferLists (s : Stream) : List (List Buffer) := s.entries.filterMap Entry.buffers?

namespace Restore

variable (settings : Settings) (options : RestoreOptions)

/-- Two restores under way have the same session, but for the buffers, and the same lists. -/
structure Alike (r r' : Restore) : Prop where
  session : ∃ buffers, r.session = { r'.session with buffers }
  ring : ∀ type, r.ring settings type = r'.ring settings type
  jumpList : r.jumpList settings = r'.jumpList settings
  changeList : ∀ file, r.changeList settings file = r'.changeList settings file

variable {settings} {r r' r'' : Restore} {entry : Entry}

theorem alike_refl (r : Restore) : r.Alike settings r :=
  ⟨⟨r.session.buffers, rfl⟩, fun _ => rfl, rfl, fun _ => rfl⟩

theorem Alike.trans (h : r.Alike settings r') (h' : r'.Alike settings r'') :
    r.Alike settings r'' := by
  obtain ⟨buffers, hsession⟩ := h.session
  obtain ⟨buffers', hsession'⟩ := h'.session
  refine ⟨⟨buffers, ?_⟩, fun type => (h.ring type).trans (h'.ring type),
    h.jumpList.trans h'.jumpList, fun file => (h.changeList file).trans (h'.changeList file)⟩
  rw [hsession, hsession']

variable (entry) in
theorem Alike.applies (h : r.Alike settings r') :
    r.applies settings options entry = r'.applies settings options entry := by
  obtain ⟨buffers, hsession⟩ := h.session
  unfold Restore.applies
  cases entry.content with
  | history item => dsimp only; rw [h.ring]
  | jump mark => dsimp only; rw [h.jumpList]
  | change mark => dsimp only; rw [h.changeList]
  | _ => dsimp only <;> (try rw [hsession]) <;> rfl

section Idle

variable {options} (hidle : entry.buffers? = none → r.applies settings options entry = false)
include hidle

theorem session_apply_idle :
    ∃ buffers, (r.apply settings options entry).session = { r.session with buffers } := by
  obtain ⟨timestamp, content⟩ := entry
  rw [session_apply]
  unfold Restore.applies at hidle
  cases content with
  | bufferList buffers =>
    dsimp only
    split
    · exact ⟨buffers, rfl⟩
    · exact ⟨_, rfl⟩
  | header | unknown | history | jump | change => exact ⟨_, rfl⟩
  | _ =>
    dsimp only at hidle ⊢
    rw [hidle rfl]
    exact ⟨_, rfl⟩

theorem ring_apply_idle (hroom : ∀ type, (r.ring settings type).items.length ≤
    (r.ring settings type).capacity)
    (type : HistoryType) : (r.apply settings options entry).ring settings type =
      r.ring settings type := by
  have hlists := sameLists_apply settings options r entry
  obtain ⟨timestamp, content⟩ := entry
  unfold ring
  rw [hlists.history, rings_apply]
  cases content with
  | history item =>
    dsimp only
    split
    · next hon =>
      have hstored : ((r.ring settings item.type).insert ⟨timestamp, item⟩ options.force).2 =
          false := by
        simpa only [Restore.applies, hon, Bool.true_and] using hidle rfl
      rw [HistoryRing.insert_unstored (hroom item.type) hstored]
      by_cases ht : type = item.type
      · subst ht
        rw [PerHistory.get_set_self]
        rfl
      · rw [PerHistory.get_set_of_ne _ _ ht]
    · rfl
  | _ => rfl

theorem jumpList_apply_idle :
    (r.apply settings options entry).jumpList settings = r.jumpList settings := by
  have hlists := sameLists_apply settings options r entry
  obtain ⟨timestamp, content⟩ := entry
  unfold jumpList
  rw [hlists.jumps, jumps_apply]
  cases content with
  | jump mark =>
    dsimp only
    split
    · next hon =>
      have hstored : ((r.jumpList settings).insert ⟨timestamp, mark⟩).2.isStored = false := by
        simpa only [Restore.applies, hon, Bool.true_and] using hidle rfl
      rw [Bounded.insert_unstored hstored]
      rfl
    · rfl
  | _ => rfl

theorem changeList_apply_idle (file : Path) :
    (r.apply settings options entry).changeList settings file = r.changeList settings file := by
  have hlists := sameLists_apply settings options r entry
  obtain ⟨timestamp, content⟩ := entry
  unfold changeList
  rw [hlists.changes, changes_apply]
  cases content with
  | change mark =>
    dsimp only
    split
    · next hon =>
      have hstored : ((r.changeList settings mark.file).insert ⟨timestamp, mark⟩).2.isStored =
          false := by
        simpa only [Restore.applies, hon, Bool.true_and] using hidle rfl
      rw [Bounded.insert_unstored hstored]
      by_cases hf : mark.file == file
      · rw [← Dictionary.find?_congr _ hf, Dictionary.find?_insert_self,
          ← Dictionary.find?_congr _ hf, ← Session.changesOf_congr _ hf]
        rfl
      · rw [Dictionary.find?_insert_of_ne _ (Bool.eq_false_iff.mpr hf)]
    · rfl
  | _ => rfl

/-- An entry that is not applied changes nothing that matters to others, and
neither does a list of buffers. -/
theorem alike_apply (hroom : ∀ type, (r.ring settings type).items.length ≤
    (r.ring settings type).capacity) : (r.apply settings options entry).Alike settings r :=
  ⟨session_apply_idle hidle, ring_apply_idle hidle hroom, jumpList_apply_idle hidle,
    changeList_apply_idle hidle⟩

/-- Only lists of buffers are applied then. -/
theorem applied_apply_idle : (r.apply settings options entry).report.applied = r.report.applied +
    if options.info && settings.bufferList.isSome then entry.buffers?.toList.length else 0 := by
  obtain ⟨timestamp, content⟩ := entry
  rw [report_apply]
  cases content with
  | bufferList buffers =>
    dsimp only [Restore.applies, Entry.buffers?]
    by_cases hon : (options.info && settings.bufferList.isSome) = true
    · simp [hon]
    · simp [hon]
  | header | unknown => simp [Entry.buffers?]
  | _ =>
    dsimp only
    rw [hidle rfl]
    simp [Entry.buffers?]

end Idle

/-- Entries that the restore would not apply leave it as it is, whatever lists
of buffers come between them. -/
theorem foldl_take_idle (hroom : ∀ type, (r'.ring settings type).items.length ≤
    (r'.ring settings type).capacity) {results : List (Except Error Entry)}
    (hidle : ∀ entry ∈ results.filterMap Except.toOption, entry.buffers? = none →
      r'.applies settings options entry = false) (h : r.Alike settings r') :
    (results.foldl (take settings options) r).Alike settings r' ∧
      (results.foldl (take settings options) r).report.applied = r.report.applied +
        if options.info && settings.bufferList.isSome then
          ((results.filterMap Except.toOption).filterMap Entry.buffers?).length
        else 0 := by
  induction results generalizing r with
  | nil => exact ⟨h, by simp⟩
  | cons result rest ih =>
    rw [List.foldl_cons]
    cases result with
    | error e => exact ih hidle (r := r.countInvalid) ⟨h.session, h.ring, h.jumpList, h.changeList⟩
    | ok entry =>
      obtain ⟨hentry, hrest⟩ := List.forall_mem_cons.mp hidle
      have hnone : entry.buffers? = none → r.applies settings options entry = false := by
        rw [h.applies]
        exact hentry
      have hring : ∀ type, (r.ring settings type).items.length ≤
          (r.ring settings type).capacity := by
        intro type
        rw [h.ring]
        exact hroom type
      obtain ⟨halike, happlied⟩ := ih hrest ((alike_apply hnone hring).trans h)
      refine ⟨halike, happlied.trans ?_⟩
      have hentries : (.ok entry :: rest).filterMap Except.toOption =
          entry :: rest.filterMap Except.toOption := rfl
      rw [applied_apply_idle hnone, hentries]
      cases hb : entry.buffers? with
      | none => simp [List.filterMap_cons_none hb]
      | some buffers =>
        rw [List.filterMap_cons_some hb, List.length_cons, Option.toList_some,
          List.length_singleton]
        split <;> omega

end Restore

end SessionStore
