import SessionStore.Proofs.Collection.FileMarks
import SessionStore.Proofs.Collection.Orderly
import SessionStore.Proofs.RestoreProvenance

/-! The lists of a session after a restore: each is filled from the session and
takes the entries of the stream. -/
namespace SessionStore

open Recency (NoneOvertakes)

namespace Entry

def line? (type : HistoryType) (entry : Entry) : Option (Timed HistoryItem) :=
  match entry.content with
  | .history item => if item.type = type then some ⟨entry.timestamp, item⟩ else none
  | _ => none

def jump? (entry : Entry) : Option (Timed Mark) :=
  match entry.content with
  | .jump mark => some ⟨entry.timestamp, mark⟩
  | _ => none

def change? (file : Path) (entry : Entry) : Option (Timed Mark) :=
  match entry.content with
  | .change mark => if mark.file == file then some ⟨entry.timestamp, mark⟩ else none
  | _ => none

end Entry

namespace Stream

def history (s : Stream) (type : HistoryType) : List (Timed HistoryItem) :=
  s.entries.filterMap (Entry.line? type)

def jumps (s : Stream) : List (Timed Mark) := s.entries.filterMap Entry.jump?

def changesOf (s : Stream) (file : Path) : List (Timed Mark) :=
  s.entries.filterMap (Entry.change? file)

end Stream

namespace Session

theorem changesOf_congr (session : Session) {file other : Path} (h : (file == other) = true) :
    session.changesOf file = session.changesOf other := by
  unfold changesOf
  rw [Table.find?_congr _ (Path.compare_eq_iff.mpr h)]

theorem changesOf_alterFile (session : Session) (file other : Path) (f : FileState → FileState) :
    (session.alterFile file f).changesOf other =
      if (file == other) = true then (f ((session.files.find? file).getD {})).changes
      else session.changesOf other := by
  unfold changesOf alterFile
  dsimp only
  rw [Table.find?_alter]
  simp only [Path.compare_eq_iff]
  split <;> rfl

@[simp] theorem changesOf_setLocalMark (session : Session) (mark : Timed Mark) (file : Path) :
    (session.setLocalMark mark).changesOf file = session.changesOf file := by
  unfold setLocalMark
  rw [changesOf_alterFile]
  split
  · next h =>
    rw [← changesOf_congr session h, changesOf]
    cases session.files.find? mark.value.file <;> rfl
  · rfl

end Session

structure Session.SameLists (s s' : Session) : Prop where
  history : s.history = s'.history
  jumps : s.jumps = s'.jumps
  changes : ∀ file, s.changesOf file = s'.changesOf file

namespace Restore

variable (settings : Settings) (options : RestoreOptions)

theorem sameLists_apply (r : Restore) (entry : Entry) :
    (r.apply settings options entry).session.SameLists r.session := by
  have hstep := session_step settings options r entry
  generalize (r.apply settings options entry).session = s at hstep ⊢
  cases hstep with
  | localMark => exact ⟨rfl, rfl, Session.changesOf_setLocalMark _ _⟩
  | _ => exact ⟨rfl, rfl, fun _ => rfl⟩

theorem sameLists_foldl_take (r : Restore) (results : List (Except Error Entry)) :
    (results.foldl (take settings options) r).session.SameLists r.session := by
  refine foldl_take_keeps (P := fun r' => r'.session.SameLists r.session) ⟨rfl, rfl, fun _ => rfl⟩
    (fun _ h => h) fun r' entry _ h => ?_
  have hstep := sameLists_apply settings options r' entry
  exact ⟨hstep.history.trans h.history, hstep.jumps.trans h.jumps,
    fun file => (hstep.changes file).trans (h.changes file)⟩

section Gathered

variable {α β : Type} (get : Restore → Option β) (start : Session → β) (pick : Entry → Option α)
  (put : β → α → β) (hstart : ∀ s s' : Session, s.SameLists s' → start s = start s')
    (herror : ∀ r, get (countInvalid r) = get r)
include hstart herror

/-- A list is taken from the session with the first item that is put into it. -/
theorem foldl_take_gathers
    (happly : ∀ r entry, get (r.apply settings options entry) =
      (pick entry).elim (get r) fun item => some (put ((get r).getD (start r.session)) item))
    (r : Restore) (results : List (Except Error Entry)) :
    let items := (results.filterMap Except.toOption).filterMap pick
    get (results.foldl (take settings options) r) =
      if items = [] then get r else some (items.foldl put ((get r).getD (start r.session))) := by
  induction results generalizing r with
  | nil => rfl
  | cons result rest ih =>
    have hsession : start (r.take settings options result).session = start r.session :=
      hstart _ _ (sameLists_foldl_take settings options r [result])
    have hrest := ih (r.take settings options result)
    dsimp only at hrest ⊢
    rw [List.foldl_cons, hrest, hsession]
    cases result with
    | error e =>
      have hsame : get (r.take settings options (.error e)) = get r := herror r
      rw [List.filterMap_cons_none rfl, hsame]
    | ok entry =>
      have hentry : get (r.take settings options (.ok entry)) =
          (pick entry).elim (get r) fun item => some (put ((get r).getD (start r.session)) item) :=
        happly r entry
      have hentries : (.ok entry :: rest).filterMap Except.toOption =
          entry :: rest.filterMap Except.toOption := rfl
      rw [hentries, hentry]
      cases hp : pick entry with
      | none =>
        rw [List.filterMap_cons_none hp]
        rfl
      | some item =>
        rw [List.filterMap_cons_some hp, if_neg (List.cons_ne_nil _ _)]
        by_cases hlast : (rest.filterMap Except.toOption).filterMap pick = []
        · rw [if_pos hlast, hlast]
          rfl
        · rw [if_neg hlast]
          rfl

/-- A list that is restored is taken from the session as soon as the stream has something for it. -/
theorem read_gathers {on : Bool} (hnone : ∀ session, get { session } = none)
    (happly : ∀ r entry, get (r.apply settings options entry) =
      if on then (pick entry).elim (get r) fun item => some
    (put ((get r).getD (start r.session)) item) else get r) (session : Session) (stream : Stream) :
    get (stream.read.decoded.foldl (take settings options) { session }) =
      if on ∧ stream.entries.filterMap pick ≠ [] then
        some ((stream.entries.filterMap pick).foldl put (start session))
      else none := by
  cases on with
  | false =>
    have hrun := foldl_take_gathers settings options get start (fun _ => none) put hstart herror
      happly { session } stream.read.decoded
    simpa [hnone] using hrun
  | true =>
    have hrun : get (stream.read.decoded.foldl (take settings options) { session }) =
        if stream.entries.filterMap pick = [] then get { session }
        else some ((stream.entries.filterMap pick).foldl put
          ((get { session }).getD (start session))) :=
      foldl_take_gathers settings options get start pick put hstart herror happly { session }
        stream.read.decoded
    rw [hrun, hnone]
    by_cases hitems : stream.entries.filterMap pick = []
    · rw [if_pos hitems, if_neg fun h => h.2 hitems]
    · rw [if_neg hitems, if_pos ⟨rfl, hitems⟩]
      rfl

end Gathered

variable (session : Session) (stream : Stream)

theorem rings_foldl_take (type : HistoryType) :
    (stream.read.decoded.foldl (take settings options) { session }).rings.get type =
      if (options.info && settings.history.get type ≠ 0) ∧ stream.history type ≠ [] then
        some ((stream.history type).foldl (fun ring line => (ring.insert line options.force).1)
          (HistoryRing.fill { capacity := settings.history.get type } false
            (session.history.get type).reverse))
      else none := by
  refine read_gathers settings options (fun r => r.rings.get type)
    (fun s => HistoryRing.fill { capacity := settings.history.get type } false
      (s.history.get type).reverse)
    (Entry.line? type) _ (fun s s' h => by rw [h.history]) (fun _ => rfl)
      (fun _ => PerHistory.get_uniform _ _)
    (fun r entry => ?_) session stream
  rw [rings_apply, Entry.line?]
  cases entry.content with
  | history item =>
    dsimp only
    by_cases ht : item.type = type
    · subst ht
      rw [if_pos rfl, apply_ite (PerHistory.get · item.type), PerHistory.get_set_self]
      rfl
    · rw [if_neg ht, apply_ite (PerHistory.get · type),
        PerHistory.get_set_of_ne _ _ (Ne.symm ht), ite_self]
      exact (ite_self _).symm
  | _ => simp

theorem jumps_foldl_take :
    (stream.read.decoded.foldl (take settings options) { session }).jumps =
      if (options.marks && settings.jumps ≠ 0) ∧ stream.jumps ≠ [] then
        some ((Bounded.fill { capacity := settings.jumps } (fun _ => true)
          session.jumps.reverse).extend stream.jumps)
      else none := by
  refine read_gathers settings options Restore.jumps
    (fun s => Bounded.fill { capacity := settings.jumps } (fun _ => true) s.jumps.reverse)
    Entry.jump? (fun list jump => (list.insert jump).1) (fun s s' h => by rw [h.jumps])
      (fun _ => rfl) (fun _ => rfl)
    (fun r entry => ?_) session stream
  rw [jumps_apply, Entry.jump?]
  cases entry.content with
  | jump mark => rfl
  | _ => simp

theorem changes_foldl_take (file : Path) :
    (stream.read.decoded.foldl (take settings options) { session }).changes.find? file =
      if (options.marks && 0 < settings.markedFiles) ∧ stream.changesOf file ≠ [] then
        some ((Bounded.extend { capacity := settings.changes } (session.changesOf file)).extend
          (stream.changesOf file))
      else none := by
  refine read_gathers settings options (fun r => r.changes.find? file)
    (fun s => Bounded.extend { capacity := settings.changes } (s.changesOf file))
    (Entry.change? file) (fun list change => (list.insert change).1)
      (fun s s' h => by rw [h.changes])
    (fun _ => rfl) (fun _ => rfl) (fun r entry => ?_) session stream
  rw [changes_apply, Entry.change?]
  cases entry.content with
  | change mark =>
    dsimp only
    by_cases hf : mark.file == file
    · have hlist : r.changeList settings mark.file = r.changeList settings file := by
        rw [changeList, changeList, Dictionary.find?_congr _ hf, Session.changesOf_congr _ hf]
      rw [if_pos hf, apply_ite (Dictionary.find? · file), hlist, ← Dictionary.find?_congr _ hf,
        Dictionary.find?_insert_self]
      rfl
    · rw [if_neg hf, apply_ite (Dictionary.find? · file),
        Dictionary.find?_insert_of_ne _ (Bool.eq_false_iff.mpr hf)]
      rfl
  | _ => simp

/-- The changes of a file are those of the list that was taken, if one was. -/
theorem changesOf_finish (r : Restore) (file : Path) :
    (r.finish options).changesOf file =
      (r.changes.find? file).elim (r.session.changesOf file) Bounded.items := by
  unfold Session.changesOf
  rw [find?_files_finish]
  cases r.changes.find? file <;> rfl

end Restore

namespace Session

variable (settings : Settings) (options : RestoreOptions) (session : Session) (stream : Stream)

/-- Restored jumps are those of the session, filled in newest first, with those
of the stream put in after them. -/
theorem jumps_restore : (session.restore settings options stream).1.jumps =
    if (options.marks && settings.jumps ≠ 0) ∧ stream.jumps ≠ [] then
      ((Bounded.fill { capacity := settings.jumps } (fun _ => true)
        session.jumps.reverse : JumpList).extend stream.jumps).items
    else session.jumps := by
  unfold restore
  dsimp only
  rw [Restore.jumps_finish, Restore.jumps_foldl_take, (Restore.sameLists_foldl_take _ _ _ _).jumps]
  split <;> rfl

/-- A restored history is that of the session, filled in newest first, with the
lines of the stream put in after it. -/
theorem history_restore (type : HistoryType) :
    (session.restore settings options stream).1.history.get type =
    if (options.info && settings.history.get type ≠ 0) ∧ stream.history type ≠ [] then
      ((stream.history type).foldl (fun ring line => (ring.insert line options.force).1)
        (HistoryRing.fill { capacity := settings.history.get type } false
          (session.history.get type).reverse)).items
    else session.history.get type := by
  unfold restore
  dsimp only
  rw [Restore.history_finish, Restore.rings_foldl_take,
    (Restore.sameLists_foldl_take _ _ _ _).history]
  split <;> rfl

/-- The restored changes of a file are those of the session and then those of the stream. -/
theorem changesOf_restore (file : Path) :
    (session.restore settings options stream).1.changesOf file =
    if (options.marks && 0 < settings.markedFiles) ∧ stream.changesOf file ≠ [] then
      ((Bounded.extend { capacity := settings.changes }
        (session.changesOf file) : ChangeList).extend (stream.changesOf file)).items
    else session.changesOf file := by
  unfold restore
  dsimp only
  rw [Restore.changesOf_finish, Restore.changes_foldl_take,
    (Restore.sameLists_foldl_take _ _ _ _).changes]
  split <;> rfl

structure OldestFirst (session : Session) : Prop where
  history : ∀ type, Recency.OldestFirst (session.history.get type)
  jumps : Recency.OldestFirst session.jumps
  changes : ∀ file, Recency.OldestFirst (session.changesOf file)

variable {session}

/-- Histories are in order after a restore. Jumps and changes take the place of
older ones, so that they are in order unless one of them overtakes another. -/
theorem restore_oldestFirst (hs : session.OldestFirst) :
    let restored := (session.restore settings options stream).1
    (∀ type, Recency.OldestFirst (restored.history.get type)) ∧
      (NoneOvertakes Mark.place (session.jumps.reverse ++ stream.jumps) →
        Recency.OldestFirst restored.jumps) ∧
      ∀ file, NoneOvertakes Mark.place (session.changesOf file ++ stream.changesOf file) →
        Recency.OldestFirst (restored.changesOf file) := by
  refine ⟨fun type => ?_, fun hn => ?_, fun file hn => ?_⟩
  · rw [history_restore]
    split
    · have hfilled := HistoryRing.oldestFirst_fill
        (HistoryRing.oldestFirst_empty (settings.history.get type)) false
        (session.history.get type).reverse
      exact HistoryRing.oldestFirst_foldl_insert hfilled options.force _
    · exact hs.history type
  · rw [jumps_restore]
    split
    · have hfilled := (Bounded.orderly_empty Mark.place settings.jumps).fill Mark.sameLocation_iff
        (show ([] ++ session.jumps.reverse).Pairwise _ from List.pairwise_reverse.mpr hs.jumps)
      exact (hfilled.extend Mark.sameLocation_iff hn).oldestFirst
    · exact hs.jumps
  · rw [changesOf_restore]
    split
    · rw [← Bounded.extend_append]
      exact ((Bounded.orderly_empty Mark.place settings.changes).extend Mark.sameLocation_iff
        hn).oldestFirst
    · exact hs.changes file

/-- A jump of the stream takes the place of the newest one of the session. -/
theorem restore_oldestFirst_newest :
    let a : Path := .ofAscii "a"
    let b : Path := .ofAscii "b"
    let session : Session := { jumps := [⟨1, { file := a }⟩, ⟨2, { file := b }⟩] }
    let stream : Stream := ⟨[8, 5, 5, 0x81, 0xA1, 0x66, 0xA1, 0x62], false⟩
    (session.OldestFirst ∧ NoneOvertakes Mark.place (session.jumps.reverse ++ stream.jumps)) ∧
      Recency.OldestFirst (session.restore {} { info := true, marks := true } stream).1.jumps := by
  intro a b session stream
  have hjumps : Recency.OldestFirst session.jumps := by simp [session, Recency.OldestFirst]
  have hs : session.OldestFirst := ⟨fun type => by cases type <;> exact .nil, hjumps, fun _ => .nil⟩
  have hframe : stream.cursor.frame =
      .ok (⟨8, 5, [0x81, 0xA1, 0x66, 0xA1, 0x62], 0⟩, ⟨[], 8, false⟩) := rfl
  have hstream : stream.jumps = [⟨5, { file := b }⟩] := by
    rw [Stream.jumps, Stream.entries_of_frame hframe rfl]
    rfl
  have hnone : NoneOvertakes Mark.place (session.jumps.reverse ++ stream.jumps) := by
    rw [hstream]
    refine (Recency.noneOvertakes_of_newestFirst _ (List.pairwise_reverse.mpr hjumps)).concat ?_
    simp [Recency.Overtakes, session]
  exact ⟨⟨hs, hnone⟩, (restore_oldestFirst {} { info := true, marks := true } stream hs).2.1 hnone⟩

/-- A jump of the stream takes the place of the oldest one of the session, in
front of the other one. -/
theorem restore_overtakes :
    let a : Path := .ofAscii "a"
    let b : Path := .ofAscii "b"
    let session : Session := { jumps := [⟨1, { file := a }⟩, ⟨2, { file := b }⟩] }
    let stream : Stream := ⟨[8, 5, 5, 0x81, 0xA1, 0x66, 0xA1, 0x61], false⟩
    let restored := (session.restore {} { info := true, marks := true } stream).1
    session.OldestFirst ∧ restored.jumps = [⟨5, { file := a }⟩, ⟨2, { file := b }⟩] ∧
      ¬restored.OldestFirst := by
  intro a b session stream restored
  have hjumps : Recency.OldestFirst session.jumps := by simp [session, Recency.OldestFirst]
  have hs : session.OldestFirst := ⟨fun type => by cases type <;> exact .nil, hjumps, fun _ => .nil⟩
  have hframe : stream.cursor.frame =
      .ok (⟨8, 5, [0x81, 0xA1, 0x66, 0xA1, 0x61], 0⟩, ⟨[], 8, false⟩) := rfl
  have hstream : stream.jumps = [⟨5, { file := a }⟩] := by
    rw [Stream.jumps, Stream.entries_of_frame hframe rfl]
    rfl
  have hrestored : restored.jumps = [⟨5, { file := a }⟩, ⟨2, { file := b }⟩] := by
    show (session.restore {} { info := true, marks := true } stream).1.jumps = _
    rw [jumps_restore, hstream, if_pos (by decide)]
    rfl
  refine ⟨hs, hrestored, fun h => ?_⟩
  have hlast := h.jumps
  rw [hrestored] at hlast
  simp [Recency.OldestFirst] at hlast

end Session

end SessionStore
