import SessionStore.Proofs.MergedAgain
import SessionStore.Proofs.RestoredLists

/-! The lists of a session are taken in newest first and only as far as items
can find room. To take them in whole would come to the same. -/
namespace SessionStore

namespace Restore

variable {settings : Settings} {r : Restore}

theorem ring_eq_foldl {type : HistoryType} (hs : Recency.OldestFirst (r.session.history.get type))
    (hr : r.rings.get type = none) :
    r.ring settings type = (r.session.history.get type).reverse.foldl (fun ring line =>
      (ring.insert line false).1) ⟨settings.history.get type, []⟩ := by
  rw [ring, hr]
  exact HistoryRing.fill_eq_foldl (HistoryRing.oldestFirst_empty _)
    (List.pairwise_reverse.mpr hs) false

theorem jumpList_eq_extend (hs : Recency.OldestFirst r.session.jumps) (hr : r.jumps = none) :
    r.jumpList settings = Bounded.extend ⟨settings.jumps, []⟩ r.session.jumps.reverse := by
  rw [jumpList, hr]
  show Bounded.fill _ _ _ = _
  rw [Bounded.fill_eq_extend (List.pairwise_reverse.mpr hs), List.filter_true]

end Restore

namespace Merge

variable {settings : Settings} {session : Session} {m : Merge}

theorem jumps_seedJumps (hs : Recency.OldestFirst session.jumps) :
    (m.seedJumps settings session).jumps =
      m.jumps.extend (session.jumps.reverse.filter fun jump =>
        !settings.isRemovable jump.value.file) :=
  Bounded.fill_eq_extend (List.pairwise_reverse.mpr hs) m.jumps

theorem get_history_seedHistory {type : HistoryType}
    (hm : Recency.OldestFirst (m.history.get type).items)
    (hs : Recency.OldestFirst (session.history.get type)) :
    (m.seedHistory session).history.get type =
      (session.history.get type).reverse.foldl (fun ring line => (ring.insert line true).1)
        (m.history.get type) := by
  rw [seedHistory, PerHistory.get_ofFn]
  exact HistoryRing.fill_eq_foldl hm (List.pairwise_reverse.mpr hs) true

/-- The lines that the histories of a merge hold when those of the session come are in order. -/
theorem oldestFirst_history_foldl_absorb (settings : Settings) (now : Timestamp) (session : Session)
    (entries : List Entry) (type : HistoryType) :
    Recency.OldestFirst
      ((entries.foldl (absorb settings) ((start settings).seed settings now session)).history.get
        type).items := by
  rw [get_history_foldl_absorb, history_seed, get_history_start]
  exact HistoryRing.oldestFirst_foldl_insert (HistoryRing.oldestFirst_empty _) false _

end Merge

namespace Session

variable {session : Session}

/-- To stop at the first item that is older than all of a full list loses nothing
of a session with its histories and jumps in order: neither when a restore first
needs them, whatever it has read by then, nor when a merge takes the jumps that it
does not leave out, whatever it holds, or the histories, whatever the file had. -/
theorem stopping_early_loses_nothing (settings : Settings)
    (hh : ∀ type, Recency.OldestFirst (session.history.get type))
    (hj : Recency.OldestFirst session.jumps) :
    (∀ options (results : List (Except Error Entry)),
        let r := results.foldl (Restore.take settings options) { session }
        (∀ type, r.rings.get type = none → r.ring settings type =
          (session.history.get type).reverse.foldl (fun ring line => (ring.insert line false).1)
            ⟨settings.history.get type, []⟩) ∧
        (r.jumps = none → r.jumpList settings = Bounded.extend ⟨settings.jumps, []⟩
          session.jumps.reverse)) ∧
      (∀ (m : Merge) now, (m.seed settings now session).jumps =
        m.jumps.extend (session.jumps.reverse.filter fun jump =>
          !settings.isRemovable jump.value.file)) ∧
      ∀ now (entries : List Entry) type,
        let m :=
          entries.foldl (Merge.absorb settings) ((Merge.start settings).seed settings now session)
        (m.seedHistory session).history.get type =
          (session.history.get type).reverse.foldl (fun ring line => (ring.insert line true).1)
            (m.history.get type) := by
  refine ⟨fun options results => ?_, fun m now => ?_, fun now entries type => ?_⟩
  · intro r
    have hlists : r.session.SameLists session :=
      Restore.sameLists_foldl_take settings options _ results
    rw [← hlists.jumps] at hj ⊢
    rw [← hlists.history] at hh ⊢
    exact ⟨fun type => Restore.ring_eq_foldl (hh type), Restore.jumpList_eq_extend hj⟩
  · rw [Merge.seed_eq]
    exact Merge.jumps_seedJumps hj
  · have hm := Merge.oldestFirst_history_foldl_absorb settings now session entries type
    exact Merge.get_history_seedHistory hm (hh type)

/-- There is room for one line and one jump. Of two jumps of one time the
earlier one stays, the one before them is not looked at and the one that is left
out takes no room. The line of the session is older than that of the file. -/
theorem stopping_early_one_line_one_jump :
    let jump (time : Timestamp) (file : String) : Timed Mark := ⟨time, { file := .ofAscii file }⟩
    let settings : Settings := { history := .uniform 1, jumps := 1, removable := [.ofAscii "/tmp"] }
    let session : Session :=
      { ({} : Session).pushHistory ⟨3, .new .command [0x78]⟩ with
        jumps := [jump 1 "/a", jump 3 "/b", jump 3 "/c", jump 9 "/tmp/x"] }
    let seeded := (Merge.start settings).seed settings 9 session
    let merged := seeded.absorb settings ⟨5, .history (.new .command [0x79])⟩
    ((∀ type, Recency.OldestFirst (session.history.get type)) ∧ Recency.OldestFirst session.jumps) ∧
      (seeded.jumps.items = [jump 3 "/b"] ∧
        seeded.jumps = Bounded.extend ⟨1, []⟩ [jump 3 "/c", jump 3 "/b", jump 1 "/a"]) ∧
      ((merged.seedHistory session).history.get .command).items = [⟨5, .new .command [0x79]⟩] ∧
      (merged.seedHistory session).history.get .command =
        ((merged.history.get .command).insert ⟨3, .new .command [0x78]⟩ true).1 := by
  intro jump settings session seeded merged
  have hh : ∀ type, Recency.OldestFirst (session.history.get type) := by
    intro type
    cases type with
    | command => exact List.pairwise_singleton _ _
    | _ => exact .nil
  have hj : Recency.OldestFirst session.jumps := by simp [session, jump, Recency.OldestFirst]
  obtain ⟨-, hjumps, hhistory⟩ := stopping_early_loses_nothing settings hh hj
  have hkept : session.jumps.reverse.filter (fun jump => !settings.isRemovable jump.value.file) =
      [jump 3 "/c", jump 3 "/b", jump 1 "/a"] := by
    rfl
  have hseeded : seeded.jumps = Bounded.extend ⟨1, []⟩ [jump 3 "/c", jump 3 "/b", jump 1 "/a"] := by
    rw [← hkept]
    exact hjumps (Merge.start settings) 9
  have hfile : merged.history.get .command = ⟨1, [⟨5, .new .command [0x79]⟩]⟩ := by
    show (([⟨5, .history (.new .command [0x79])⟩].foldl (Merge.absorb settings) seeded).history.get
      .command) = _
    rw [Merge.get_history_foldl_absorb, Merge.history_seed, Merge.get_history_start]
    rfl
  have hlines : (merged.seedHistory session).history.get .command =
      ((merged.history.get .command).insert ⟨3, .new .command [0x78]⟩ true).1 :=
    hhistory 9 [⟨5, .history (.new .command [0x79])⟩] .command
  refine ⟨⟨hh, hj⟩, ⟨?_, hseeded⟩, ?_, hlines⟩
  · rw [hseeded]
    rfl
  · rw [hlines, hfile]
    rfl

end Session

end SessionStore
