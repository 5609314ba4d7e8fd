import SessionStore.Proofs.Collection.NewestOf
import SessionStore.Proofs.RestoredLists

/-! The lists of a session after a restore hold the newest of what the session
and the stream had. -/
namespace SessionStore

open Recency

namespace Session

variable {options : RestoreOptions} {session : Session}

/-- After a restore, with force or without, each history, the jumps and the changes of each
file hold the newest of what the session and the stream had, as far as there is room. The
stream counts up to its end or its damage. A list for which it has nothing stays as it was. -/
theorem restore_keeps_newest (settings : Settings) (hi : options.info = true)
    (hm : options.marks = true) (hh : ∀ type, Recency.OldestFirst (session.history.get type))
    (hj : Recency.OldestFirst session.jumps) (stream : Stream) :
    let restored := (session.restore settings options stream).1
    (∀ type, 0 < settings.history.get type →
      if stream.history type = [] then restored.history.get type = session.history.get type
      else NewestOf HistoryItem.text (settings.history.get type) (session.history.get type ++
        stream.history type) (restored.history.get type)) ∧
    (0 < settings.jumps →
      if stream.jumps = [] then restored.jumps = session.jumps
      else NewestOf Mark.place settings.jumps (session.jumps ++ stream.jumps) restored.jumps) ∧
    ∀ file, 0 < settings.markedFiles → 0 < settings.changes →
      if stream.changesOf file = [] then restored.changesOf file = session.changesOf file
      else NewestOf Mark.place settings.changes (session.changesOf file ++ stream.changesOf file)
        (restored.changesOf file) := by
  intro restored
  refine ⟨fun type hroom => ?_, fun hroom => ?_, fun file hf _ => ?_⟩
  · have hon : (options.info && settings.history.get type ≠ 0) = true := by
      simp [hi, Nat.ne_of_gt hroom]
    rw [history_restore, hon]
    by_cases hlines : stream.history type = []
    · rw [if_pos hlines, if_neg fun h => h.2 hlines]
    · rw [if_neg hlines, if_pos ⟨rfl, hlines⟩]
      exact HistoryRing.newestOf_foldl_insert (hh type) false options.force (stream.history type)
  · have hon : (options.marks && settings.jumps ≠ 0) = true := by simp [hm, Nat.ne_of_gt hroom]
    rw [jumps_restore, hon]
    by_cases hjumps : stream.jumps = []
    · rw [if_pos hjumps, if_neg fun h => h.2 hjumps]
    · rw [if_neg hjumps, if_pos ⟨rfl, hjumps⟩]
      exact Bounded.newestOf_extend_fill Mark.sameLocation_iff hj stream.jumps
  · have hon : (options.marks && decide (0 < settings.markedFiles)) = true := by simp [hm, hf]
    rw [changesOf_restore, hon]
    by_cases hchanges : stream.changesOf file = []
    · rw [if_pos hchanges, if_neg fun h => h.2 hchanges]
    · rw [if_neg hchanges, if_pos ⟨rfl, hchanges⟩, ← Bounded.extend_append]
      exact Bounded.newestOf_extend Mark.sameLocation_iff _

/-- There is room for two jumps. The session has two, and the stream has a newer
one to the older place, an old one to the other place, and one to a place that
is new but was seen before all others. -/
theorem restore_keeps_newest_jumps :
    let a : Path := .ofAscii "a"
    let b : Path := .ofAscii "b"
    let settings : Settings := { jumps := 2 }
    let session : Session := { jumps := [⟨2, { file := a }⟩, ⟨3, { file := b }⟩] }
    let stream : Stream :=
      ⟨[8, 5, 5, 0x81, 0xA1, 0x66, 0xA1, 0x61, 8, 1, 5, 0x81, 0xA1, 0x66, 0xA1, 0x62,
      8, 1, 5, 0x81, 0xA1, 0x66, 0xA1, 0x63], false⟩
    let restored :=
      (session.restore settings { info := true, marks := true, force := true } stream).1
    ((∀ type, Recency.OldestFirst (session.history.get type)) ∧ Recency.OldestFirst session.jumps ∧
        0 < settings.jumps ∧ stream.jumps.length = 3) ∧
      NewestOf Mark.place 2 (session.jumps ++ stream.jumps) restored.jumps ∧
      restored.jumps = [⟨5, { file := a }⟩, ⟨3, { file := b }⟩] := by
  intro a b settings session stream restored
  have hhistory : ∀ type, Recency.OldestFirst (session.history.get type) :=
    fun type => by cases type <;> exact .nil
  have hjumps : Recency.OldestFirst session.jumps := by simp [session, Recency.OldestFirst]
  have hthree : stream.jumps.length = 3 := by decide +kernel
  have hsome : stream.jumps ≠ [] := List.ne_nil_of_length_eq_add_one hthree
  have hroom : 0 < settings.jumps := by decide
  have hinfo : ({ info := true, marks := true, force := true } : RestoreOptions).info = true := rfl
  have hnewest := (restore_keeps_newest settings hinfo rfl hhistory hjumps stream).2.1 hroom
  rw [if_neg hsome] at hnewest
  refine ⟨⟨hhistory, hjumps, hroom, hthree⟩, hnewest, ?_⟩
  show (Session.restore settings { info := true, marks := true, force := true } session
    stream).1.jumps = _
  decide +kernel

end Session

end SessionStore
