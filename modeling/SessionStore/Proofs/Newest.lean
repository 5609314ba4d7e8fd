import Mathlib.Data.List.Induction
import SessionStore.Proofs.Payload.Stability
import SessionStore.Proofs.Slots

/-! The newest of the entries of a file and of sessions that come after it. -/
namespace SessionStore

namespace Entry

/-- The newer of two entries, the second one on a tie. -/
def takeOver (held : Option Entry) (incoming : Entry) : Option Entry :=
  if held.all (·.timestamp ≤ incoming.timestamp) then some incoming else held

def firstNewest (entries : List Entry) : Option Entry := entries.foldl keepNewer none

/-- The newest of what a file gives and of what sessions offer, one after the other. -/
def newest? (given offered : List Entry) : Option Entry :=
  offered.foldl takeOver (firstNewest given)

theorem firstNewest_append (entries : List Entry) (entry : Entry) :
    firstNewest (entries ++ [entry]) = keepNewer (firstNewest entries) entry :=
  List.foldl_append

theorem newest?_append (given offered : List Entry) (entry : Entry) :
    newest? given (offered ++ [entry]) = takeOver (newest? given offered) entry :=
  List.foldl_append

/-- A session that is merged with a file gets in as if it came after the file. -/
theorem foldl_keepNewer_some (entries : List Entry) (entry : Entry) :
    entries.foldl keepNewer (some entry) = takeOver (firstNewest entries) entry := by
  induction entries using List.reverseRecOn with
  | nil => rfl
  | append_singleton front last ih =>
    rw [List.foldl_append, ih, firstNewest_append]
    cases hf : firstNewest front with
    | none =>
      by_cases h : entry.timestamp < last.timestamp
      · simp [takeOver, keepNewer, h]
      · simp [takeOver, keepNewer, h]
    | some held =>
      by_cases h : held.timestamp ≤ entry.timestamp
      · by_cases hl : held.timestamp < last.timestamp
        · by_cases he : entry.timestamp < last.timestamp
          · simp [takeOver, keepNewer, h, hl, he]
          · simp [takeOver, keepNewer, h, hl, he]
        · have he : ¬entry.timestamp < last.timestamp := by
            rw [UInt64.not_lt] at hl ⊢
            exact UInt64.le_trans hl h
          simp [takeOver, keepNewer, h, hl, he]
      · have hlt : entry.timestamp < held.timestamp := UInt64.not_le.mp h
        by_cases hl : held.timestamp < last.timestamp
        · have he : entry.timestamp < last.timestamp := UInt64.lt_trans hlt hl
          simp [takeOver, keepNewer, h, hl, he]
        · simp [takeOver, keepNewer, h, hl]

theorem stored_stored (entry : Entry) : entry.stored.stored = entry.stored := by
  rw [stored, stored, Content.stored_stored]

theorem map_stored_map_stored (held : Option Entry) :
    (held.map stored).map stored = held.map stored := by
  cases held with
  | none => rfl
  | some entry => exact congrArg some entry.stored_stored

/-- Only the times count, which are stored as they are. -/
theorem map_stored_takeOver {held held' : Option Entry} (h : held.map stored = held'.map stored)
    (entry : Entry) : (takeOver held entry).map stored = (takeOver held' entry).map stored := by
  have htime : held.all (·.timestamp ≤ entry.timestamp) =
      held'.all (·.timestamp ≤ entry.timestamp) := by
    have hall := congrArg (Option.all (·.timestamp ≤ entry.timestamp)) h
    rwa [Option.all_map, Option.all_map] at hall
  unfold takeOver
  rw [htime]
  split
  · rfl
  · exact h

/-- An entry is the newest if it is the last of the sessions' with the greatest
time of all, or, where no session reaches this time, the first of the file's. -/
inductive IsNewest (given offered : List Entry) (entry : Entry) : Prop
  | offered {before after : List Entry} (ho : offered = before ++ entry :: after)
    (hg : ∀ other ∈ given, other.timestamp ≤ entry.timestamp)
    (hb : ∀ other ∈ before, other.timestamp ≤ entry.timestamp)
    (ha : ∀ other ∈ after, other.timestamp < entry.timestamp)
  | given {before after : List Entry} (hg : given = before ++ entry :: after)
    (hb : ∀ other ∈ before, other.timestamp < entry.timestamp)
    (ha : ∀ other ∈ after, other.timestamp ≤ entry.timestamp)
    (ho : ∀ other ∈ offered, other.timestamp < entry.timestamp)

theorem IsNewest.greatest {given offered : List Entry} {entry : Entry}
    (h : IsNewest given offered entry) :
    ∀ other, other ∈ given ∨ other ∈ offered → other.timestamp ≤ entry.timestamp := by
  intro other hm
  cases h with
  | offered ho hg hb ha =>
    rcases hm with hm | hm
    · exact hg other hm
    · rw [ho] at hm
      rcases List.mem_append.mp hm with hm | hm
      · exact hb other hm
      · rcases List.mem_cons.mp hm with rfl | hm
        · exact UInt64.le_refl _
        · exact UInt64.le_of_lt (ha other hm)
  | given hg hb ha ho =>
    rcases hm with hm | hm
    · rw [hg] at hm
      rcases List.mem_append.mp hm with hm | hm
      · exact UInt64.le_of_lt (hb other hm)
      · rcases List.mem_cons.mp hm with rfl | hm
        · exact UInt64.le_refl _
        · exact ha other hm
    · exact UInt64.le_of_lt (ho other hm)

/-- There is a newest entry as soon as there is any. -/
inductive Newest (given offered : List Entry) : Option Entry → Prop
  | none (hg : given = []) (ho : offered = []) : Newest given offered none
  | some {entry : Entry} (h : IsNewest given offered entry) : Newest given offered (some entry)

theorem newest_firstNewest (given : List Entry) : Newest given [] (firstNewest given) := by
  induction given using List.reverseRecOn with
  | nil => exact .none rfl rfl
  | append_singleton front last ih =>
    rw [firstNewest_append]
    generalize firstNewest front = held at ih ⊢
    cases ih with
    | none hg _ =>
      subst hg
      exact .some (.given (show [] ++ [last] = [] ++ last :: [] from rfl) (by simp)
        (by simp) (by simp))
    | @some entry h =>
      by_cases hlt : entry.timestamp < last.timestamp
      · have hkeep : keepNewer (Option.some entry) last = Option.some last := by
          simp [keepNewer, hlt]
        have hbefore : ∀ other ∈ front, other.timestamp < last.timestamp := fun other hm =>
          UInt64.lt_of_le_of_lt (h.greatest other (.inl hm)) hlt
        rw [hkeep]
        exact .some (.given rfl hbefore (by simp) (by simp))
      · have hkeep : keepNewer (Option.some entry) last = Option.some entry := by
          simp [keepNewer, hlt]
        rw [hkeep]
        cases h with
        | offered ho => simp at ho
        | given hg hb ha ho =>
          refine .some (.given (by rw [hg, List.append_assoc, List.cons_append]) hb ?_ ho)
          intro other hm
          rcases List.mem_append.mp hm with hm | hm
          · exact ha other hm
          · exact List.mem_singleton.mp hm ▸ UInt64.not_lt.mp hlt

theorem newest_newest? (given offered : List Entry) :
    Newest given offered (newest? given offered) := by
  induction offered using List.reverseRecOn with
  | nil => exact newest_firstNewest given
  | append_singleton front last ih =>
    rw [newest?_append]
    generalize newest? given front = held at ih ⊢
    cases ih with
    | none hg ho =>
      subst hg ho
      exact .some (.offered (show [] ++ [last] = [] ++ last :: [] from rfl) (by simp)
        (by simp) (by simp))
    | @some entry h =>
      by_cases hle : entry.timestamp ≤ last.timestamp
      · have htake : takeOver (Option.some entry) last = Option.some last := by simp [takeOver, hle]
        have hall : ∀ other, other ∈ given ∨ other ∈ front → other.timestamp ≤ last.timestamp :=
          fun other hm => UInt64.le_trans (h.greatest other hm) hle
        rw [htake]
        exact .some (.offered rfl (fun other hm => hall other (.inl hm)) (fun other hm =>
          hall other (.inr hm)) (by simp))
      · have htake : takeOver (Option.some entry) last = Option.some entry := by
          simp [takeOver, hle]
        have hlt : last.timestamp < entry.timestamp := UInt64.not_le.mp hle
        have hafter {after : List Entry} (ha : ∀ other ∈ after, other.timestamp < entry.timestamp) :
            ∀ other ∈ after ++ [last], other.timestamp < entry.timestamp := by
          intro other hm
          rcases List.mem_append.mp hm with hm | hm
          · exact ha other hm
          · exact List.mem_singleton.mp hm ▸ hlt
        rw [htake]
        cases h with
        | offered ho hg hb ha =>
          exact .some (.offered (by rw [ho, List.append_assoc, List.cons_append]) hg hb (hafter ha))
        | given hg hb ha ho => exact .some (.given hg hb ha (hafter ho))

end Entry

end SessionStore
