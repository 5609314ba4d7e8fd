import Mathlib.Data.List.Induction
import SessionStore.Proofs.Collection.Named

/-! The first of the newest: what stays of timed items when only newer ones replace what is held. -/
namespace SessionStore.Recency

variable {α : Type} {items : List (Timed α)} {held : Option (Timed α)}

/-- The first of the items with the greatest time, if there is any item. -/
inductive FirstNewest : List (Timed α) → Option (Timed α) → Prop
  | none : FirstNewest [] none
  | some {before after : List (Timed α)} {item : Timed α}
    (hb : ∀ other ∈ before, other.timestamp < item.timestamp)
    (ha : ∀ other ∈ after, other.timestamp ≤ item.timestamp) :
    FirstNewest (before ++ item :: after) (some item)

theorem FirstNewest.mem {item : Timed α} (h : FirstNewest items (Option.some item)) :
    item ∈ items := by
  cases h with
  | some => exact List.mem_append_right _ List.mem_cons_self

theorem FirstNewest.exists_le {item : Timed α} (h : FirstNewest items held) (hi : item ∈ items) :
    ∃ newest, held = Option.some newest ∧ item.timestamp ≤ newest.timestamp := by
  cases h with
  | none => cases hi
  | @some before after newest hb ha =>
    refine ⟨newest, rfl, ?_⟩
    rcases List.mem_append.mp hi with hi | hi
    · exact UInt64.le_of_lt (hb item hi)
    rcases List.mem_cons.mp hi with rfl | hi
    · exact UInt64.le_refl _
    · exact ha item hi

theorem firstNewest_singleton (item : Timed α) : FirstNewest [item] (some item) := by
  have hitem : FirstNewest ([] ++ item :: []) (some item) := .some (by simp) (by simp)
  exact hitem

theorem firstNewest_toList (held : Option (Timed α)) : FirstNewest held.toList held := by
  cases held with
  | none => exact .none
  | some item => exact firstNewest_singleton item

/-- An item behind the others stays only if it is newer than all of them. -/
theorem FirstNewest.keepNewer (h : FirstNewest items held) (item : Timed α) :
    FirstNewest (items ++ [item]) (Timed.keepNewer held item) := by
  cases h with
  | none => exact firstNewest_singleton item
  | @some before after first hb ha =>
    by_cases hlt : first.timestamp < item.timestamp
    · rw [Timed.keepNewer_of_lt hlt]
      refine .some (fun other hm => ?_) (by simp)
      rcases List.mem_append.mp hm with hm | hm
      · exact UInt64.lt_trans (hb other hm) hlt
      · rcases List.mem_cons.mp hm with rfl | hm
        · exact hlt
        · exact UInt64.lt_of_le_of_lt (ha other hm) hlt
    · have hle : item.timestamp ≤ first.timestamp := UInt64.not_lt.mp hlt
      rw [Timed.keepNewer_of_le hle, List.append_assoc, List.cons_append]
      refine .some hb fun other hm => ?_
      rcases List.mem_append.mp hm with hm | hm
      · exact ha other hm
      · exact List.mem_singleton.mp hm ▸ hle

/-- Keeping the newer one of what is held and what comes leaves the first of the newest. -/
theorem firstNewest_foldl_keepNewer (live : Option (Timed α)) (items : List (Timed α)) :
    FirstNewest (live.toList ++ items) (items.foldl Timed.keepNewer live) := by
  induction items using List.reverseRecOn with
  | nil =>
    rw [List.append_nil]
    exact firstNewest_toList live
  | append_singleton front last ih =>
    rw [List.foldl_append, ← List.append_assoc]
    exact ih.keepNewer last

end SessionStore.Recency
