import Mathlib.Data.List.Induction
import SessionStore.Proofs.Collection.Dictionary

/-! Items that are gathered under keys, in first-seen order. -/
namespace SessionStore

section Keys

variable {κ : Type} [BEq κ] [EquivBEq κ]

/-- A key behind the others is left out if it was there before, in whichever spelling. -/
theorem eraseDups_concat (keys : List κ) (key : κ) :
    (keys ++ [key]).eraseDups =
      if keys.any (· == key) then keys.eraseDups else keys.eraseDups ++ [key] := by
  -- The recursion goes down to the keys that differ from the first one.
  induction hn : keys.length using Nat.strongRecOn generalizing keys with
  | ind n ih =>
    cases keys with
    | nil => rfl
    | cons first rest =>
      have hlt : (rest.filter fun other => !other == first).length < n := by
        rw [← hn, List.length_cons]
        exact Nat.lt_succ_of_le List.filter_sublist.length_le
      rw [List.cons_append, List.eraseDups_cons, List.eraseDups_cons, List.filter_append,
        List.any_cons]
      by_cases hkey : (first == key) = true
      · have hlast : [key].filter (fun other => !other == first) = [] := by simp [BEq.symm hkey]
        rw [hlast, List.append_nil, hkey, Bool.true_or, if_pos rfl]
      · have hkey' : (key == first) = false := Bool.eq_false_iff.mpr fun he => hkey (BEq.symm he)
        have hlast : [key].filter (fun other => !other == first) = [key] := by simp [hkey']
        have hany : (rest.filter fun other => !other == first).any (· == key) =
            rest.any (· == key) := by
          rw [List.any_filter, Bool.eq_iff_iff, List.any_eq_true, List.any_eq_true]
          refine exists_congr fun other => and_congr_right fun _ => ?_
          rw [Bool.and_eq_true_iff, and_iff_right_iff_imp]
          intro he
          rw [BEq.congr_left he, hkey']
          rfl
        rw [hlast, ih _ hlt _ rfl, hany, Bool.eq_false_iff.mpr hkey, Bool.false_or]
        split <;> rfl

theorem any_eraseDups (keys : List κ) (key : κ) :
    keys.eraseDups.any (· == key) = keys.any (· == key) := by
  induction keys using List.reverseRecOn with
  | nil => rfl
  | append_singleton front last ih =>
    rw [eraseDups_concat, List.any_append, List.any_cons, List.any_nil, Bool.or_false]
    split
    · next hlast =>
      rw [ih]
      by_cases hkey : (last == key) = true
      · have hany : front.any (· == key) = true := by
          obtain ⟨other, ho, he⟩ := List.any_eq_true.mp hlast
          exact List.any_eq_true.mpr ⟨other, ho, BEq.trans he hkey⟩
        rw [hany, Bool.true_or]
      · rw [Bool.eq_false_iff.mpr hkey, Bool.or_false]
    · rw [List.any_append, ih, List.any_cons, List.any_nil, Bool.or_false]

end Keys

namespace Dictionary

variable {κ υ : Type} [BEq κ] [EquivBEq κ]

/-- A key that is there keeps its place and its spelling. -/
theorem entries_alter_held {d : Dictionary κ υ} {key : κ} (h : d.entries.any (·.1 == key) = true)
    (f : Option υ → υ) :
    (d.alter key f).entries = d.entries.map fun e =>
      (e.1, if e.1 == key then f (some e.2) else e.2) := by
  obtain ⟨entries, distinct⟩ := d
  simp only [alter] at h ⊢
  induction entries with
  | nil => cases h
  | cons e rest ih =>
    obtain ⟨hfirst, hrest⟩ := List.pairwise_cons.mp distinct
    unfold alterEntries
    by_cases hkey : (e.1 == key) = true
    · have hothers : rest.map (fun e => (e.1, if e.1 == key then f (some e.2) else e.2)) =
          rest := by
        refine (List.map_congr_left fun other ho => ?_).trans (List.map_id _)
        have hne : (other.1 == key) = false := by
          rw [← BEq.congr_right hkey, BEq.comm]
          exact hfirst other ho
        rw [hne]
        rfl
      rw [if_pos hkey, List.map_cons, hothers, if_pos hkey]
    · rw [List.any_cons, Bool.eq_false_iff.mpr hkey, Bool.false_or] at h
      rw [if_neg hkey, List.map_cons, if_neg hkey, ih hrest h]

/-- Items that change the values of their keys, one after the other: the keys stand
in first-seen order, and what is under a key is made of the items of this key. -/
theorem entries_foldl_group {α : Type} (key : α → κ) (put : υ → α → υ) (start : υ)
    (items : List α) :
    (items.foldl (fun (d : Dictionary κ υ) item => d.alter (key item) fun held =>
      put (held.getD start) item) empty).entries =
      (items.map key).eraseDups.map fun k => (k, (items.filter (key · == k)).foldl put start) := by
  induction items using List.reverseRecOn with
  | nil => rfl
  | append_singleton front last ih =>
    rw [List.foldl_append, List.foldl_cons, List.foldl_nil, List.map_append, List.map_singleton,
      eraseDups_concat]
    generalize front.foldl _ (empty : Dictionary κ υ) = d at ih ⊢
    have hany : d.entries.any (·.1 == key last) = (front.map key).any (· == key last) := by
      rw [ih, List.any_map]
      exact any_eraseDups (front.map key) (key last)
    by_cases hheld : (front.map key).any (· == key last) = true
    · rw [if_pos hheld, entries_alter_held (hany.trans hheld), ih, List.map_map]
      refine List.map_congr_left fun k _ => ?_
      rw [Function.comp_apply, List.filter_append, List.foldl_append]
      by_cases hk : (k == key last) = true
      · simp [hk, BEq.symm hk]
      · have hk' : (key last == k) = false := Bool.eq_false_iff.mpr fun he => hk (BEq.symm he)
        simp [hk, hk']
    · have hfront : ∀ item ∈ front, (key item == key last) = false := by
        intro item hi
        refine Bool.eq_false_iff.mpr fun he => hheld (List.any_eq_true.mpr ?_)
        exact ⟨key item, List.mem_map_of_mem hi, he⟩
      have hnew : ∀ e ∈ d.entries, (e.1 == key last) = false := by
        intro e he
        refine Bool.eq_false_iff.mpr fun hk => hheld ?_
        rw [← hany]
        exact List.any_eq_true.mpr ⟨e, he, hk⟩
      rw [if_neg hheld, entries_alter_new hnew, List.map_append, List.map_singleton]
      have hlast : (front ++ [last]).filter (key · == key last) = [last] := by
        rw [List.filter_append, List.filter_eq_nil_iff.mpr fun item hi =>
          Bool.eq_false_iff.mp (hfront item hi)]
        simp
      rw [hlast, ih]
      refine congrArg (· ++ _) (List.map_congr_left fun k hk => ?_)
      have hne : (key last == k) = false := by
        rw [BEq.comm]
        have hmem : (k, (front.filter (key · == k)).foldl put start) ∈ d.entries := by
          rw [ih]
          exact List.mem_map_of_mem hk
        exact hnew _ hmem
      simp [hne]

end Dictionary

end SessionStore
