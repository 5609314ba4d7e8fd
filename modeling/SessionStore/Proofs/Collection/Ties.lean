import Mathlib.Data.List.Induction
import Mathlib.Data.List.Nodup
import SessionStore.Proofs.Collection.InOrder

/-! Items that are taken newest first end up in order, but those of the same
time the other way round. -/
namespace SessionStore

open Recency

namespace Recency

variable {α : Type} {item : Timed α} {items : List (Timed α)}

/-- Items in the order of their times, those of the same time the other way round. -/
def tiesReversed (items : List (Timed α)) : List (Timed α) := items.foldr place []

theorem tiesReversed_perm (items : List (Timed α)) : (tiesReversed items).Perm items := by
  induction items with
  | nil => exact .refl _
  | cons item rest ih => exact (place_perm item _).trans (ih.cons item)

theorem le_of_mem_cons {first held : Timed α} (h : OldestFirst (first :: items))
    (hm : held ∈ first :: items) : first.timestamp ≤ held.timestamp := by
  rcases List.mem_cons.mp hm with rfl | hm
  · exact UInt64.le_refl _
  · exact (List.pairwise_cons.mp h).1 held hm

/-- An item goes behind all that are not newer. -/
theorem place_append {front back : List (Timed α)}
    (h : ∀ held ∈ front, held.timestamp ≤ item.timestamp) :
    place item (front ++ back) = front ++ place item back := by
  induction front with
  | nil => rfl
  | cons first rest ih =>
    obtain ⟨hfirst, hrest⟩ := List.forall_mem_cons.mp h
    rw [List.cons_append, place_cons, if_pos hfirst, ih hrest]
    rfl

theorem tiesReversed_of_ascending (h : Ascending items) : tiesReversed items = items := by
  induction items with
  | nil => rfl
  | cons item rest ih =>
    obtain ⟨hitem, hrest⟩ := List.pairwise_cons.mp h
    show place item (tiesReversed rest) = item :: rest
    rw [ih hrest, place_first hitem]

/-- Different items stay as they are only if no two of them are of the same time. -/
theorem tiesReversed_eq_self_iff (h : OldestFirst items) (hd : items.Nodup) :
    tiesReversed items = items ↔ Ascending items := by
  refine ⟨fun heq => ?_, tiesReversed_of_ascending⟩
  induction items with
  | nil => exact .nil
  | cons item rest ih =>
    obtain ⟨hitem, hrest⟩ := List.pairwise_cons.mp h
    obtain ⟨hnew, hdistinct⟩ := List.nodup_cons.mp hd
    have hplace : place item (tiesReversed rest) = item :: rest := heq
    cases hrev : tiesReversed rest with
    | nil =>
      have hnil : rest = [] := (hrev ▸ tiesReversed_perm rest).nil_eq.symm
      rw [hnil]
      exact List.pairwise_singleton ..
    | cons first others =>
      have hmem : first ∈ rest := (tiesReversed_perm rest).mem_iff.mp (hrev ▸ List.mem_cons_self)
      rw [hrev, place_cons] at hplace
      split at hplace
      · exact absurd ((List.cons.inj hplace).1 ▸ hmem) hnew
      · next hlt =>
        have hsame : tiesReversed rest = rest := hrev.trans (List.cons.inj hplace).2
        refine List.pairwise_cons.mpr ⟨fun held hm => ?_, ih hrest hdistinct hsame⟩
        have hfirst : rest = first :: others := hsame.symm.trans hrev
        rw [hfirst] at hm hrest
        exact UInt64.lt_of_lt_of_le (UInt64.not_le.mp hlt) (le_of_mem_cons hrest hm)

end Recency

namespace Bounded

variable {α κ : Type} {same : α → α → Bool} {key : α → κ} {c : Bounded α same}

/-- New items find their places as long as there is room. -/
theorem fill_new (hsame : ∀ a b, same a b = true ↔ key a = key b) {isWanted : α → Bool}
    {items : List (Timed α)} (hw : ∀ item ∈ items, isWanted item.value = true)
    (hl : items.length + c.items.length ≤ c.capacity)
    (hd : ((items ++ c.items).map fun item => key item.value).Nodup) :
    c.fill isWanted items =
      { c with items := items.foldl (fun held item => place item held) c.items } := by
  induction items generalizing c with
  | nil => rfl
  | cons item rest ih =>
    obtain ⟨hwanted, hwrest⟩ := List.forall_mem_cons.mp hw
    rw [List.length_cons] at hl
    have hfull : c.isFull = false := by
      rw [isFull, size, decide_eq_false_iff_not]
      omega
    have hnew : ∀ held ∈ c.items, same held.value item.value = false := fun held hm =>
      same_eq_false hsame
        (Ne.symm ((List.pairwise_cons.mp (List.pairwise_map.mp hd)).1 held
          (List.mem_append_right _ hm)))
    have hplaced : ((rest ++ place item c.items).map fun item => key item.value).Nodup := by
      refine (List.Perm.map _ ?_).nodup_iff.mp hd
      exact List.perm_middle.symm.trans ((place_perm item c.items).symm.append_left rest)
    unfold fill
    rw [hfull, Bool.false_and, if_neg Bool.false_ne_true, if_pos hwanted,
      insert_new hnew (by omega), ih hwrest]
    · rfl
    · rw [length_place]
      dsimp only
      omega
    · exact hplaced

/-- Taken newest first, items are in the order of their times, those of the same
time the other way round. -/
theorem fill_reverse (hsame : ∀ a b, same a b = true ↔ key a = key b) {isWanted : α → Bool}
    {capacity : Nat} {items : List (Timed α)} (hw : ∀ item ∈ items, isWanted item.value = true)
    (hl : items.length ≤ capacity) (hd : (items.map fun item => key item.value).Nodup) :
    (⟨capacity, []⟩ : Bounded α same).fill isWanted items.reverse =
      ⟨capacity, tiesReversed items⟩ := by
  rw [fill_new hsame]
  · rw [List.foldl_reverse]
    rfl
  · exact fun item hm => hw item (List.mem_reverse.mp hm)
  · rw [List.length_reverse]
    exact hl
  · rw [List.append_nil, List.map_reverse, List.nodup_reverse]
    exact hd

end Bounded

namespace HistoryRing

variable {ring : HistoryRing} {preferIncoming : Bool}

/-- New lines find their places as long as there is room. -/
theorem fill_new {items : List (Timed HistoryItem)}
    (hl : items.length + ring.items.length ≤ ring.capacity)
    (hd : ((items ++ ring.items).map fun item => item.value.text).Nodup) :
    ring.fill preferIncoming items =
      { ring with items := items.foldl (fun held item => place item held) ring.items } := by
  induction items generalizing ring with
  | nil => rfl
  | cons item rest ih =>
    rw [List.length_cons] at hl
    have hfull : ring.isFull = false := by
      rw [isFull, size, decide_eq_false_iff_not]
      omega
    have hnew : ∀ held ∈ ring.items, held.value.text ≠ item.value.text := fun held hm =>
      Ne.symm ((List.pairwise_cons.mp (List.pairwise_map.mp hd)).1 held
        (List.mem_append_right _ hm))
    have hplaced : ((rest ++ place item ring.items).map fun item => item.value.text).Nodup := by
      refine (List.Perm.map _ ?_).nodup_iff.mp hd
      exact List.perm_middle.symm.trans ((place_perm item ring.items).symm.append_left rest)
    unfold fill
    rw [hfull, Bool.false_and, if_neg Bool.false_ne_true, insert_new hnew (by omega), ih]
    · rfl
    · rw [length_place]
      dsimp only
      omega
    · exact hplaced

theorem fill_reverse {capacity : Nat} {items : List (Timed HistoryItem)}
    (hl : items.length ≤ capacity) (hd : (items.map fun item => item.value.text).Nodup) :
    (⟨capacity, []⟩ : HistoryRing).fill preferIncoming items.reverse =
      ⟨capacity, tiesReversed items⟩ := by
  rw [fill_new]
  · rw [List.foldl_reverse]
    rfl
  · rw [List.length_reverse]
    exact hl
  · rw [List.append_nil, List.map_reverse, List.nodup_reverse]
    exact hd

/-- A line that is held and preferred is taken out and put in again. -/
theorem insert_again {capacity : Nat} {item : Timed HistoryItem}
    {front back : List (Timed HistoryItem)} (hl : (front ++ item :: back).length ≤ capacity)
    (hd : ((front ++ item :: back).map fun item => item.value.text).Nodup) :
    (HistoryRing.insert ⟨capacity, front ++ item :: back⟩ item true).1 =
      ⟨capacity, place item (front ++ back)⟩ := by
  have hne : ∀ held ∈ front ++ back, held.value.text ≠ item.value.text := by
    have hmiddle :=
      (List.perm_middle.map fun item : Timed HistoryItem => item.value.text).nodup_iff.mp hd
    exact fun held hm => Ne.symm ((List.pairwise_cons.mp (List.pairwise_map.mp hmiddle)).1 held hm)
  have hfront : ∀ held ∈ front, held.value.text ≠ item.value.text := fun held hm =>
    hne held (List.mem_append_left _ hm)
  have hback : ∀ held ∈ back, held.value.text ≠ item.value.text := fun held hm =>
    hne held (List.mem_append_right _ hm)
  have hget : get? ⟨capacity, front ++ item :: back⟩ item.value.text = some item :=
    List.find?_eq_some_iff_append.mpr
      ⟨decide_eq_true rfl, front, back, rfl, fun held hm => by simpa using hfront held hm⟩
  have hothers : (front ++ item :: back).filter (·.value.text ≠ item.value.text) =
      front ++ back := by
    have hkept {items : List (Timed HistoryItem)}
        (h : ∀ held ∈ items, held.value.text ≠ item.value.text) :
        items.filter (·.value.text ≠ item.value.text) = items :=
      List.filter_eq_self.mpr fun held hm => decide_eq_true (h held hm)
    rw [List.filter_append, List.filter_cons_of_neg (by simp), hkept hfront, hkept hback]
  rw [List.length_append, List.length_cons] at hl
  have hcapacity : capacity ≠ 0 := by omega
  have hroom : ¬capacity < (place item (front ++ back)).length := by
    rw [length_place, List.length_append]
    omega
  unfold insert
  dsimp only
  rw [if_neg hcapacity, hget, if_neg (by simp [replaces]), hothers, if_neg hroom]

/-- Lines that a ring holds and that are taken newest first are put in again one by one. -/
theorem fill_again {capacity : Nat} {items back : List (Timed HistoryItem)}
    (hl : (items ++ back).length ≤ capacity)
    (hd : ((items ++ back).map fun item => item.value.text).Nodup) (ho : OldestFirst items) :
    (⟨capacity, items ++ back⟩ : HistoryRing).fill true items.reverse =
      ⟨capacity, items.foldr place back⟩ := by
  induction items using List.reverseRecOn generalizing back with
  | nil => rfl
  | append_singleton front item ih =>
    have hassoc : front ++ [item] ++ back = front ++ item :: back :=
      (List.append_cons front item back).symm
    obtain ⟨horder, -, hlast⟩ := List.pairwise_append.mp ho
    have hle : ∀ held ∈ front, held.timestamp ≤ item.timestamp := fun held hm =>
      hlast held hm item (List.mem_singleton_self item)
    have hstop : (oldest? ⟨capacity, front ++ item :: back⟩).all (item.timestamp < ·) = false := by
      cases front with
      | nil => simp [oldest?]
      | cons first rest => simpa [oldest?] using hle first List.mem_cons_self
    rw [hassoc] at hl hd ⊢
    have hinsert := insert_again hl hd
    rw [place_append hle] at hinsert
    rw [List.reverse_append, List.reverse_singleton, List.singleton_append, List.foldr_append]
    unfold fill
    rw [hstop, Bool.and_false, if_neg Bool.false_ne_true, hinsert]
    have hperm : (front ++ place item back).Perm (front ++ item :: back) :=
      (place_perm item back).append_left front
    refine ih ?_ ?_ horder
    · exact hperm.length_eq ▸ hl
    · exact (hperm.map _).nodup_iff.mpr hd

/-- Lines that were put in and are taken newest first come as they would if there were none. -/
theorem fill_put {capacity : Nat} {items : List (Timed HistoryItem)} (hl : items.length ≤ capacity)
    (hd : (items.map fun item => item.value.text).Nodup) (ho : OldestFirst items) :
    (items.foldl (fun ring item => (ring.insert item false).1) (⟨capacity, []⟩ : HistoryRing)).fill
      true items.reverse = (⟨capacity, []⟩ : HistoryRing).fill true items.reverse := by
  have hput : items.foldl (fun ring item => (ring.insert item false).1)
      (⟨capacity, []⟩ : HistoryRing) = ⟨capacity, items⟩ :=
    foldl_insert_inOrder (by simpa using hl) hd ho
  have hagain : (⟨capacity, items ++ []⟩ : HistoryRing).fill true items.reverse =
      ⟨capacity, tiesReversed items⟩ :=
    fill_again (by simpa using hl) (by simpa using hd) ho
  rw [List.append_nil] at hagain
  rw [hput, hagain, fill_reverse hl hd]

end HistoryRing

end SessionStore
