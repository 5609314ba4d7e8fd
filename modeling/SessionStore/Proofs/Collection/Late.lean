import SessionStore.Proofs.Collection.HistoryRing
import SessionStore.Proofs.Collection.InOrder

/-! Items that come too late: they are not stored, and what is held stays as it is. -/
namespace SessionStore

open Recency

section Facts

variable {κ : Type} {capacity : Nat} {seen : κ → Timestamp → Prop}
  {held held' : List (κ × Timestamp)} {k : κ} {t : Timestamp}

/-- What is held of the identity is at least as new, or the list is full of
others that are newer. -/
structure Late (capacity : Nat) (held : List (κ × Timestamp)) (k : κ) (t : Timestamp) : Prop where
  outdated : ∀ fact ∈ held, fact.1 = k → t ≤ fact.2
  outrun : k ∉ held.map Prod.fst → held.length = capacity ∧ ∀ fact ∈ held, t < fact.2

theorem Late.perm (h : Late capacity held k t) (hp : held'.Perm held) :
    Late capacity held' k t where
  outdated := fun fact hf => h.outdated fact (hp.mem_iff.mp hf)
  outrun := fun hk => by
    obtain ⟨hfull, hall⟩ := h.outrun fun hm => hk ((hp.map Prod.fst).mem_iff.mpr hm)
    exact ⟨hp.length_eq ▸ hfull, fun fact hf => hall fact (hp.mem_iff.mp hf)⟩

/-- What was seen before comes too late, unless another identity was seen at the same time. -/
theorem NewestKept.late (h : NewestKept capacity seen held) (hs : seen k t)
    (ht : ∀ j, seen j t → j = k) : Late capacity held k t where
  outdated := fun fact hf hk => h.greatest fact hf t (hk ▸ hs)
  outrun := fun hk => by
    obtain ⟨hfull, hall⟩ := h.absent k t hs hk
    refine ⟨hfull, fun fact hf => UInt64.lt_of_le_of_ne (hall fact hf) fun heq => hk ?_⟩
    exact ht fact.1 (heq ▸ h.isSeen fact hf) ▸ mem_keys hf

end Facts

section Items

variable {α κ : Type} {key : α → κ} {capacity : Nat} {item held : Timed α} {items : List (Timed α)}

/-- An item comes too late where its identity is held and no older. -/
theorem late_of_mem (hd : (items.map fun item => key item.value).Nodup) (hm : held ∈ items)
    (hk : key held.value = key item.value) (ht : item.timestamp ≤ held.timestamp) :
    Late capacity (facts key items) (key item.value) item.timestamp where
  outdated := fun fact hf hkey => by
    obtain ⟨other, ho, rfl⟩ := mem_facts.mp hf
    have hother : other = held := List.inj_on_of_nodup_map hd ho hm (hkey.trans hk.symm)
    exact hother ▸ ht
  outrun := fun hout => absurd (mem_keys_facts.mpr ⟨held, hm, hk⟩) hout

theorem Late.le_of_mem (h : Late capacity (facts key items) (key item.value) item.timestamp)
    (hm : held ∈ items) (hk : key held.value = key item.value) : item.timestamp ≤ held.timestamp :=
  h.outdated _ (mem_facts.mpr ⟨held, hm, rfl⟩) hk

/-- Where its identity is not held, the list is full of newer items. -/
theorem Late.of_absent (h : Late capacity (facts key items) (key item.value) item.timestamp)
    (hn : ∀ held ∈ items, key held.value ≠ key item.value) :
    items.length = capacity ∧ ∀ held ∈ items, item.timestamp < held.timestamp := by
  have hout : key item.value ∉ (facts key items).map Prod.fst := fun hm => by
    obtain ⟨held, hheld, hk⟩ := mem_keys_facts.mp hm
    exact hn held hheld hk
  obtain ⟨hfull, hall⟩ := h.outrun hout
  rw [facts, List.length_map] at hfull
  exact ⟨hfull, fun held hm => hall _ (mem_facts.mpr ⟨held, hm, rfl⟩)⟩

end Items

namespace Bounded

variable {α κ : Type} {same : α → α → Bool} {key : α → κ} {c : Bounded α same} {item : Timed α}

theorem insert_unstored (h : (c.insert item).2.isStored = false) : (c.insert item).1 = c := by
  unfold insert at h ⊢
  split
  · rfl
  next hc =>
  rw [if_neg hc] at h
  cases hf : c.find? item.value with
  | some held =>
    rw [hf] at h
    dsimp only at h ⊢
    split at h
    · next hle => rw [if_pos hle]
    · cases h
  | none =>
    rw [hf] at h
    dsimp only at h ⊢
    split at h
    · next hfull =>
      rw [if_pos hfull]
      dsimp only at h ⊢
      split at h
      · next hitem =>
        have hplaced : (place item c.items).eraseIdx (notNewer item.timestamp c.items).length =
            c.items := by
          rw [place, List.eraseIdx_append_of_length_le (Nat.le_refl _), Nat.sub_self]
          exact notNewer_append_fromNewer item.timestamp c.items
        rw [hitem, hplaced]
      · cases h
    · cases h

theorem not_isStored_of_late (hsame : ∀ a b, same a b = true ↔ key a = key b)
    (h : Late c.capacity (facts key c.items) (key item.value) item.timestamp) :
    (c.insert item).2.isStored = false := by
  unfold insert
  split
  · rfl
  cases hf : c.find? item.value with
  | some held =>
    have hkey : key held.value = key item.value := (hsame _ _).mp (List.find?_some hf :)
    dsimp only
    rw [if_pos (h.le_of_mem (List.mem_of_find?_eq_some hf) hkey)]
    rfl
  | none =>
    obtain ⟨hfull, hlt⟩ := h.of_absent ((find?_eq_none_iff hsame).mp hf)
    dsimp only
    rw [place_first hlt, List.length_cons, if_pos (by omega), notNewer_eq_nil hlt,
      oldestIndex_cons fun held hm => UInt64.le_of_lt (hlt held hm)]
    rfl

/-- Items that come too late change nothing. -/
theorem extend_late (hsame : ∀ a b, same a b = true ↔ key a = key b) {items : List (Timed α)}
    (h : ∀ item ∈ items, Late c.capacity (facts key c.items) (key item.value) item.timestamp) :
    c.extend items = c := by
  induction items with
  | nil => rfl
  | cons item rest ih =>
    obtain ⟨hitem, hrest⟩ := List.forall_mem_cons.mp h
    have hinsert : (c.insert item).1 = c := insert_unstored (not_isStored_of_late hsame hitem)
    rw [extend, List.foldl_cons, hinsert]
    exact ih hrest

end Bounded

namespace HistoryRing

variable {ring : HistoryRing} {item : Timed HistoryItem} {preferIncoming : Bool}

theorem insert_unstored (hroom : ring.items.length ≤ ring.capacity)
    (h : (ring.insert item preferIncoming).2 = false) :
    (ring.insert item preferIncoming).1 = ring := by
  unfold insert at h ⊢
  split
  · rfl
  next hc =>
  rw [if_neg hc] at h
  split
  · rfl
  next hreplaces =>
  rw [if_neg hreplaces] at h
  dsimp only at h ⊢
  split at h
  · next hfull =>
    -- The line would be the first one, and so all of the others are still there.
    have hnone : notNewer item.timestamp (ring.items.filter (·.value.text ≠ item.value.text)) =
        [] := by simpa using h
    have hsplit := notNewer_append_fromNewer item.timestamp
      (ring.items.filter (·.value.text ≠ item.value.text))
    rw [hnone, List.nil_append] at hsplit
    rw [length_place] at hfull
    have hothers : ring.items.filter (·.value.text ≠ item.value.text) = ring.items :=
      (List.filter_sublist).eq_of_length_le (by omega)
    rw [length_place, if_pos hfull, place, hnone, hsplit, hothers]
    rfl
  · cases h

theorem not_stored_of_late
    (h : Late ring.capacity (facts HistoryItem.text ring.items) item.value.text item.timestamp) :
    (ring.insert item false).2 = false := by
  cases hg : ring.get? item.value.text with
  | some held =>
    obtain ⟨hm, htext⟩ := of_get?_eq_some hg
    have hle := h.le_of_mem hm htext
    rw [insert_of_kept hg (by simp [replaces, hle])]
  | none =>
    obtain ⟨hfull, hlt⟩ := h.of_absent (get?_eq_none_iff.mp hg)
    rw [insert_older (Nat.le_of_eq hfull.symm) hlt]

/-- Lines that come too late change nothing. -/
theorem foldl_insert_late (hroom : ring.items.length ≤ ring.capacity)
    {lines : List (Timed HistoryItem)}
    (h : ∀ line ∈ lines, Late ring.capacity (facts HistoryItem.text ring.items) line.value.text
      line.timestamp) :
    lines.foldl (fun ring line => (ring.insert line false).1) ring = ring := by
  induction lines with
  | nil => rfl
  | cons line rest ih =>
    obtain ⟨hline, hrest⟩ := List.forall_mem_cons.mp h
    rw [List.foldl_cons, insert_unstored hroom (not_stored_of_late hline)]
    exact ih hrest

end HistoryRing

end SessionStore
