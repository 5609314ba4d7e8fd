import SessionStore.Proofs.Collection.HistoryRing

/-! Which insertions keep items oldest first. -/
namespace SessionStore

namespace Recency

variable {α κ : Type}

/-- An item renews an older one of its identity although another one was seen
that is as old as the older one or newer, and still older than the item. -/
def Overtakes (key : α → κ) (seen : List (Timed α)) (item : Timed α) : Prop :=
  ∃ held ∈ seen, ∃ other ∈ seen, key held.value = key item.value ∧
    key other.value ≠ key item.value ∧
    held.timestamp ≤ other.timestamp ∧ other.timestamp < item.timestamp

def NoneOvertakes (key : α → κ) (items : List (Timed α)) : Prop :=
  ∀ front item, front ++ [item] <+: items → ¬Overtakes key front item

theorem NoneOvertakes.concat {key : α → κ} {items : List (Timed α)} {item : Timed α}
    (h : NoneOvertakes key items) (hi : ¬Overtakes key items item) :
    NoneOvertakes key (items ++ [item]) := by
  intro front next hp
  rcases List.prefix_concat_iff.mp hp with heq | hp
  · obtain ⟨rfl, hlast⟩ := List.append_inj' heq rfl
    cases hlast
    exact hi
  · exact h front next hp

theorem noneOvertakes_of_newestFirst (key : α → κ) {items : List (Timed α)}
    (h : items.Pairwise fun a b => b.timestamp ≤ a.timestamp) : NoneOvertakes key items := by
  rintro front item hp ⟨-, -, other, ho, -, -, -, hlt⟩
  have hfront := (List.pairwise_append.mp (h.sublist hp.sublist)).2.2
  have hle : item.timestamp ≤ other.timestamp := hfront other ho item (List.mem_singleton_self item)
  exact UInt64.not_lt.mpr hle hlt

end Recency

open Recency

namespace Bounded

variable {α κ : Type} {same : α → α → Bool} {key : α → κ} {c : Bounded α same}
  {seen items : List (Timed α)}

theorem extend_append (c : Bounded α same) (items more : List (Timed α)) :
    c.extend (items ++ more) = (c.extend items).extend more :=
  List.foldl_append

/-- A collection that is oldest first, and holds the newest of what was seen. -/
structure Orderly (key : α → κ) (seen : List (Timed α)) (c : Bounded α same) : Prop where
  oldestFirst : OldestFirst c.items
  newest : NewestKept c.capacity (fun k t => (k, t) ∈ facts key seen) (facts key c.items)

theorem orderly_empty (key : α → κ) (capacity : Nat) :
    Orderly key [] (⟨capacity, []⟩ : Bounded α same) :=
  ⟨.nil, (NewestKept.nil capacity).congr (by simp [facts])⟩

variable (hsame : ∀ a b, same a b = true ↔ key a = key b)
include hsame

/-- The items behind one that is renewed are as new as the new one, unless this overtakes them. -/
theorem Orderly.le_of_behind (h : c.Orderly key seen) {item held later : Timed α}
    {front back : List (Timed α)} (hc : c.items = front ++ held :: back)
    (hs : same held.value item.value = true) (hn : ¬Overtakes key seen item) (hl : later ∈ back) :
    item.timestamp ≤ later.timestamp := by
  have hkey : key held.value = key item.value := (hsame _ _).mp hs
  have horder : held.timestamp ≤ later.timestamp := by
    have horder := h.oldestFirst
    rw [hc] at horder
    exact (List.pairwise_cons.mp (List.pairwise_append.mp horder).2.1).1 later hl
  have hother : key later.value ≠ key item.value := by
    have hdistinct := nodup_of_newestKept h.newest
    rw [hc] at hdistinct
    have hne := (List.pairwise_cons.mp
      (List.pairwise_append.mp (List.pairwise_map.mp hdistinct)).2.1).1 later hl
    exact fun heq => hne (hkey.trans heq.symm)
  have hseen (held : Timed α) (hm : held ∈ c.items) :
      ∃ first ∈ seen, key first.value = key held.value ∧ first.timestamp = held.timestamp := by
    obtain ⟨first, hfirst, heq⟩ := mem_facts.mp (h.newest.isSeen _ (mem_facts.mpr ⟨held, hm, rfl⟩))
    exact ⟨first, hfirst, Prod.mk.inj heq⟩
  obtain ⟨first, hfirst, hk, ht⟩ := hseen held (by simp [hc])
  obtain ⟨second, hsecond, hk', ht'⟩ := hseen later (by simp [hc, hl])
  by_contra hlt
  refine hn ⟨first, hfirst, second, hsecond, hk.trans hkey, hk' ▸ hother, ?_, ?_⟩
  · rw [ht, ht']
    exact horder
  · rw [ht']
    exact UInt64.not_le.mp hlt

/-- Only an item that overtakes others can break the order. -/
theorem Orderly.insert (h : c.Orderly key seen) {item : Timed α} (hn : ¬Overtakes key seen item) :
    (c.insert item).1.Orderly key (seen ++ [item]) := by
  refine ⟨?_, ?_⟩
  · have hplace : OldestFirst (place item c.items) := oldestFirst_place h.oldestFirst
    have hstep := c.insert_step item
    generalize (c.insert item).1.items = items at hstep ⊢
    cases hstep with
    | noRoom | discarded => exact h.oldestFirst
    | placed => exact hplace
    | @evicted front back oldest _ _ _ hp =>
      rw [hp] at hplace
      exact hplace.sublist ((List.Sublist.refl front).append (List.sublist_cons_self oldest back))
    | @replaced front back held hc hs _ ht =>
      have horder := h.oldestFirst
      rw [hc] at horder
      obtain ⟨hfront, hback, hcross⟩ := List.pairwise_append.mp horder
      have hbehind : ∀ later ∈ back, item.timestamp ≤ later.timestamp := fun later hl =>
        h.le_of_behind hsame hc hs hn hl
      refine List.pairwise_append.mpr
        ⟨hfront, List.pairwise_cons.mpr ⟨hbehind, (List.pairwise_cons.mp hback).2⟩,
          fun earlier he later hl => ?_⟩
      rcases List.mem_cons.mp hl with rfl | hl
      · exact UInt64.le_trans (hcross earlier he held List.mem_cons_self) (UInt64.le_of_lt ht)
      · exact hcross earlier he later (List.mem_cons_of_mem _ hl)
  · rw [capacity_insert]
    refine (newestKept_insert hsame h.newest item).congr fun k t => ?_
    simp [facts, eq_comm]

theorem Orderly.extend (h : c.Orderly key seen) (hn : NoneOvertakes key (seen ++ items)) :
    (c.extend items).Orderly key (seen ++ items) := by
  induction items generalizing c seen with
  | nil =>
    rw [List.append_nil]
    exact h
  | cons item rest ih =>
    rw [List.append_cons seen item rest] at hn ⊢
    exact ih (h.insert hsame (hn seen item (List.prefix_append _ _))) hn

/-- Items that come newest first overtake nothing. -/
theorem Orderly.fill (h : c.Orderly key seen)
    (hi : (seen ++ items).Pairwise fun a b => b.timestamp ≤ a.timestamp) :
    (c.fill (fun _ => true) items).Orderly key (seen ++ items) := by
  rw [fill_eq_extend (List.pairwise_append.mp hi).2.1, List.filter_true]
  exact h.extend hsame (noneOvertakes_of_newestFirst key hi)

end Bounded

end SessionStore
