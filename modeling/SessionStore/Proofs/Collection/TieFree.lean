import SessionStore.Proofs.Collection.Late
import SessionStore.Proofs.Collection.OneEach
import SessionStore.Proofs.Collection.Ties

/-! Where different lines are of different times, a history is the same
whichever way it was put together. -/
namespace SessionStore

open Recency

namespace NewestKept

variable {κ : Type} {capacity : Nat} {seen : κ → Timestamp → Prop}
  {held held' : List (κ × Timestamp)}

end NewestKept

namespace Recency

variable {α κ : Type} {key : α → κ} {seen more : List (Timed α)} {item : Timed α}

/-- Items of the same time are of the same identity. -/
def TieFree (key : α → κ) (items : List (Timed α)) : Prop :=
  ∀ a ∈ items, ∀ b ∈ items, a.timestamp = b.timestamp → key a.value = key b.value

theorem TieFree.eq_of_facts (h : TieFree key seen) (j k : κ) (t : Timestamp)
    (hj : (j, t) ∈ facts key seen) (hk : (k, t) ∈ facts key seen) : j = k := by
  obtain ⟨a, ha, hja⟩ := mem_facts.mp hj
  obtain ⟨b, hb, hkb⟩ := mem_facts.mp hk
  obtain ⟨rfl, rfl⟩ := Prod.mk.inj hja
  obtain ⟨rfl, htime⟩ := Prod.mk.inj hkb
  exact h a ha b hb htime.symm

theorem TieFree.subset (h : TieFree key more) (hs : seen ⊆ more) : TieFree key seen :=
  fun a ha b hb => h a (hs ha) b (hs hb)

/-- Items of different identities in order are of different times. -/
theorem TieFree.ascending (ht : TieFree key seen) (ho : OldestFirst seen)
    (hd : (seen.map fun item => key item.value).Nodup) : Ascending seen :=
  (ho.and (List.pairwise_map.mp hd)).imp_of_mem fun ha hb h =>
    UInt64.lt_of_le_of_ne h.1 fun htime => h.2 (ht _ ha _ hb htime)

/-- What is among the items of which the newest are held comes too late. -/
theorem TieFree.late {held : List (Timed α)} {capacity : Nat} (ht : TieFree key seen)
    (h : NewestKept capacity (fun k t => (k, t) ∈ facts key seen) (facts key held))
    (hs : (key item.value, item.timestamp) ∈ facts key seen) :
    Late capacity (facts key held) (key item.value) item.timestamp :=
  h.late hs fun j hj => ht.eq_of_facts j _ _ hj hs

variable [DecidableEq κ]

/-- The first of the items that are of its identity and its time. -/
def IsFirst (key : α → κ) (items : List (Timed α)) (item : Timed α) : Prop :=
  items.find? (fun other => key other.value = key item.value ∧ other.timestamp = item.timestamp) =
    some item

theorem IsFirst.append (h : IsFirst key seen item) (more : List (Timed α)) :
    IsFirst key (seen ++ more) item := by
  rw [IsFirst, List.find?_append, h, Option.some_or]

theorem isFirst_cons (item : Timed α) (seen : List (Timed α)) :
    IsFirst key (item :: seen) item := by
  simp [IsFirst]

/-- Items of other identities and times may stand in front. -/
theorem IsFirst.behind (h : IsFirst key seen item)
    (hn : (key item.value, item.timestamp) ∉ facts key more) : IsFirst key (more ++ seen) item := by
  have hnone : more.find? (fun other => key other.value = key item.value ∧
      other.timestamp = item.timestamp) = none := by
    refine List.find?_eq_none.mpr fun other ho heq => hn (mem_facts.mpr ⟨other, ho, ?_⟩)
    obtain ⟨hkey, htime⟩ := of_decide_eq_true heq
    rw [hkey, htime]
  rw [IsFirst, List.find?_append, hnone, Option.none_or, h]

end Recency

namespace HistoryRing

variable {ring ring' : HistoryRing} {seen items : List (Timed HistoryItem)}
  {item : Timed HistoryItem}

/-- A ring with the newest of the lines that were seen, and of each text and
time the one that counts first. -/
structure Gathers (seen : List (Timed HistoryItem)) (ring : HistoryRing) : Prop where
  oldestFirst : OldestFirst ring.items
  newest : NewestKept ring.capacity (fun k t => (k, t) ∈ facts HistoryItem.text seen)
    (facts HistoryItem.text ring.items)
  first : ∀ line ∈ ring.items, IsFirst HistoryItem.text seen line

/-- A line of a text and a time that were seen changes nothing, not even where
the seen one had to make room. -/
theorem Gathers.insert_seen (h : ring.Gathers seen) (ht : TieFree HistoryItem.text seen)
    (hs : (item.value.text, item.timestamp) ∈ facts HistoryItem.text seen) :
    (ring.insert item false).1 = ring :=
  insert_unstored (length_le_of_newestKept h.newest) (not_stored_of_late (ht.late h.newest hs))

theorem Gathers.insert (h : ring.Gathers seen) (ht : TieFree HistoryItem.text (seen ++ [item])) :
    (ring.insert item false).1.Gathers (seen ++ [item]) := by
  refine ⟨oldestFirst_insert h.oldestFirst item false, ?_, fun line hm => ?_⟩
  · rw [capacity_insert]
    refine (newestKept_insert h.newest h.oldestFirst item false).congr fun k t => ?_
    simp [facts, eq_comm]
  · by_cases hs : (item.value.text, item.timestamp) ∈ facts HistoryItem.text seen
    · rw [h.insert_seen (ht.subset (List.subset_append_left ..)) hs] at hm
      exact (h.first line hm).append [item]
    · rcases mem_of_mem_insert hm with rfl | hm
      · exact (isFirst_cons line []).behind hs
      · exact (h.first line hm).append [item]

theorem Gathers.foldl_insert (h : ring.Gathers seen)
    (ht : TieFree HistoryItem.text (seen ++ items)) :
    (items.foldl (fun ring item => (ring.insert item false).1) ring).Gathers (seen ++ items) := by
  induction items generalizing ring seen with
  | nil =>
    rw [List.append_nil]
    exact h
  | cons item rest ih =>
    rw [List.append_cons seen item rest] at ht ⊢
    exact ih (h.insert (ht.subset (List.subset_append_left ..))) ht

/-- Where a preferred line was put in, a line of its text and its time is the preferred one. -/
theorem eq_of_mem_insert (hd : (ring.items.map fun line => line.value.text).Nodup)
    {line : Timed HistoryItem} (hm : line ∈ (ring.insert item true).1.items)
    (htext : line.value.text = item.value.text) (htime : line.timestamp = item.timestamp)
    (hroom : ring.items.length ≤ ring.capacity) : line = item := by
  have hplaced (hp : line ∈ place item (ring.others item.value.text)) : line = item := by
    refine (mem_place.mp hp).resolve_right fun ho => ?_
    exact absurd htext (of_decide_eq_true (List.mem_filter.mp ho).2 :)
  unfold HistoryRing.insert at hm
  split at hm
  · next hc =>
    have hnil : ring.items = [] := List.length_eq_zero_iff.mp (by omega)
    rw [hnil] at hm
    cases hm
  split at hm
  · next hkept =>
    obtain ⟨held, hg, hr⟩ := (Option.any_eq_true _ _).mp hkept
    obtain ⟨hheld, hs⟩ := of_get?_eq_some hg
    have hline : line = held := List.inj_on_of_nodup_map hd hm hheld (htext.trans hs.symm)
    subst hline
    simp [replaces, htime] at hr
  · dsimp only at hm
    split at hm
    · exact hplaced (List.mem_of_mem_tail hm)
    · exact hplaced hm

theorem Gathers.insert_preferred (h : ring.Gathers seen) (item : Timed HistoryItem) :
    (ring.insert item true).1.Gathers (item :: seen) := by
  have hroom : ring.items.length ≤ ring.capacity := length_le_of_newestKept h.newest
  refine ⟨oldestFirst_insert h.oldestFirst item true, ?_, fun line hm => ?_⟩
  · rw [capacity_insert]
    refine (newestKept_insert h.newest h.oldestFirst item true).congr fun k t => ?_
    simp [facts, eq_comm, or_comm]
  · by_cases hfact : line.value.text = item.value.text ∧ line.timestamp = item.timestamp
    · rw [eq_of_mem_insert (nodup_of_newestKept h.newest) hm hfact.1 hfact.2 hroom]
      exact isFirst_cons item seen
    · have hline : line ∈ ring.items :=
        (mem_of_mem_insert hm).resolve_left fun heq => hfact (heq ▸ ⟨rfl, rfl⟩)
      have hother : IsFirst HistoryItem.text ([item] ++ seen) line :=
        (h.first line hline).behind (by simpa [facts] using hfact)
      exact hother

/-- Preferred lines that come newest first count before those that are there. -/
theorem Gathers.fill (h : ring.Gathers seen)
    (hi : items.Pairwise fun a b => b.timestamp ≤ a.timestamp) :
    (ring.fill true items).Gathers (items.reverse ++ seen) := by
  rw [fill_eq_foldl h.oldestFirst hi]
  clear hi
  induction items generalizing ring seen with
  | nil => exact h
  | cons item rest ih =>
    have hrest := ih (h.insert_preferred item)
    rwa [List.reverse_cons, List.append_assoc]

end HistoryRing

end SessionStore
