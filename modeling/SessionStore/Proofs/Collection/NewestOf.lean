import SessionStore.Proofs.Collection.OneEach
import SessionStore.Proofs.Collection.Orderly

/-! What histories and collections hold is the newest of what was put in. -/
namespace SessionStore

open Recency

namespace Recency

variable {α κ : Type} {key : α → κ} {capacity : Nat} {given kept : List (Timed α)}

/-- Of the given items the newest of each identity, as far as there is room. An identity
that is left out had to make room for others that are at least as new as it ever was. -/
structure NewestOf (key : α → κ) (capacity : Nat) (given kept : List (Timed α)) : Prop where
  room : kept.length ≤ capacity
  distinct : (kept.map fun item => key item.value).Nodup
  mem : ∀ item ∈ kept, item ∈ given
  greatest : ∀ item ∈ kept, ∀ other ∈ given, key other.value = key item.value →
    other.timestamp ≤ item.timestamp
  absent : ∀ other ∈ given, (∀ item ∈ kept, key item.value ≠ key other.value) →
    kept.length = capacity ∧ ∀ item ∈ kept, other.timestamp ≤ item.timestamp

theorem newestOf_of_newestKept
    (h : NewestKept capacity (fun k t => (k, t) ∈ facts key given) (facts key kept))
    (hm : ∀ item ∈ kept, item ∈ given) : NewestOf key capacity given kept where
  room := length_le_of_newestKept h
  distinct := nodup_of_newestKept h
  mem := hm
  greatest := fun item hi other ho hk =>
    h.greatest _ (mem_facts.mpr ⟨item, hi, rfl⟩) _ (mem_facts.mpr ⟨other, ho, by rw [hk]⟩)
  absent := fun other ho hn => by
    have hout : key other.value ∉ (facts key kept).map Prod.fst := fun hm => by
      obtain ⟨item, hi, hk⟩ := mem_keys_facts.mp hm
      exact hn item hi hk
    obtain ⟨hfull, hall⟩ := h.absent _ _ (mem_facts.mpr ⟨other, ho, rfl⟩) hout
    rw [facts, List.length_map] at hfull
    exact ⟨hfull, fun item hi => hall _ (mem_facts.mpr ⟨item, hi, rfl⟩)⟩

/-- Only what was given counts, not in which order. -/
theorem NewestOf.of_mem_iff {given' : List (Timed α)} (h : NewestOf key capacity given kept)
    (hg : ∀ item, item ∈ given' ↔ item ∈ given) : NewestOf key capacity given' kept where
  room := h.room
  distinct := h.distinct
  mem := fun item hi => (hg item).mpr (h.mem item hi)
  greatest := fun item hi other ho => h.greatest item hi other ((hg other).mp ho)
  absent := fun other ho => h.absent other ((hg other).mp ho)

end Recency

namespace HistoryRing

variable {lines : List (Timed HistoryItem)} {capacity : Nat}

/-- What a ring holds after lines came in any order, preferred or not, is the newest of them. -/
theorem newestOf_insertAll (calls : List (Timed HistoryItem × Bool)) :
    NewestOf HistoryItem.text capacity (calls.map Prod.fst)
      (insertAll ⟨capacity, []⟩ calls).items := by
  have hempty : NewestKept (⟨capacity, []⟩ : HistoryRing).capacity (fun (_ : Bytes) _ => False)
      (facts HistoryItem.text (⟨capacity, []⟩ : HistoryRing).items) := .nil capacity
  refine newestOf_of_newestKept ((newestKept_insertAll hempty .nil calls).congr fun k t => by simp)
    ?_
  exact forall_insertAll (fun _ hl => by cases hl) fun call hm => List.mem_map_of_mem hm

/-- Lines that are filled in newest first, and then others that come in any
order, leave the newest of all. -/
theorem newestOf_foldl_insert (ho : OldestFirst lines) (preferFilled preferIncoming : Bool)
    (stored : List (Timed HistoryItem)) :
    NewestOf HistoryItem.text capacity (lines ++ stored)
      (stored.foldl (fun ring line => (ring.insert line preferIncoming).1)
        (HistoryRing.fill ⟨capacity, []⟩ preferFilled lines.reverse)).items := by
  rw [fill_eq_foldl (oldestFirst_empty capacity) (List.pairwise_reverse.mpr ho),
    foldl_insert_eq_insertAll, foldl_insert_eq_insertAll, ← insertAll_append]
  exact (newestOf_insertAll _).of_mem_iff (by simp)

end HistoryRing

namespace Bounded

variable {α κ : Type} {same : α → α → Bool} {key : α → κ} {capacity : Nat} {items : List (Timed α)}
  (hsame : ∀ a b, same a b = true ↔ key a = key b)
include hsame

/-- What a collection holds after items came in any order is the newest of them. -/
theorem newestOf_extend (items : List (Timed α)) :
    NewestOf key capacity items ((⟨capacity, []⟩ : Bounded α same).extend items).items := by
  have hextend := newestKept_extend hsame (orderly_empty key capacity).newest items
  refine newestOf_of_newestKept ?_ (forall_extend (fun _ hm => by cases hm) fun _ hm => hm)
  exact hextend.congr fun k t => by simp [facts]

/-- Items that are filled in newest first, and then others that come in any
order, leave the newest of all. -/
theorem newestOf_extend_fill (ho : OldestFirst items) (more : List (Timed α)) :
    NewestOf key capacity (items ++ more)
      (((⟨capacity, []⟩ : Bounded α same).fill (fun _ => true) items.reverse).extend
        more).items := by
  rw [fill_eq_extend (List.pairwise_reverse.mpr ho), List.filter_true, ← extend_append]
  exact (newestOf_extend hsame _).of_mem_iff (by simp)

end Bounded

end SessionStore
