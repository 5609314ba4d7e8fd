import Mathlib.Data.List.TakeWhile
import SessionStore.Proofs.Collection.InOrder
import SessionStore.Proofs.Collection.OneEach

/-! What an insertion into a history answers, and what it has done then. -/
namespace SessionStore

open Recency

namespace HistoryRing

variable {ring : HistoryRing} {item : Timed HistoryItem} {preferIncoming : Bool} {n : Nat}

inductive Refuses (ring : HistoryRing) (item : Timed HistoryItem) (preferIncoming : Bool) : Prop
  | noRoom (h : ring.capacity = 0)
  | newer {held : Timed HistoryItem} (hm : held ∈ ring.items)
    (ht : held.value.text = item.value.text) (h : item.timestamp < held.timestamp)
  | notPreferred {held : Timed HistoryItem} (hm : held ∈ ring.items)
    (ht : held.value.text = item.value.text) (h : item.timestamp = held.timestamp)
    (hp : preferIncoming = false)
  | olderThanAll (hn : ∀ held ∈ ring.items, held.value.text ≠ item.value.text)
    (hf : ring.isFull = true) (h : ∀ held ∈ ring.items, item.timestamp < held.timestamp)

/-- The lines that stay where a line of this text is put in: all but the one of
the same text or, if there is none and the ring is full, all but the first. -/
def staying (ring : HistoryRing) (text : Bytes) : List (Timed HistoryItem) :=
  if (ring.get? text).isNone && ring.isFull then ring.items.tail else ring.others text

theorem OneEach.insertAll (h : ring.OneEach n) (calls : List (Timed HistoryItem × Bool)) :
    (ring.insertAll calls).OneEach n :=
  List.foldlRecOn calls _ h fun _ h call _ => h.insert call.1 call.2

theorem insert_of_refuses (h : ring.OneEach n) (hr : ring.Refuses item preferIncoming) :
    ring.insert item preferIncoming = (ring, false) := by
  have hget {held : Timed HistoryItem} (hm : held ∈ ring.items)
      (ht : held.value.text = item.value.text) : ring.get? item.value.text = some held :=
    (find?_eq_some_iff_of_nodup h.distinct fun _ => decide_eq_true_iff).mpr ⟨hm, ht⟩
  cases hr with
  | noRoom hc => exact if_pos hc
  | newer hm ht hlt =>
    refine insert_of_kept (hget hm ht) ?_
    simp [replaces, UInt64.le_of_lt hlt, UInt64.ne_of_lt hlt]
  | notPreferred hm ht heq hp =>
    refine insert_of_kept (hget hm ht) ?_
    simp [replaces, heq, hp]
  | olderThanAll hn hf hlt => exact insert_older (of_decide_eq_true hf) hlt preferIncoming

theorem insert_of_replaces (h : ring.OneEach n) (hc : ring.capacity ≠ 0) {held : Timed HistoryItem}
    (hg : ring.get? item.value.text = some held) (hr : replaces item held preferIncoming = true) :
    ring.insert item preferIncoming =
      ({ ring with items := place item (ring.others item.value.text) }, true) := by
  have hdistinct : ((facts HistoryItem.text ring.items).map Prod.fst).Nodup := by
    rw [facts, List.map_map]
    exact h.distinct
  have hlength := (perm_of_get?_eq_some hdistinct hg).length_eq
  rw [List.length_cons] at hlength
  have hroom : ¬ring.capacity < (place item (ring.others item.value.text)).length := by
    have := h.room
    have := h.capacity
    rw [length_place]
    omega
  unfold insert
  rw [if_neg hc, hg, Option.any_some, hr]
  exact if_neg hroom

/-- Where there is no room, the first line goes. -/
theorem insert_of_full (hc : ring.capacity ≠ 0)
    (hn : ∀ held ∈ ring.items, held.value.text ≠ item.value.text) (hf : ring.isFull = true)
    {first : Timed HistoryItem} {rest : List (Timed HistoryItem)}
    (hfirst : notNewer item.timestamp ring.items = first :: rest) :
    ring.insert item preferIncoming =
      ({ ring with items := rest ++ item :: fromNewer item.timestamp ring.items }, true) := by
  have hnone : ring.get? item.value.text = none := get?_eq_none_iff.mpr hn
  have hothers : ring.items.filter (·.value.text ≠ item.value.text) = ring.items :=
    others_eq_items hn
  have hfull : ring.capacity ≤ ring.items.length := of_decide_eq_true hf
  unfold insert
  rw [if_neg hc, hnone, Option.any_none, if_neg Bool.false_ne_true]
  dsimp only
  rw [hothers, length_place, if_pos (Nat.lt_succ_of_le hfull), place, hfirst]
  rfl

/-- A line that is put in stands behind all that are not newer. -/
theorem insert_of_not_refuses (h : ring.OneEach n) (hr : ¬ring.Refuses item preferIncoming) :
    ∃ front back, ring.insert item preferIncoming =
      ({ ring with items := front ++ item :: back }, true) ∧
      front ++ back = ring.staying item.value.text ∧
      (∀ held ∈ front, held.timestamp ≤ item.timestamp) ∧ ∀ held ∈ back, item.timestamp <
      held.timestamp := by
  have hc : ring.capacity ≠ 0 := fun hc => hr (.noRoom hc)
  have hback {items : List (Timed HistoryItem)} (hs : items.Sublist ring.items) :
      ∀ held ∈ fromNewer item.timestamp items, item.timestamp < held.timestamp :=
    fun held => lt_of_mem_fromNewer (h.oldestFirst.sublist hs)
  cases hg : ring.get? item.value.text with
  | some held =>
    obtain ⟨hm, ht⟩ := of_get?_eq_some hg
    have hreplaces : replaces item held preferIncoming = true := by
      by_cases hlt : item.timestamp < held.timestamp
      · exact absurd (.newer hm ht hlt) hr
      by_cases heq : item.timestamp = held.timestamp
      · cases hp : preferIncoming with
        | false => exact absurd (.notPreferred hm ht heq hp) hr
        | true => simp [replaces, heq]
      · have hgt : held.timestamp < item.timestamp :=
          UInt64.lt_of_le_of_ne (UInt64.not_lt.mp hlt) fun he => heq he.symm
        simp [replaces, hgt]
    refine ⟨_, _, insert_of_replaces h hc hg hreplaces, ?_, fun _ => le_of_mem_notNewer,
      hback List.filter_sublist⟩
    rw [notNewer_append_fromNewer, staying, hg]
    rfl
  | none =>
    have hn : ∀ held ∈ ring.items, held.value.text ≠ item.value.text := get?_eq_none_iff.mp hg
    by_cases hf : ring.isFull = true
    · have hsplit := notNewer_append_fromNewer item.timestamp ring.items
      cases hfirst : notNewer item.timestamp ring.items with
      | nil =>
        rw [hfirst, List.nil_append] at hsplit
        have hall := hback (List.Sublist.refl _)
        rw [hsplit] at hall
        exact absurd (.olderThanAll hn hf hall) hr
      | cons first rest =>
        have hfront : ∀ held ∈ rest, held ∈ notNewer item.timestamp ring.items := fun held hm =>
          hfirst ▸ List.mem_cons_of_mem first hm
        refine ⟨rest, _, insert_of_full hc hn hf hfirst, ?_,
          fun held hm => le_of_mem_notNewer (hfront held hm), hback (List.Sublist.refl _)⟩
        have hstaying : ring.staying item.value.text = ring.items.tail := by
          rw [staying, hg, hf]
          rfl
        have htail := congrArg List.tail hsplit
        rw [hfirst] at htail
        exact hstaying ▸ htail
    · have hroom : ring.items.length < ring.capacity :=
        Nat.lt_of_not_le fun hle => hf (decide_eq_true hle)
      refine ⟨_, _, insert_new hn hroom, ?_, fun _ => le_of_mem_notNewer,
        hback (List.Sublist.refl _)⟩
      have hstaying : ring.staying item.value.text = ring.items := by
        rw [staying, Bool.eq_false_iff.mpr hf, Bool.and_false]
        exact others_eq_items hn
      rw [hstaying, notNewer_append_fromNewer]

/-- Whatever lines a ring was given before, putting in another one does what it
answers. If the answer is no, there is a reason and the ring stays as it is. If it is
yes, there is none, and the ring has the line, behind all that are not newer and in
front of all that are; the others are those of before, in their order, without the one
of the same text or, if there is none and the ring was full, without the first. -/
theorem insert_answers (capacity : Nat) (calls : List (Timed HistoryItem × Bool))
    (item : Timed HistoryItem) (preferIncoming : Bool) :
    let ring := insertAll ⟨capacity, []⟩ calls
    match ring.insert item preferIncoming with
    | (after, false) => ring.Refuses item preferIncoming ∧ after = ring
    | (after, true) => ¬ring.Refuses item preferIncoming ∧ after.capacity = capacity ∧
        ∃ front back, after.items = front ++ item :: back ∧
        front ++ back = ring.staying item.value.text ∧
          (∀ held ∈ front, held.timestamp ≤ item.timestamp) ∧ ∀ held ∈ back, item.timestamp <
          held.timestamp := by
  intro ring
  have hring : ring.OneEach capacity := (oneEach_empty capacity).insertAll calls
  by_cases hr : ring.Refuses item preferIncoming
  · rw [insert_of_refuses hring hr]
    exact ⟨hr, rfl⟩
  · obtain ⟨front, back, hinsert, hstaying, hfront, hback⟩ := insert_of_not_refuses hring hr
    rw [hinsert]
    exact ⟨hr, hring.capacity, front, back, rfl, hstaying, hfront, hback⟩

end HistoryRing

end SessionStore
