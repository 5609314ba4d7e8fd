import SessionStore.MarkStores
import SessionStore.Proofs.Collection.MarksByFile

/-! The two stores of marks answer as the one list does, and hold the same. -/
namespace SessionStore

/-- What is answered to a mark where one of its name is held, or none. -/
def markOutcome (held : Option (Timed Mark)) (mark : Timed Mark) : Insertion :=
  held.elim .inserted fun old => if mark.timestamp ≤ old.timestamp then .discarded else .replaced

/-- What becomes of a list that keeps the newer mark of each name, and what is answered. -/
def keepNamed (marks : List (Timed Mark)) (mark : Timed Mark) : List (Timed Mark) × Insertion :=
  match marks.find? (·.value.name = mark.value.name) with
  | some held =>
    if mark.timestamp ≤ held.timestamp then (marks, .discarded)
    else (Recency.replaceFirst (·.name = mark.value.name) mark marks, .replaced)
  | none => (marks ++ [mark], .inserted)

section KeepNamed

variable {q : Timed Mark → Bool} {marks : List (Timed Mark)} {mark : Timed Mark}

theorem outcome_keepNamed (marks : List (Timed Mark)) (mark : Timed Mark) :
    (keepNamed marks mark).2 = markOutcome (marks.find? (·.value.name = mark.value.name)) mark := by
  unfold keepNamed
  cases marks.find? (·.value.name = mark.value.name) with
  | none => rfl
  | some held =>
    dsimp only [markOutcome, Option.elim_some]
    split <;> rfl

/-- Among the marks of some names, a mark of one of these names is kept as it is among all. -/
theorem keepNamed_filter (h : ∀ held, held.value.name = mark.value.name → q held = q mark)
    (hq : q mark = true) :
    keepNamed (marks.filter q) mark =
      ((keepNamed marks mark).1.filter q, (keepNamed marks mark).2) := by
  have hfind : (marks.filter q).find? (·.value.name = mark.value.name) =
      marks.find? (·.value.name = mark.value.name) := by
    rw [List.find?_filter]
    congr 1
    funext held
    rw [decide_eq_decide, decide_eq_true_iff]
    exact and_iff_right_of_imp fun hn => (h held hn).trans hq
  unfold keepNamed
  rw [hfind]
  cases marks.find? (·.value.name = mark.value.name) with
  | none => simp [hq]
  | some held =>
    dsimp only
    split
    · rfl
    · rw [Recency.filter_replaceFirst fun held hn => h held (of_decide_eq_true hn), if_pos hq]

/-- A mark of another name changes nothing among them. -/
theorem filter_keepNamed (h : ∀ held, held.value.name = mark.value.name → q held = q mark)
    (hq : q mark = false) : (keepNamed marks mark).1.filter q = marks.filter q := by
  unfold keepNamed
  split
  · split
    · rfl
    · rw [Recency.filter_replaceFirst fun held hn => h held (of_decide_eq_true hn), hq]
      rfl
  · simp [hq]

end KeepNamed

theorem FileMarks.insertMark_eq (f : FileMarks) (mark : Timed Mark) :
    f.insertMark mark =
      ({ f.touch mark.timestamp with marks := (keepNamed f.marks mark).1 },
        (keepNamed f.marks mark).2) := by
  have hnamed : (f.touch mark.timestamp).named? mark.value.name =
      f.marks.find? (·.value.name = mark.value.name) := rfl
  unfold insertMark keepNamed
  dsimp only
  rw [hnamed]
  cases f.marks.find? (·.value.name = mark.value.name) with
  | none => rfl
  | some held =>
    dsimp only
    split <;> rfl

namespace MarkStores

theorem insertAdditional_eq (s : MarkStores) (mark : Timed Mark) :
    s.insertAdditional mark =
      ({ s with additional := (keepNamed s.additional mark).1 },
        (keepNamed s.additional mark).2) := by
  unfold insertAdditional keepNamed
  cases hindex : s.additional.findFinIdx? (·.value.name = mark.value.name) with
  | none =>
    have hnone : s.additional.find? (·.value.name = mark.value.name) = none :=
      List.find?_eq_none.mpr (List.findFinIdx?_eq_none_iff.mp hindex)
    rw [hnone]
  | some index =>
    obtain ⟨hfind, hset⟩ :=
      Recency.set_of_findFinIdx? (p := fun other : Mark => other.name = mark.value.name) hindex
    rw [hfind]
    dsimp only
    split
    · rfl
    · rw [← hset]

/-- The stores hold what the one list does: each slot the mark of its name, and
the list of the others the rest. -/
structure Refines (s : MarkStores) (f : FileMarks) : Prop where
  slots : ∀ slot : Fin localMarkSlots.length, s.slots.get slot = f.named? (localMarkSlots.get slot)
  additional : s.additional = f.unslotted
  changes : s.changes = f.changes
  greatest : s.greatest = f.greatest

variable {s : MarkStores} {f : FileMarks}

theorem refines_new (changeCapacity : Nat) : (new changeCapacity).Refines (.new changeCapacity) :=
  ⟨fun slot => Vector.getElem_replicate slot.isLt, rfl, rfl, rfl⟩

theorem localMarkSlot?_eq (name : Char) :
    localMarkSlot? name = (localMarkSlots.finIdxOf? name).map fun slot => slot.val :=
  List.idxOf?_eq_map_finIdxOf?_val

theorem Refines.touch (h : s.Refines f) (timestamp : Timestamp) :
    (s.touch timestamp).Refines (f.touch timestamp) :=
  ⟨h.slots, h.additional, h.changes, congrArg (max · timestamp) h.greatest⟩

theorem insertMark_of_slot {mark : Timed Mark} {slot : Fin localMarkSlots.length}
    (hslot : localMarkSlots.finIdxOf? mark.value.name = some slot) :
    ∃ slots, s.insertMark mark = ({ s.touch mark.timestamp with slots },
      markOutcome (s.slots.get slot) mark) ∧ ∀ i : Fin localMarkSlots.length,
        slots.get i = if slot = i then Timed.keepNewer (s.slots.get i) mark else s.slots.get i := by
  have hset (held : Timed Mark) (i : Fin localMarkSlots.length) :
      (s.slots.set slot (some held)).get i = if slot = i then some held else s.slots.get i := by
    show (s.slots.set slot (some held))[i.val] = _
    rw [Vector.getElem_set]
    simp only [Fin.ext_iff]
    rfl
  unfold insertMark
  rw [hslot]
  dsimp only
  rw [show (s.touch mark.timestamp).slots = s.slots from rfl]
  rw [show s.slots[slot] = s.slots.get slot from rfl]
  cases hheld : s.slots.get slot with
  | none =>
    refine ⟨_, rfl, fun i => (hset mark i).trans ?_⟩
    split
    · next he => rw [← he, hheld, Timed.keepNewer_none]
    · rfl
  | some held =>
    dsimp only [markOutcome, Option.elim_some]
    split
    · next hle =>
      refine ⟨s.slots, rfl, fun i => ?_⟩
      split
      · next he => rw [← he, hheld, Timed.keepNewer_of_le hle]
      · rfl
    · next hlt =>
      refine ⟨_, rfl, fun i => (hset mark i).trans ?_⟩
      split
      · next he => rw [← he, hheld, Timed.keepNewer_of_lt (UInt64.not_le.mp hlt)]
      · rfl

theorem Refines.insertMark_unslotted (h : s.Refines f) {mark : Timed Mark}
    (hslot : localMarkSlots.finIdxOf? mark.value.name = none) :
    (s.insertMark mark).2 = (f.insertMark mark).2 ∧
      (s.insertMark mark).1.Refines (f.insertMark mark).1 := by
  have hq : (localMarkSlot? mark.value.name).isNone = true := by
    rw [localMarkSlot?_eq, hslot]
    rfl
  have hkept : keepNamed s.additional mark = ((keepNamed f.marks mark).1.filter
      fun held => (localMarkSlot? held.value.name).isNone, (keepNamed f.marks mark).2) := by
    rw [h.additional]
    exact keepNamed_filter (fun held hn => by rw [hn]) hq
  have hinsert : s.insertMark mark = (s.touch mark.timestamp).insertAdditional mark := by
    unfold insertMark
    rw [hslot]
  have hlist : (s.touch mark.timestamp).additional = s.additional := rfl
  rw [hinsert, insertAdditional_eq, hlist, hkept]
  refine ⟨by rw [f.insertMark_eq], fun slot => ?_, by rw [f.insertMark_eq]; rfl, ?_, ?_⟩
  · have hname : mark.value.name ≠ localMarkSlots.get slot := fun hn =>
      List.finIdxOf?_eq_none_iff.mp hslot (hn ▸ List.getElem_mem slot.isLt)
    rw [f.named?_insertMark, if_neg hname]
    exact h.slots slot
  · rw [f.changes_insertMark]
    exact h.changes
  · rw [f.greatest_insertMark]
    exact (h.touch mark.timestamp).greatest

theorem Refines.insertMark_slotted (h : s.Refines f) {mark : Timed Mark}
    {slot : Fin localMarkSlots.length}
    (hslot : localMarkSlots.finIdxOf? mark.value.name = some slot) :
    (s.insertMark mark).2 = (f.insertMark mark).2 ∧
      (s.insertMark mark).1.Refines (f.insertMark mark).1 := by
  have hname : localMarkSlots.get slot = mark.value.name := (List.finIdxOf?_eq_some_iff.mp hslot).1
  have hq : (localMarkSlot? mark.value.name).isNone = false := by
    rw [localMarkSlot?_eq, hslot]
    rfl
  have hheld : s.slots.get slot = f.marks.find? (·.value.name = mark.value.name) := by
    rw [h.slots slot, hname]
    rfl
  have hother (i : Fin localMarkSlots.length) : mark.value.name = localMarkSlots.get i ↔
      slot = i := by
    rw [← hname]
    exact (List.Nodup.getElem_inj_iff (by decide)).trans Fin.ext_iff.symm
  have hunslotted : (f.insertMark mark).1.unslotted = f.unslotted := by
    rw [f.insertMark_eq]
    exact filter_keepNamed (fun held hn => by rw [hn]) hq
  obtain ⟨slots, hinsert, hslots⟩ := s.insertMark_of_slot hslot
  rw [hinsert]
  refine ⟨?_, fun i => ?_, h.additional.trans hunslotted.symm, ?_, ?_⟩
  · rw [f.insertMark_eq, outcome_keepNamed, ← hheld]
  · rw [f.named?_insertMark]
    refine (hslots i).trans ?_
    rw [h.slots]
    simp only [hother]
  · rw [f.changes_insertMark]
    exact h.changes
  · rw [f.greatest_insertMark]
    exact (h.touch mark.timestamp).greatest

theorem Refines.insertMark (h : s.Refines f) (mark : Timed Mark) :
    (s.insertMark mark).2 = (f.insertMark mark).2 ∧
      (s.insertMark mark).1.Refines (f.insertMark mark).1 := by
  cases hslot : localMarkSlots.finIdxOf? mark.value.name with
  | none => exact h.insertMark_unslotted hslot
  | some slot => exact h.insertMark_slotted hslot

theorem Refines.insertChange (h : s.Refines f) (change : Timed Mark) :
    (s.insertChange change).2 = (f.insertChange change).2 ∧
      (s.insertChange change).1.Refines (f.insertChange change).1 := by
  have htouch := h.touch change.timestamp
  unfold MarkStores.insertChange FileMarks.insertChange
  dsimp only
  rw [htouch.changes]
  exact ⟨rfl, htouch.slots, htouch.additional, rfl, htouch.greatest⟩

def insertItem (s : MarkStores) : FileMarks.Item → MarkStores
  | .mark mark => (s.insertMark mark).1
  | .change change => (s.insertChange change).1

theorem Refines.insertItem (h : s.Refines f) (item : FileMarks.Item) :
    (s.insertItem item).Refines (f.insertItem item) := by
  cases item with
  | mark mark => exact (h.insertMark mark).2
  | change change => exact (h.insertChange change).2

theorem Refines.mark?_eq (h : s.Refines f) (name : Char) : s.mark? name = f.slotted? name := by
  unfold mark? FileMarks.slotted?
  rw [localMarkSlot?_eq]
  cases hslot : localMarkSlots.finIdxOf? name with
  | none => rfl
  | some slot =>
    have hname : localMarkSlots.get slot = name := (List.finIdxOf?_eq_some_iff.mp hslot).1
    have hheld := h.slots slot
    rw [hname] at hheld
    exact hheld

theorem Refines.localMarks_eq (h : s.Refines f) : s.localMarks = f.slotted := by
  have hslots : s.slots.toList = localMarkSlots.map f.named? := by
    refine List.ext_getElem (by simp) fun i hi _ => ?_
    rw [Vector.getElem_toList, List.getElem_map]
    exact h.slots ⟨i, by simpa using hi⟩
  rw [localMarks, hslots, List.filterMap_map]
  rfl

theorem refines_foldl_insertItem (changeCapacity : Nat) (items : List FileMarks.Item) :
    (items.foldl insertItem (new changeCapacity)).Refines
      (items.foldl FileMarks.insertItem (.new changeCapacity)) := by
  suffices h : ∀ {s : MarkStores} {f : FileMarks}, s.Refines f →
      (items.foldl insertItem s).Refines (items.foldl FileMarks.insertItem f) from
    h (refines_new changeCapacity)
  induction items with
  | nil => exact fun h => h
  | cons item rest ih => exact fun h => ih (h.insertItem item)

/-- After any marks and changes, the two stores have what the one list has: the mark
in the slot of each name, the marks in the order of their slots and those of other
names, the changes and the greatest time. Whatever comes next is answered alike. -/
theorem foldl_insertItem_answers (changeCapacity : Nat) (items : List FileMarks.Item) :
    let s := items.foldl insertItem (new changeCapacity)
    let f := items.foldl FileMarks.insertItem (.new changeCapacity)
    (∀ name, s.mark? name = f.slotted? name) ∧ s.localMarks = f.slotted ∧
      s.additional = f.unslotted ∧ s.changes = f.changes ∧ s.greatest = f.greatest ∧
      (∀ mark, (s.insertMark mark).2 = (f.insertMark mark).2) ∧
      ∀ change, (s.insertChange change).2 = (f.insertChange change).2 := by
  intro s f
  have h : s.Refines f := refines_foldl_insertItem changeCapacity items
  exact ⟨h.mark?_eq, h.localMarks_eq, h.additional, h.changes, h.greatest,
    fun mark => (h.insertMark mark).1, fun change => (h.insertChange change).1⟩

end MarkStores

end SessionStore
