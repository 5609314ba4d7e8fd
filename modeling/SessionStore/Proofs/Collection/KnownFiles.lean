import SessionStore.Proofs.Collection.Held
import SessionStore.Proofs.Collection.InOrder
import SessionStore.Proofs.Collection.OneEach
import SessionStore.Session

/-! The files that are written: what is read back of each of them, and in which order they come. -/
namespace SessionStore

open Recency

/-- Sorted by their times, the newest first, items of the same time stay in their order. -/
theorem Recency.pairwise_mergeSort {α : Type} (time : α → Timestamp) {R : α → α → Prop}
    {items : List α} (h : items.Pairwise R) :
    (items.mergeSort fun a b => time b ≤ time a).Pairwise fun a b =>
      time b < time a ∨ time a = time b ∧ R a b := by
  have htrans (a b c : α) (hab : decide (time b ≤ time a) = true)
      (hbc : decide (time c ≤ time b) = true) : decide (time c ≤ time a) = true :=
    decide_eq_true (UInt64.le_trans (of_decide_eq_true hbc) (of_decide_eq_true hab))
  have htotal (a b : α) : (decide (time b ≤ time a) || decide (time a ≤ time b)) = true := by
    simpa using UInt64.le_total _ _
  induction items with
  | nil => simp
  | cons item rest ih =>
    obtain ⟨hitem, hrest⟩ := List.pairwise_cons.mp h
    obtain ⟨front, back, hall, hothers, hfront⟩ := List.mergeSort_cons htrans htotal item rest
    have hsorted := List.pairwise_mergeSort htrans htotal (item :: rest)
    have hordered := ih hrest
    rw [hall] at hsorted ⊢
    rw [hothers] at hordered
    have hmem {other : α} (hm : other ∈ front ++ back) : other ∈ rest := by
      rw [← hothers] at hm
      exact List.mem_mergeSort.mp hm
    obtain ⟨hfirst, hlast, hacross⟩ := List.pairwise_append.mp hordered
    refine List.pairwise_append.mpr ⟨hfirst, List.pairwise_cons.mpr ⟨fun other ho => ?_, hlast⟩, ?_⟩
    · have hle : time other ≤ time item := of_decide_eq_true
        ((List.pairwise_cons.mp (List.pairwise_append.mp hsorted).2.1).1 other ho)
      rcases UInt64.lt_or_eq_of_le hle with hlt | heq
      · exact .inl hlt
      · exact .inr ⟨heq.symm, hitem other (hmem (List.mem_append_right _ ho))⟩
    · intro before hb other ho
      rcases List.mem_cons.mp ho with rfl | ho
      · exact .inl (UInt64.not_le.mp (by simpa using hfront before hb))
      · exact hacross before hb other ho

namespace FileMarks

variable {f : FileMarks}

/-- What a file holds, as a session has it after it was written and read back. -/
def state (f : FileMarks) : FileState where
  marks := f.marks.foldl (fun held mark => held.insert mark.value.name mark) .empty
  changes := inOrder f.changes.items

/-- The file with its changes in the order of their times. -/
def ordered (f : FileMarks) : FileMarks :=
  { f with changes := { f.changes with items := inOrder f.changes.items } }

def isInhabited (f : FileMarks) : Bool := !f.marks.isEmpty || !f.changes.isEmpty

theorem isInhabited_iff : f.isInhabited = true ↔ f.marks ≠ [] ∨ f.changes.items ≠ [] := by
  simp [isInhabited, Bounded.isEmpty]

theorem greatest_foldl_le (put : FileMarks → Timed Mark → FileMarks)
    (hput : ∀ f item, (put f item).greatest = (f.touch item.timestamp).greatest) {bound : Timestamp}
    {items : List (Timed Mark)} (hf : f.greatest ≤ bound)
    (hi : ∀ item ∈ items, item.timestamp ≤ bound) :
    (items.foldl put f).greatest ≤ bound := by
  induction items generalizing f with
  | nil => exact hf
  | cons item rest ih =>
    obtain ⟨hitem, hrest⟩ := List.forall_mem_cons.mp hi
    refine ih ?_ hrest
    rw [hput]
    show (if f.greatest ≤ item.timestamp then item.timestamp else f.greatest) ≤ bound
    split
    · exact hitem
    · exact hf

/-- The greatest time is that of a mark or change that was put in. -/
theorem greatest_extend_le {bound : Timestamp} {marks changes : List (Timed Mark)}
    (hf : f.greatest ≤ bound) (hi : ∀ item ∈ marks ++ changes, item.timestamp ≤ bound) :
    (f.extend marks changes).greatest ≤ bound := by
  obtain ⟨hmarks, hchanges⟩ := List.forall_mem_append.mp hi
  have htouched := greatest_foldl_le _ greatest_insertMark hf hmarks
  exact greatest_foldl_le (fun f change => (f.insertChange change).1) (fun _ _ => rfl)
    htouched hchanges

theorem newestKept_changes (capacity : Nat) (changes : List (Timed Mark)) :
    NewestKept capacity (fun k t => (k, t) ∈ facts Mark.place changes)
      (facts Mark.place ((⟨capacity, []⟩ : ChangeList).extend changes).items) := by
  have hempty : NewestKept (⟨capacity, []⟩ : ChangeList).capacity (fun _ _ => False)
      (facts Mark.place (⟨capacity, []⟩ : ChangeList).items) := NewestKept.nil capacity
  exact (Bounded.newestKept_extend Mark.sameLocation_iff hempty changes).congr fun _ _ =>
    (or_iff_right id).symm

/-- Changes that are kept are at different places, and no more than there is room for. -/
theorem nodup_changes (capacity : Nat) (changes : List (Timed Mark)) :
    (((⟨capacity, []⟩ : ChangeList).extend changes).items.map fun change =>
      change.value.place).Nodup ∧
      ((⟨capacity, []⟩ : ChangeList).extend changes).items.length ≤ capacity := by
  have hempty : (⟨capacity, []⟩ : ChangeList).OneEach Mark.place capacity :=
    Bounded.oneEach_empty _ _
  have hkept := hempty.extend Mark.sameLocation_iff changes
  exact ⟨hkept.distinct, hkept.room⟩

/-- What is kept of changes is as new as they are. -/
theorem exists_change_le {capacity : Nat} (hc : capacity ≠ 0) {changes : List (Timed Mark)}
    {change : Timed Mark} (hm : change ∈ changes) :
    ∃ kept ∈ ((⟨capacity, []⟩ : ChangeList).extend changes).items, change.timestamp ≤
      kept.timestamp := by
  have hkept := newestKept_changes capacity changes
  have hseen : (change.value.place, change.timestamp) ∈ facts Mark.place changes :=
    mem_facts.mpr ⟨change, hm, rfl⟩
  by_cases hheld : change.value.place ∈
      (facts Mark.place ((⟨capacity, []⟩ : ChangeList).extend changes).items).map Prod.fst
  · obtain ⟨kept, hk, hplace⟩ := mem_keys_facts.mp hheld
    refine ⟨kept, hk, hkept.greatest _ (mem_facts.mpr ⟨kept, hk, rfl⟩) _ ?_⟩
    dsimp only
    rwa [hplace]
  · obtain ⟨hfull, hall⟩ := hkept.absent _ _ hseen hheld
    rw [facts, List.length_map] at hfull
    obtain ⟨kept, hk⟩ := List.exists_mem_of_length_pos (hfull ▸ Nat.pos_of_ne_zero hc)
    exact ⟨kept, hk, hall _ (mem_facts.mpr ⟨kept, hk, rfl⟩)⟩

/-- With no more than what was kept of its changes, a file is as new as it was. -/
theorem greatest_again {capacity : Nat} (hc : capacity ≠ 0) (marks changes : List (Timed Mark)) :
    ((new capacity).extend marks
      (inOrder ((⟨capacity, []⟩ : ChangeList).extend changes).items)).greatest =
      ((new capacity).extend marks changes).greatest := by
  have hperm := inOrder_perm ((⟨capacity, []⟩ : ChangeList).extend changes).items
  apply UInt64.le_antisymm
  · refine greatest_extend_le UInt64.zero_le fun item hi =>
      le_greatest_extend (.new capacity) marks changes item ?_
    rcases List.mem_append.mp hi with hi | hi
    · exact List.mem_append_left _ hi
    · exact List.mem_append_right _
        (Bounded.forall_extend (by simp) (fun _ => id) item (hperm.mem_iff.mp hi))
  · refine greatest_extend_le UInt64.zero_le fun item hi => ?_
    have hagain := le_greatest_extend (.new capacity) marks
      (inOrder ((⟨capacity, []⟩ : ChangeList).extend changes).items)
    rcases List.mem_append.mp hi with hi | hi
    · exact hagain item (List.mem_append_left _ hi)
    · obtain ⟨newer, hnewer, hle⟩ := exists_change_le hc hi
      exact UInt64.le_trans hle (hagain newer (List.mem_append_right _ (hperm.mem_iff.mpr hnewer)))

/-- What was kept of a file, put in again in order, is kept again. -/
theorem extend_again {capacity : Nat} (hc : capacity ≠ 0) {marks : List (Timed Mark)}
    (hm : (marks.map fun mark => mark.value.name).Nodup) (changes : List (Timed Mark)) :
    (new capacity).extend marks ((new capacity).extend marks changes).ordered.changes.items =
      ((new capacity).extend marks changes).ordered := by
  obtain ⟨greatest, hextend⟩ := extend_new capacity hm changes
  have hgreatest := greatest_again hc marks changes
  obtain ⟨hplaces, hroom⟩ := nodup_changes capacity changes
  rw [hextend] at hgreatest ⊢
  unfold ordered
  dsimp only at hgreatest ⊢
  rw [Bounded.capacity_extend]
  generalize ((⟨capacity, []⟩ : ChangeList).extend changes).items =
    kept at hgreatest hplaces hroom ⊢
  have hperm := inOrder_perm kept
  obtain ⟨greatest', hagain⟩ := extend_new capacity hm (inOrder kept)
  have hkept : (⟨capacity, []⟩ : ChangeList).extend (inOrder kept) = ⟨capacity, inOrder kept⟩ := by
    rw [Bounded.extend_new Mark.sameLocation_iff]
    · exact congrArg (Bounded.mk capacity) (inOrder_of_oldestFirst (oldestFirst_inOrder kept))
    · simpa [hperm.length_eq] using hroom
    · exact (hperm.map _).nodup_iff.mpr hplaces
  rw [hagain] at hgreatest
  rw [hagain, hkept]
  exact congrArg _ hgreatest

end FileMarks

namespace FileMarksMap

/-- Newer files go first, files of the same time in the order of their paths. -/
def GoesFirst (a b : Path × FileMarks) : Prop :=
  b.2.greatest < a.2.greatest ∨ a.2.greatest = b.2.greatest ∧ compare a.1 b.1 = .lt

theorem GoesFirst.not_symm {a b : Path × FileMarks} (h : GoesFirst a b) : ¬GoesFirst b a := by
  rintro (hba | ⟨hba, hpath⟩)
  · rcases h with hab | ⟨hab, -⟩
    · exact UInt64.lt_irrefl _ (UInt64.lt_trans hab hba)
    · rw [hab] at hba
      exact UInt64.lt_irrefl _ hba
  · rcases h with hab | ⟨-, hpath'⟩
    · rw [hba] at hab
      exact UInt64.lt_irrefl _ hab
    · rw [Std.OrientedCmp.gt_of_lt hpath'] at hpath
      cases hpath

/-- The order leaves no choice how to arrange files. -/
theorem eq_of_goesFirst {files files' : List (Path × FileMarks)} (h : files.Pairwise GoesFirst)
    (h' : files'.Pairwise GoesFirst) (hp : files.Perm files') : files = files' :=
  hp.eq_of_pairwise (fun _ _ _ _ hab hba => (hab.not_symm hba).elim) h h'

/-- Files that come in the order of their paths. -/
theorem goesFirst_mergeSort {files : List (Path × FileMarks)}
    (h : files.Pairwise fun a b => compare a.1 b.1 = .lt) :
    (files.mergeSort fun a b => b.2.greatest ≤ a.2.greatest).Pairwise GoesFirst :=
  pairwise_mergeSort (fun file : Path × FileMarks => file.2.greatest) h

/-- The files that are written, as a session has them after they were read back. -/
def states (m : FileMarksMap) (n : Nat) : List (Path × FileState) :=
  ((m.top n).filter fun file => file.2.isInhabited).map fun file => (file.1, file.2.state)

end FileMarksMap

end SessionStore
