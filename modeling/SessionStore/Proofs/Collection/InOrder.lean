import Mathlib.Data.List.Nodup
import SessionStore.FileMarks
import SessionStore.HistoryRing
import SessionStore.Proofs.Collection.Named

/-! Items that are different, in order, and no more than there is room for are
all kept as they stand. -/
namespace SessionStore

namespace Recency

variable {α : Type} {item : Timed α} {items : List (Timed α)}

theorem place_last (h : ∀ held ∈ items, held.timestamp ≤ item.timestamp) :
    place item items = items ++ [item] := by
  induction items with
  | nil => rfl
  | cons first rest ih =>
    obtain ⟨hfirst, hrest⟩ := List.forall_mem_cons.mp h
    rw [place_cons, if_pos hfirst, ih hrest]
    rfl

def Ascending (items : List (Timed α)) : Prop := items.Pairwise fun a b => a.timestamp < b.timestamp

theorem Ascending.oldestFirst (h : Ascending items) : OldestFirst items := h.imp UInt64.le_of_lt

/-- Items in the order of their times, those of the same time as they came. -/
def inOrder (items : List (Timed α)) : List (Timed α) :=
  items.foldl (fun held item => place item held) []

theorem foldl_place_perm (items held : List (Timed α)) :
    (items.foldl (fun held item => place item held) held).Perm (held ++ items) := by
  induction items generalizing held with
  | nil => exact .of_eq (List.append_nil held).symm
  | cons item rest ih =>
    exact (ih _).trans (((place_perm item held).append_right rest).trans List.perm_middle.symm)

theorem inOrder_perm (items : List (Timed α)) : (inOrder items).Perm items :=
  foldl_place_perm items []

theorem oldestFirst_inOrder (items : List (Timed α)) : OldestFirst (inOrder items) := by
  have hfold (items held : List (Timed α)) (h : OldestFirst held) :
      OldestFirst (items.foldl (fun held item => place item held) held) := by
    induction items generalizing held with
    | nil => exact h
    | cons item rest ih => exact ih _ (oldestFirst_place h)
  exact hfold items [] .nil

theorem foldl_place_of_oldestFirst {held : List (Timed α)} (h : OldestFirst (held ++ items)) :
    items.foldl (fun held item => place item held) held = held ++ items := by
  induction items generalizing held with
  | nil => exact (List.append_nil held).symm
  | cons item rest ih =>
    have hlast : place item held = held ++ [item] :=
      place_last fun other ho => (List.pairwise_append.mp h).2.2 other ho item List.mem_cons_self
    rw [List.append_cons held item rest] at h ⊢
    rw [List.foldl_cons, hlast, ih h]

theorem inOrder_of_oldestFirst (h : OldestFirst items) : inOrder items = items :=
  foldl_place_of_oldestFirst h

theorem inOrder_eq_self_iff : inOrder items = items ↔ OldestFirst items :=
  ⟨fun h => h ▸ oldestFirst_inOrder items, inOrder_of_oldestFirst⟩

end Recency

open Recency

namespace Bounded

variable {α κ : Type} {same : α → α → Bool} {key : α → κ} {c : Bounded α same}

theorem insert_new {item : Timed α} (hn : ∀ held ∈ c.items, same held.value item.value = false)
    (hl : c.items.length < c.capacity) :
    c.insert item = ({ c with items := place item c.items }, .inserted) := by
  have hcapacity : c.capacity ≠ 0 := by omega
  have hnone : c.find? item.value = none := find?_eq_none_iff_absent.mpr hn
  have hroom : ¬c.capacity < (place item c.items).length := by
    rw [length_place]
    omega
  unfold insert
  rw [if_neg hcapacity, hnone]
  exact if_neg hroom

variable (hsame : ∀ a b, same a b = true ↔ key a = key b)
include hsame

theorem same_eq_false {a b : α} (h : key a ≠ key b) : same a b = false :=
  Bool.eq_false_iff.mpr fun hs => h ((hsame a b).mp hs)

theorem insert_last {item : Timed α} {rest : List (Timed α)} (hl : c.items.length < c.capacity)
    (hd : ((c.items ++ item :: rest).map fun item => key item.value).Nodup)
    (ho : OldestFirst (c.items ++ item :: rest)) :
    c.insert item = ({ c with items := c.items ++ [item] }, .inserted) := by
  rw [insert_new, place_last]
  · exact fun held hm => (List.pairwise_append.mp ho).2.2 held hm item List.mem_cons_self
  · intro held hm
    have hne :=
      (List.pairwise_append.mp (List.pairwise_map.mp hd)).2.2 held hm item List.mem_cons_self
    exact same_eq_false hsame hne
  · exact hl

/-- New items find their places as long as there is room. -/
theorem extend_new {items : List (Timed α)} (hl : c.items.length + items.length ≤ c.capacity)
    (hd : ((c.items ++ items).map fun item => key item.value).Nodup) :
    c.extend items =
      { c with items := items.foldl (fun held item => place item held) c.items } := by
  induction items generalizing c with
  | nil => rfl
  | cons item rest ih =>
    rw [List.length_cons] at hl
    have hnew : ∀ held ∈ c.items, same held.value item.value = false := fun held hm =>
      same_eq_false hsame
        ((List.pairwise_append.mp (List.pairwise_map.mp hd)).2.2 held hm item List.mem_cons_self)
    have hextend : c.extend (item :: rest) = (c.insert item).1.extend rest := rfl
    rw [hextend, insert_new hnew (by omega), ih]
    · rfl
    · rw [length_place]
      dsimp only
      omega
    · refine (List.Perm.map _ ?_).nodup_iff.mp hd
      exact List.perm_middle.trans ((place_perm item c.items).symm.append_right rest)

end Bounded

namespace HistoryRing

variable {ring : HistoryRing} {preferIncoming : Bool}

theorem insert_new {item : Timed HistoryItem}
    (hn : ∀ held ∈ ring.items, held.value.text ≠ item.value.text)
    (hl : ring.items.length < ring.capacity) :
    ring.insert item preferIncoming = ({ ring with items := place item ring.items }, true) := by
  have hcapacity : ring.capacity ≠ 0 := by omega
  have hnone : ring.get? item.value.text = none :=
    List.find?_eq_none.mpr fun held hm => by simpa using hn held hm
  have hothers : ring.items.filter (·.value.text ≠ item.value.text) = ring.items :=
    List.filter_eq_self.mpr fun held hm => decide_eq_true (hn held hm)
  have hroom : ¬ring.capacity < (place item ring.items).length := by
    rw [length_place]
    omega
  unfold insert
  rw [if_neg hcapacity, hnone]
  simp only [Option.any_none, Bool.false_eq_true, if_false, hothers]
  exact if_neg hroom

theorem insert_last {item : Timed HistoryItem} {rest : List (Timed HistoryItem)}
    (hl : ring.items.length < ring.capacity)
    (hd : ((ring.items ++ item :: rest).map fun item => item.value.text).Nodup)
    (ho : OldestFirst (ring.items ++ item :: rest)) :
    ring.insert item preferIncoming = ({ ring with items := ring.items ++ [item] }, true) := by
  rw [insert_new, place_last]
  · exact fun held hm => (List.pairwise_append.mp ho).2.2 held hm item List.mem_cons_self
  · exact fun held hm => (List.pairwise_append.mp (List.pairwise_map.mp hd)).2.2 held hm item
      List.mem_cons_self
  · exact hl

theorem foldl_insert_inOrder {items : List (Timed HistoryItem)}
    (hl : ring.items.length + items.length ≤ ring.capacity)
    (hd : ((ring.items ++ items).map fun item => item.value.text).Nodup)
    (ho : OldestFirst (ring.items ++ items)) :
    items.foldl (fun ring item => (ring.insert item preferIncoming).1) ring =
      { ring with items := ring.items ++ items } := by
  induction items generalizing ring with
  | nil => rw [List.append_nil]; rfl
  | cons item rest ih =>
    rw [List.length_cons] at hl
    have hinsert : (ring.insert item preferIncoming).1 =
        { ring with items := ring.items ++ [item] } := by
      rw [insert_last (by omega) hd ho]
    rw [List.append_cons ring.items item rest] at hd ho ⊢
    rw [List.foldl_cons, hinsert, ih]
    · simp only [List.length_append, List.length_singleton]
      omega
    · exact hd
    · exact ho

end HistoryRing

namespace FileMarks

theorem foldl_insertMark {f : FileMarks} {marks : List (Timed Mark)}
    (hm : ((f.marks ++ marks).map fun mark => mark.value.name).Nodup) :
    ∃ greatest,
      marks.foldl (fun f mark => (f.insertMark mark).1) f =
      ⟨f.marks ++ marks, f.changes, greatest⟩ := by
  induction marks generalizing f with
  | nil => exact ⟨f.greatest, by rw [List.append_nil]; rfl⟩
  | cons mark rest ih =>
    have hnone : (f.touch mark.timestamp).named? mark.value.name = none := by
      refine List.find?_eq_none.mpr fun held hheld he => ?_
      have hne :=
        (List.pairwise_append.mp (List.pairwise_map.mp hm)).2.2 held hheld mark List.mem_cons_self
      exact hne (of_decide_eq_true he)
    have hinsert : (f.insertMark mark).1 =
        ⟨f.marks ++ [mark], f.changes, max f.greatest mark.timestamp⟩ := by
      unfold insertMark
      dsimp only
      rw [hnone]
      rfl
    rw [List.foldl_cons, hinsert]
    have hassoc : f.marks ++ mark :: rest = f.marks ++ [mark] ++ rest := by simp
    rw [hassoc] at hm ⊢
    exact ih hm

theorem foldl_insertChange (f : FileMarks) (changes : List (Timed Mark)) :
    ∃ greatest, changes.foldl (fun f change => (f.insertChange change).1) f =
      ⟨f.marks, f.changes.extend changes, greatest⟩ := by
  induction changes generalizing f with
  | nil => exact ⟨f.greatest, rfl⟩
  | cons change rest ih => exact ih (f.insertChange change).1

theorem extend_new (capacity : Nat) {marks : List (Timed Mark)}
    (hm : (marks.map fun mark => mark.value.name).Nodup) (changes : List (Timed Mark)) :
    ∃ greatest, (FileMarks.new capacity).extend marks changes =
      ⟨marks, (⟨capacity, []⟩ : ChangeList).extend changes, greatest⟩ := by
  have hempty : (((FileMarks.new capacity).marks ++ marks).map fun mark => mark.value.name).Nodup :=
    hm
  obtain ⟨touched, hmarks⟩ := foldl_insertMark hempty
  unfold extend
  rw [hmarks]
  exact foldl_insertChange ⟨marks, ⟨capacity, []⟩, touched⟩ changes

theorem mem_slotted {f : FileMarks} (hm : (f.marks.map fun mark => mark.value.name).Nodup)
    {mark : Timed Mark} : mark ∈ f.slotted ↔ mark ∈ f.marks ∧ mark.value.name ∈ localMarkSlots := by
  unfold slotted
  rw [List.mem_filterMap]
  constructor
  · rintro ⟨name, hname, hfind⟩
    obtain ⟨hmark, rfl⟩ := (find?_name_eq_some_iff hm).mp hfind
    exact ⟨hmark, hname⟩
  · rintro ⟨hmark, hname⟩
    exact ⟨mark.value.name, hname, (find?_name_eq_some_iff hm).mpr ⟨hmark, rfl⟩⟩

theorem mem_unslotted {f : FileMarks} {mark : Timed Mark} :
    mark ∈ f.unslotted ↔ mark ∈ f.marks ∧ mark.value.name ∉ localMarkSlots := by
  simp [unslotted, localMarkSlot?]

/-- The marks of the slots and the others are all the marks. -/
theorem slotted_append_unslotted {f : FileMarks}
    (hm : (f.marks.map fun mark => mark.value.name).Nodup) :
    (f.slotted ++ f.unslotted).Perm f.marks := by
  have hslots : localMarkSlots.Nodup := by decide
  have hslotted : f.slotted.Nodup := by
    apply hslots.filterMap
    intro name name' mark hname hname'
    obtain ⟨-, hn⟩ := (find?_name_eq_some_iff hm).mp hname
    obtain ⟨-, hn'⟩ := (find?_name_eq_some_iff hm).mp hname'
    exact hn.symm.trans hn'
  have hmarks : f.marks.Nodup := .of_map _ hm
  have hdisjoint : f.slotted.Disjoint f.unslotted := fun mark hs hu =>
    (mem_unslotted.mp hu).2 ((mem_slotted hm).mp hs).2
  have hnodup : (f.slotted ++ f.unslotted).Nodup := hslotted.append (hmarks.filter _) hdisjoint
  apply (List.perm_ext_iff_of_nodup hnodup hmarks).mpr
  intro mark
  rw [List.mem_append, mem_slotted hm, mem_unslotted, ← and_or_left]
  exact and_iff_left (Classical.em _)

end FileMarks

end SessionStore
