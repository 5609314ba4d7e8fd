import Mathlib.Data.List.Nodup
import SessionStore.Proofs.Collection.FileMarks
import SessionStore.Proofs.Collection.HistoryRing

/-! Collections that hold one item of each identity at most, and no more of them
than they have room for. -/
namespace SessionStore

open Recency

namespace Bounded

variable {α κ : Type} {same : α → α → Bool} {key : α → κ} {n : Nat} {c : Bounded α same}

/-- No two items of one identity, and no more items than there is room for. -/
structure OneEach (key : α → κ) (n : Nat) (c : Bounded α same) : Prop where
  capacity : c.capacity = n
  room : c.items.length ≤ n
  distinct : (c.items.map fun item => key item.value).Nodup

theorem oneEach_empty (key : α → κ) (n : Nat) : (⟨n, []⟩ : Bounded α same).OneEach key n :=
  ⟨rfl, Nat.zero_le _, .nil⟩

/-- A list without room is empty. -/
theorem OneEach.items_eq_nil (h : c.OneEach key 0) : c.items = [] :=
  List.length_eq_zero_iff.mp (Nat.le_zero.mp h.room)

theorem OneEach.insert (hsame : ∀ a b, same a b = true ↔ key a = key b) (h : c.OneEach key n)
    (item : Timed α) : (c.insert item).1.OneEach key n := by
  obtain ⟨rfl, hroom, hdistinct⟩ := h
  have hinsert := newestKept_insert hsame (newestKept_self hroom hdistinct) item
  exact ⟨c.capacity_insert item, length_le_of_newestKept hinsert, nodup_of_newestKept hinsert⟩

theorem OneEach.extend (hsame : ∀ a b, same a b = true ↔ key a = key b) (h : c.OneEach key n)
    (items : List (Timed α)) : (c.extend items).OneEach key n :=
  List.foldlRecOn items _ h fun _ h item _ => h.insert hsame item

theorem OneEach.fill (hsame : ∀ a b, same a b = true ↔ key a = key b) (h : c.OneEach key n)
    (isWanted : α → Bool) (items : List (Timed α)) : (c.fill isWanted items).OneEach key n := by
  obtain ⟨front, -, hfill⟩ := c.exists_fill_eq_extend isWanted items
  rw [hfill]
  exact h.extend hsame _

end Bounded

namespace HistoryRing

variable {ring : HistoryRing} {n : Nat}

/-- No two lines of one text, no more lines than there is room for, and older lines in front. -/
structure OneEach (n : Nat) (ring : HistoryRing) : Prop where
  capacity : ring.capacity = n
  room : ring.items.length ≤ n
  distinct : (ring.items.map fun item => item.value.text).Nodup
  oldestFirst : OldestFirst ring.items

theorem oneEach_empty (n : Nat) : (⟨n, []⟩ : HistoryRing).OneEach n :=
  ⟨rfl, Nat.zero_le _, .nil, .nil⟩

theorem OneEach.items_eq_nil (h : ring.OneEach 0) : ring.items = [] :=
  List.length_eq_zero_iff.mp (Nat.le_zero.mp h.room)

theorem OneEach.insert (h : ring.OneEach n) (item : Timed HistoryItem) (preferIncoming : Bool) :
    (ring.insert item preferIncoming).1.OneEach n := by
  obtain ⟨rfl, hroom, hdistinct, horder⟩ := h
  have hheld : NewestKept ring.capacity _ (facts HistoryItem.text ring.items) :=
    newestKept_self hroom hdistinct
  have hinsert := newestKept_insert hheld horder item preferIncoming
  exact ⟨ring.capacity_insert item preferIncoming, length_le_of_newestKept hinsert,
    nodup_of_newestKept hinsert, oldestFirst_insert horder item preferIncoming⟩

theorem OneEach.foldl_insert (h : ring.OneEach n) (items : List (Timed HistoryItem))
    (preferIncoming : Bool) :
    (items.foldl (fun ring item => (ring.insert item preferIncoming).1) ring).OneEach n :=
  List.foldlRecOn items _ h fun _ h item _ => h.insert item preferIncoming

theorem OneEach.fill (h : ring.OneEach n) (preferIncoming : Bool)
    (items : List (Timed HistoryItem)) : (ring.fill preferIncoming items).OneEach n := by
  obtain ⟨front, -, hfill⟩ := ring.exists_fill_eq_foldl preferIncoming items
  rw [hfill]
  exact h.foldl_insert front preferIncoming

end HistoryRing

namespace FileMarks

variable {f : FileMarks} {file : Path} {n : Nat}

/-- What is known of a file is its own: one mark of each name and one change of
each place, all of them in this file. -/
structure OneEach (file : Path) (n : Nat) (f : FileMarks) : Prop where
  names : (f.marks.map fun mark => mark.value.name).Nodup
  changes : f.changes.OneEach Mark.place n
  own : f.Within (fun mark => (mark.value.file == file) = true) fun change =>
    (change.value.file == file) = true

theorem oneEach_new (file : Path) (n : Nat) : (new n).OneEach file n :=
  ⟨.nil, Bounded.oneEach_empty _ _, within_new _⟩

theorem nodup_insertMark (h : (f.marks.map fun mark => mark.value.name).Nodup) (mark : Timed Mark) :
    ((f.insertMark mark).1.marks.map fun mark => mark.value.name).Nodup := by
  obtain ⟨marks, hinsert, hstep⟩ := f.insertMark_step mark
  rw [hinsert]
  show (marks.map _).Nodup
  cases hstep with
  | discarded => exact h
  | replaced hm hn =>
    rw [hm] at h
    simpa only [List.map_append, List.map_cons, hn] using h
  | inserted hn =>
    rw [List.map_append, List.map_singleton, List.nodup_append]
    refine ⟨h, List.nodup_singleton _, fun name hname other ho he => ?_⟩
    obtain ⟨held, hm, rfl⟩ := List.mem_map.mp hname
    exact hn held hm (he.trans (List.mem_singleton.mp ho))

theorem OneEach.insertMark (h : f.OneEach file n) {mark : Timed Mark}
    (hm : (mark.value.file == file) = true) : (f.insertMark mark).1.OneEach file n := by
  refine ⟨nodup_insertMark h.names mark, ?_, h.own.insertMark hm⟩
  rw [changes_insertMark]
  exact h.changes

theorem OneEach.insertChange (h : f.OneEach file n) {change : Timed Mark}
    (hc : (change.value.file == file) = true) : (f.insertChange change).1.OneEach file n :=
  ⟨h.names, h.changes.insert Mark.sameLocation_iff change, h.own.insertChange hc⟩

theorem OneEach.extend (h : f.OneEach file n) {marks changes : List (Timed Mark)}
    (hm : ∀ mark ∈ marks, (mark.value.file == file) = true)
    (hc : ∀ change ∈ changes, (change.value.file == file) = true) :
    (f.extend marks changes).OneEach file n := by
  have hmarks : (marks.foldl (fun f mark => (f.insertMark mark).1) f).OneEach file n :=
    List.foldlRecOn marks _ h fun _ h mark hmem => h.insertMark (hm mark hmem)
  exact List.foldlRecOn changes _ hmarks fun _ h change hmem => h.insertChange (hc change hmem)

end FileMarks

end SessionStore
