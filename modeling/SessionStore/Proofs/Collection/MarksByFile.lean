import SessionStore.Proofs.Collection.FirstNewest
import SessionStore.Proofs.Collection.Grouping
import SessionStore.Proofs.Collection.Insertions
import SessionStore.Proofs.Collection.KnownFiles
import SessionStore.Proofs.Merging

/-! Marks and changes that are put in under files: what is held of each file,
and which files come first. -/
namespace SessionStore

open Recency (FirstNewest)

namespace FileMarks

variable {f : FileMarks}

/-- Of a name that comes again, the newer mark is there afterwards. -/
theorem named?_insertMark (f : FileMarks) (mark : Timed Mark) (n : Char) :
    (f.insertMark mark).1.named? n =
      if mark.value.name = n then Timed.keepNewer (f.named? n) mark else f.named? n := by
  obtain ⟨marks, hinsert, hstep⟩ := f.insertMark_step mark
  rw [hinsert]
  show marks.find? (·.value.name = n) = _
  cases hstep with
  | discarded hn ht =>
    split
    · next he =>
      subst he
      rw [hn, Timed.keepNewer_of_le ht]
      exact hn
    · rfl
  | @replaced front back held hm hn hf ht =>
    rw [named?, hm, List.find?_append, List.find?_append]
    by_cases he : mark.value.name = n
    · subst he
      have hnone : front.find? (·.value.name = mark.value.name) = none :=
        List.find?_eq_none.mpr fun other ho => by simpa using hf other ho
      rw [hnone, if_pos rfl]
      simp [hn, Timed.keepNewer_of_lt ht]
    · simp [hn, he]
  | inserted hn =>
    rw [List.find?_append]
    by_cases he : mark.value.name = n
    · subst he
      have hnone : f.named? mark.value.name = none :=
        List.find?_eq_none.mpr fun other ho => by simpa using hn other ho
      rw [show f.marks.find? _ = none from hnone, hnone, if_pos rfl]
      simp
    · simp [he, named?]

/-- A mark of a new name goes last, and all others keep their places. -/
theorem names_insertMark (f : FileMarks) (mark : Timed Mark) :
    (f.insertMark mark).1.marks.map (·.value.name) =
      if (f.marks.map (·.value.name)).any (· == mark.value.name) then f.marks.map (·.value.name)
      else f.marks.map (·.value.name) ++ [mark.value.name] := by
  have hany : (f.marks.map (·.value.name)).any (· == mark.value.name) = true ↔
      ∃ held ∈ f.marks, held.value.name = mark.value.name := by simp
  obtain ⟨marks, hinsert, hstep⟩ := f.insertMark_step mark
  rw [hinsert]
  show marks.map _ = _
  cases hstep with
  | discarded hn =>
    rw [if_pos (hany.mpr ⟨_, List.mem_of_find?_eq_some hn,
      of_decide_eq_true (List.find?_some hn :)⟩)]
  | replaced hm hn =>
    rw [if_pos (hany.mpr ⟨_, hm ▸ List.mem_append_right _ List.mem_cons_self, hn⟩), hm]
    simp [hn]
  | inserted hn =>
    rw [if_neg fun h => ?_]
    · exact List.map_append
    · obtain ⟨held, hm, he⟩ := hany.mp h
      exact hn held hm he

/-- What can be put in under a file. -/
inductive Item where
  | mark (mark : Timed Mark)
  | change (change : Timed Mark)

namespace Item

def timestamp : Item → Timestamp
  | .mark item | .change item => item.timestamp

def mark? : Item → Option (Timed Mark)
  | .mark item => some item
  | .change _ => none

def change? : Item → Option (Timed Mark)
  | .mark _ => none
  | .change item => some item

end Item

def insertItem (f : FileMarks) : Item → FileMarks
  | .mark mark => (f.insertMark mark).1
  | .change change => (f.insertChange change).1

variable {items : List Item}

def marksNamed (name : Char) (items : List Item) : List (Timed Mark) :=
  (items.filterMap Item.mark?).filter (·.value.name = name)

/-- What there is of a file after items were put in: of each name the first of the
newest marks, the names without a slot in first-seen order, what a collection of
limited size makes of the changes, and the greatest time of any item, held or not. -/
structure Holds (capacity : Nat) (items : List Item) (f : FileMarks) : Prop where
  slotted : ∀ name ∈ localMarkSlots, FirstNewest (marksNamed name items) (f.slotted? name)
  unslotted : ∀ mark ∈ f.unslotted, FirstNewest (marksNamed mark.value.name items) (some mark)
  names : f.unslotted.map (·.value.name) =
    ((items.filterMap Item.mark?).map (·.value.name)).eraseDups.filter (· ∉ localMarkSlots)
  changes : f.changes = (⟨capacity, []⟩ : ChangeList).extend (items.filterMap Item.change?)
  greatest : (∀ item ∈ items, item.timestamp ≤ f.greatest) ∧
    ∃ item ∈ items, item.timestamp = f.greatest

theorem named?_foldl_insertItem (f : FileMarks) (items : List Item) (n : Char) :
    (items.foldl insertItem f).named? n =
      (marksNamed n items).foldl Timed.keepNewer (f.named? n) := by
  rw [marksNamed, List.filter_filterMap]
  refine foldl_filterMap_of_step (named? · n) (fun item _ f => ?_) f
  cases item with
  | mark mark =>
    rw [insertItem, named?_insertMark]
    by_cases hn : mark.value.name = n
    · simp [Item.mark?, Option.filter, hn]
    · simp [Item.mark?, Option.filter, hn]
  | change change => rfl

theorem changes_foldl_insertItem (f : FileMarks) (items : List Item) :
    (items.foldl insertItem f).changes = f.changes.extend (items.filterMap Item.change?) := by
  refine foldl_filterMap_of_step changes (fun item _ f => ?_) f
  cases item with
  | mark mark => exact changes_insertMark f mark
  | change change => rfl

theorem names_foldl_insertItem (capacity : Nat) (items : List Item) :
    (items.foldl insertItem (new capacity)).marks.map (·.value.name) =
      ((items.filterMap Item.mark?).map (·.value.name)).eraseDups := by
  induction items using List.reverseRecOn with
  | nil => rfl
  | append_singleton front last ih =>
    rw [List.foldl_append, List.filterMap_append, List.map_append]
    cases last with
    | mark mark =>
      show ((front.foldl insertItem (new capacity)).insertMark mark).1.marks.map _ = _
      rw [names_insertMark, ih, any_eraseDups]
      exact (eraseDups_concat _ mark.value.name).symm
    | change change =>
      show (front.foldl insertItem (new capacity)).marks.map _ = _
      have hnone : [Item.change change].filterMap Item.mark? = [] := rfl
      rw [ih, hnone, List.map_nil, List.append_nil]

theorem greatest_insertItem (f : FileMarks) (item : Item) :
    (f.insertItem item).greatest = (f.touch item.timestamp).greatest := by
  cases item with
  | mark mark => exact greatest_insertMark f mark
  | change change => rfl

/-- The greatest time is that of an item, if there is one, and no item is newer. -/
theorem greatest_foldl_insertItem (capacity : Nat) (items : List Item) :
    (∀ item ∈ items, item.timestamp ≤ (items.foldl insertItem (new capacity)).greatest) ∧
      (items ≠ [] → ∃ item ∈ items, item.timestamp =
        (items.foldl insertItem (new capacity)).greatest) := by
  induction items using List.reverseRecOn with
  | nil => exact ⟨by simp, fun h => absurd rfl h⟩
  | append_singleton front last ih =>
    obtain ⟨hle, hmem⟩ := ih
    rw [List.foldl_append, List.foldl_cons, List.foldl_nil, greatest_insertItem]
    generalize hf : front.foldl insertItem (new capacity) = f at hle hmem ⊢
    obtain ⟨hheld, hlast⟩ := le_greatest_touch f last.timestamp
    refine ⟨fun item hi => ?_, fun _ => ?_⟩
    · rcases List.mem_append.mp hi with hi | hi
      · exact UInt64.le_trans (hle item hi) hheld
      · exact List.mem_singleton.mp hi ▸ hlast
    · show ∃ item ∈ front ++ [last],
        item.timestamp = if f.greatest ≤ last.timestamp then last.timestamp else f.greatest
      split
      · exact ⟨last, by simp, rfl⟩
      · next hlt =>
        have hfront : front ≠ [] := fun hnil => by
          subst hnil
          subst hf
          exact hlt UInt64.zero_le
        obtain ⟨item, hi, heq⟩ := hmem hfront
        exact ⟨item, List.mem_append_left _ hi, heq⟩

theorem holds_foldl_insertItem (capacity : Nat) (h : items ≠ []) :
    (items.foldl insertItem (new capacity)).Holds capacity items := by
  have hnewest (name : Char) :
      FirstNewest (marksNamed name items)
      ((items.foldl insertItem (new capacity)).named? name) := by
    rw [named?_foldl_insertItem]
    exact Recency.firstNewest_foldl_keepNewer none _
  have hnames := names_foldl_insertItem capacity items
  have hslot (name : Char) : (localMarkSlot? name).isNone = true ↔ name ∉ localMarkSlots := by
    rw [localMarkSlot?, List.isNone_idxOf?]
  obtain ⟨hle, hmem⟩ := greatest_foldl_insertItem capacity items
  refine ⟨fun name hn => ?_, fun mark hm => ?_, ?_, changes_foldl_insertItem _ items, hle, hmem h⟩
  · obtain ⟨slot, hs⟩ := Option.isSome_iff_exists.mp (List.isSome_idxOf?.mpr hn)
    rw [slotted?, localMarkSlot?, hs]
    exact hnewest name
  · have hnodup : ((items.foldl insertItem (new capacity)).marks.map (·.value.name)).Nodup := by
      rw [hnames]
      exact Recency.nodup_eraseDups _
    have hnamed := hnewest mark.value.name
    rwa [named?, (find?_name_eq_some_iff hnodup).mpr ⟨List.mem_of_mem_filter hm, rfl⟩] at hnamed
  · rw [← hnames, List.filter_map, unslotted]
    refine congrArg _ (List.filter_congr fun mark _ => ?_)
    rw [Bool.eq_iff_iff, hslot]
    simp

end FileMarks

namespace FileMarksMap

/-- Items that change the marks of their files, one after the other: the files
stand in first-seen order, and what is held of a file is made of its own items. -/
theorem entries_foldl_modify {α : Type} (file : α → Path) (put : FileMarks → α → FileMarks)
    (capacity : Nat) (items : List α) :
    (items.foldl (fun m item => m.modify (file item) (put · item))
      (⟨capacity, .empty⟩ : FileMarksMap)).files.entries =
      (items.map file).eraseDups.map fun path =>
        (path, (items.filter (file · == path)).foldl put (.new capacity)) := by
  have hfiles (m : FileMarksMap) :
      (items.foldl (fun m item => m.modify (file item) (put · item)) m).files =
      items.foldl (fun d item => d.alter (file item) fun held =>
        put (held.getD (.new m.changeCapacity)) item) m.files := by
    induction items generalizing m with
    | nil => rfl
    | cons item rest ih => exact ih (m.modify (file item) (put · item))
  rw [hfiles]
  exact Dictionary.entries_foldl_group file put (.new capacity) items

def insertItem (m : FileMarksMap) (file : Path) : FileMarks.Item → FileMarksMap
  | .mark mark => m.insertMark file mark
  | .change change => m.insertChange file change

/-- Puts in marks and changes under files, one after the other. -/
def insertAll (m : FileMarksMap) (items : List (Path × FileMarks.Item)) : FileMarksMap :=
  items.foldl (fun m item => m.insertItem item.1 item.2) m

/-- Files go by the greatest time, the newest first, and those of the same time
as they were first seen. -/
def Precedes (m : FileMarksMap) (a b : Path × FileMarks) : Prop :=
  b.2.greatest < a.2.greatest ∨ a.2.greatest = b.2.greatest ∧ [a, b].Sublist m.files.entries

/-- The files that come first, and behind them all others. -/
theorem exists_top_append_perm (m : FileMarksMap) (n : Nat) :
    (m.top n).length = min n m.files.size ∧
    ∃ others, (m.top n ++ others).Perm m.files.entries ∧
      (m.top n ++ others).Pairwise m.Precedes := by
  have hperm := List.mergeSort_perm m.files.entries fun a b => b.2.greatest ≤ a.2.greatest
  have horder := Recency.pairwise_mergeSort (fun record : Path × FileMarks => record.2.greatest)
    (List.pairwise_iff_forall_sublist.mpr fun {a b} (h : [a, b].Sublist m.files.entries) => h)
  refine ⟨?_, (m.files.entries.mergeSort fun a b => b.2.greatest ≤ a.2.greatest).drop n, ?_⟩
  · rw [top, List.length_take, hperm.length_eq]
    rfl
  · rw [top, List.take_append_drop]
    exact ⟨hperm, horder⟩

/-- Whatever marks and changes are put in under files, in which order: there is one record for
each file, however it was spelled, under its first spelling and in first-seen order, and it
holds what is to be left of the items of this file. The first files are as many as are asked
for or as there are, the newest in front, and none that is left out goes before one of them. -/
theorem insertAll_holds (capacity : Nat) (items : List (Path × FileMarks.Item)) :
    let m := insertAll ⟨capacity, .empty⟩ items
    m.files.keys = (items.map Prod.fst).eraseDups ∧
      (∀ record ∈ m.files.entries,
        record.2.Holds capacity ((items.filter (·.1 == record.1)).map Prod.snd)) ∧
      ∀ n, (m.top n).length = min n m.files.size ∧
        ∃ others, (m.top n ++ others).Perm m.files.entries ∧
        (m.top n ++ others).Pairwise m.Precedes := by
  intro m
  have hm : m = items.foldl (fun m item => m.modify item.1 (·.insertItem item.2))
      ⟨capacity, .empty⟩ := by
    refine List.foldl_ext _ _ _ fun m item _ => ?_
    obtain ⟨file, item⟩ := item
    cases item <;> rfl
  have hentries : m.files.entries = (items.map Prod.fst).eraseDups.map fun path =>
      (path, ((items.filter (·.1 == path)).map Prod.snd).foldl FileMarks.insertItem
        (.new capacity)) := by
    rw [hm, entries_foldl_modify Prod.fst fun f item => f.insertItem item.2]
    simp only [List.foldl_map]
  refine ⟨?_, fun record hr => ?_, m.exists_top_append_perm⟩
  · rw [Dictionary.keys, hentries, List.map_map]
    exact List.map_id _
  · rw [hentries] at hr
    obtain ⟨path, hpath, rfl⟩ := List.mem_map.mp hr
    refine FileMarks.holds_foldl_insertItem capacity fun hnil => ?_
    have hany : (items.map Prod.fst).any (· == path) = true := by
      rw [← any_eraseDups]
      exact List.any_eq_true.mpr ⟨path, hpath, BEq.rfl⟩
    rw [List.any_map] at hany
    obtain ⟨item, hi, hfile⟩ := List.any_eq_true.mp hany
    have hmem : item ∈ items.filter (·.1 == path) := List.mem_filter.mpr ⟨hi, hfile⟩
    rw [List.map_eq_nil_iff.mp hnil] at hmem
    cases hmem

/-- A file that comes in two spellings, with a mark that has no slot and is
renewed by the first of two of the same time, and a file of a newer change. -/
theorem insertAll_holds_spellings :
    let mark (time : Timestamp) (name : Char) (lnum : UInt64) : Timed Mark :=
      ⟨time, { file := .ofAscii "/a", name, lnum }⟩
    let items : List (Path × FileMarks.Item) :=
      [(.ofAscii "/a", .mark (mark 1 'Q' 1)), (.ofAscii "//a/", .mark (mark 4 'Q' 2)),
      (.ofAscii "/b", .change (mark 5 'x' 3)), (.ofAscii "/a", .mark (mark 4 'Q' 4))]
    let m := insertAll ⟨1, .empty⟩ items
    m.files.keys = [.ofAscii "/a", .ofAscii "/b"] ∧ (m.top 1).map Prod.fst = [.ofAscii "/b"] ∧
      ∃ record ∈ m.files.entries, record.2.unslotted = [mark 4 'Q' 2] ∧
        record.2.Holds 1 [.mark (mark 1 'Q' 1), .mark (mark 4 'Q' 2), .mark (mark 4 'Q' 4)] := by
  intro mark items m
  obtain ⟨-, hholds, -⟩ := insertAll_holds 1 items
  have hkeys : m.files.keys = [.ofAscii "/a", .ofAscii "/b"] := by
    rfl
  let record : Path × FileMarks :=
    (.ofAscii "/a", { marks := [mark 4 'Q' 2], changes := ⟨1, []⟩, greatest := 4 })
  let newest : Path × FileMarks :=
    (.ofAscii "/b", { marks := [], changes := ⟨1, [mark 5 'x' 3]⟩, greatest := 5 })
  have hentries : m.files.entries = [record, newest] := by
    rfl
  have htop : (m.top 1).map Prod.fst = [.ofAscii "/b"] := by
    have hpaths : [record, newest].Pairwise fun a b => compare a.1 b.1 = .lt :=
      List.pairwise_pair.mpr rfl
    have horder : [newest, record].Pairwise GoesFirst := List.pairwise_pair.mpr (.inl (by decide))
    have hperm := (List.mergeSort_perm [record, newest] fun a b => b.2.greatest ≤
      a.2.greatest).trans (.swap ..)
    rw [top, hentries, eq_of_goesFirst (goesFirst_mergeSort hpaths) horder hperm]
    rfl
  have hown : (items.filter (·.1 == record.1)).map Prod.snd =
      [.mark (mark 1 'Q' 1), .mark (mark 4 'Q' 2), .mark (mark 4 'Q' 4)] := by
    rfl
  have hmem : record ∈ m.files.entries := hentries ▸ List.mem_cons_self
  exact ⟨hkeys, htop, record, hmem, rfl, hown ▸ hholds record hmem⟩

end FileMarksMap

end SessionStore
