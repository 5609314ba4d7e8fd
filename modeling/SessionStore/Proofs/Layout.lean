import Mathlib.Data.List.Nodup
import SessionStore.Proofs.Collection.InOrder
import SessionStore.Save

/-! The normal form of a file: the order in which its entries come, and what no
two of them share. -/
namespace SessionStore

open Merge (entriesOf)

def Timed.passes {α : Type} (p : Entry → Bool) (content : α → Content) (item : Timed α) : Bool :=
  p ⟨item.timestamp, content item.value⟩

/-- The local marks and the changes of one file in the order in which they are
written: the marks that have a slot, the changes, and the other marks. -/
structure FileLayout where
  file : Path
  slotted : List (Timed Mark)
  changes : List (Timed Mark)
  unslotted : List (Timed Mark)

namespace FileLayout

def marks (f : FileLayout) : List (Timed Mark) := f.slotted ++ f.unslotted

def entries (f : FileLayout) : List Entry :=
  entriesOf .localMark f.slotted ++ entriesOf .change f.changes ++ entriesOf .localMark f.unslotted

def filter (p : Entry → Bool) (f : FileLayout) : FileLayout where
  file := f.file
  slotted := f.slotted.filter (Timed.passes p .localMark)
  changes := f.changes.filter (Timed.passes p .change)
  unslotted := f.unslotted.filter (Timed.passes p .localMark)

/-- All is in the one file. Marks with a slot come in the order of the slots. No two marks have the
same name and no two changes the same place, and there are no more changes than are allowed. -/
structure Normal (limit : Nat) (f : FileLayout) : Prop where
  ownMarks : ∀ mark ∈ f.marks, (mark.value.file == f.file) = true
  ownChanges : ∀ change ∈ f.changes, (change.value.file == f.file) = true
  slots : (f.slotted.map fun mark => mark.value.name).Sublist localMarkSlots
  unslotted : ∀ mark ∈ f.unslotted, mark.value.name ∉ localMarkSlots
  names : (f.marks.map fun mark => mark.value.name).Nodup
  places : (f.changes.map fun change => change.value.place).Nodup
  room : f.changes.length ≤ limit

theorem Normal.filter {limit : Nat} {f : FileLayout} (h : f.Normal limit) (p : Entry → Bool) :
    (f.filter p).Normal limit := by
  have hmarks : (f.filter p).marks.Sublist f.marks := List.filter_sublist.append List.filter_sublist
  have hchanges : (f.filter p).changes.Sublist f.changes := List.filter_sublist
  exact
    { ownMarks := fun mark hm => h.ownMarks mark (hmarks.mem hm)
      ownChanges := fun change hc => h.ownChanges change (hchanges.mem hc)
      slots := (List.filter_sublist.map _).trans h.slots
      unslotted := fun mark hm => h.unslotted mark (List.mem_of_mem_filter hm)
      names := h.names.sublist (hmarks.map _)
      places := h.places.sublist (hchanges.map _)
      room := Nat.le_trans hchanges.length_le h.room }

end FileLayout

/-- The entries of a file, kind by kind in the order in which they are written. -/
structure Layout where
  header : Timed Header
  bufferList : Option (Timed (List Buffer))
  globalVariables : List (Timed Variable)
  searchPattern : Option (Timed SearchPattern)
  substitutePattern : Option (Timed SearchPattern)
  replacement : Option (Timed Replacement)
  jumps : List (Timed Mark)
  globalMarks : List (Timed Mark)
  registers : List (Timed Register)
  files : List FileLayout
  history : PerHistory (List (Timed HistoryItem))
  unknown : List Entry

namespace Layout

def entries (l : Layout) : List Entry :=
  entriesOf .header [l.header] ++ entriesOf .bufferList l.bufferList.toList ++
    entriesOf .variable l.globalVariables ++
    entriesOf .searchPattern l.searchPattern.toList ++
    entriesOf .searchPattern l.substitutePattern.toList ++
    entriesOf .replacement l.replacement.toList ++
    entriesOf .jump l.jumps ++
    entriesOf .globalMark l.globalMarks ++
    entriesOf .register l.registers ++
    l.files.flatMap FileLayout.entries ++
    HistoryType.all.flatMap (fun type => entriesOf .history (l.history.get type)) ++
    l.unknown

def filter (p : Entry → Bool) (l : Layout) : Layout where
  header := l.header
  bufferList := l.bufferList.filter (Timed.passes p .bufferList)
  globalVariables := l.globalVariables.filter (Timed.passes p .variable)
  searchPattern := l.searchPattern.filter (Timed.passes p .searchPattern)
  substitutePattern := l.substitutePattern.filter (Timed.passes p .searchPattern)
  replacement := l.replacement.filter (Timed.passes p .replacement)
  jumps := l.jumps.filter (Timed.passes p .jump)
  globalMarks := l.globalMarks.filter (Timed.passes p .globalMark)
  registers := l.registers.filter (Timed.passes p .register)
  files := l.files.map (FileLayout.filter p)
  history := .ofFn fun type => (l.history.get type).filter (Timed.passes p .history)
  unknown := l.unknown.filter p

/-- What no two entries of a file share, the order within a kind, and the limits. -/
structure Normal (settings : Settings) (l : Layout) : Prop where
  search : ∀ pattern ∈ l.searchPattern, pattern.value.isSubstitute = false
  substitute : ∀ pattern ∈ l.substitutePattern, pattern.value.isSubstitute = true
  globalVariables : (l.globalVariables.map fun v => v.value.name).Nodup
  globalMarks : (l.globalMarks.map fun mark => mark.value.name).Nodup
  registers : (l.registers.map fun register => register.value.name).Nodup
  jumps : (l.jumps.map fun jump => jump.value.place).Nodup
  jumpsRoom : l.jumps.length ≤ settings.jumps
  files : ∀ f ∈ l.files, f.Normal settings.changes
  distinct : l.files.Pairwise fun a b => (a.file == b.file) = false
  filesRoom : l.files.length ≤ settings.markedFiles
  history : ∀ type, Recency.OldestFirst (l.history.get type)
  texts : ∀ type, ((l.history.get type).map fun line => line.value.text).Nodup
  historyRoom : ∀ type, (l.history.get type).length ≤ settings.history.get type
  unknown : ∀ entry ∈ l.unknown, entry.kind = .unknown

theorem Normal.filter {settings : Settings} {l : Layout} (h : l.Normal settings)
    (p : Entry → Bool) : (l.filter p).Normal settings where
  search := fun pattern hp => h.search pattern (Option.mem_filter_iff.mp hp).1
  substitute := fun pattern hp => h.substitute pattern (Option.mem_filter_iff.mp hp).1
  globalVariables := h.globalVariables.sublist (List.filter_sublist.map _)
  globalMarks := h.globalMarks.sublist (List.filter_sublist.map _)
  registers := h.registers.sublist (List.filter_sublist.map _)
  jumps := h.jumps.sublist (List.filter_sublist.map _)
  jumpsRoom := Nat.le_trans List.filter_sublist.length_le h.jumpsRoom
  files := List.forall_mem_map.mpr fun f hf => (h.files f hf).filter p
  distinct := List.pairwise_map.mpr h.distinct
  filesRoom := by
    rw [Layout.filter, List.length_map]
    exact h.filesRoom
  history := fun type => by
    rw [Layout.filter, PerHistory.get_ofFn]
    exact (h.history type).filter _
  texts := fun type => by
    rw [Layout.filter, PerHistory.get_ofFn]
    exact (h.texts type).sublist (List.filter_sublist.map _)
  historyRoom := fun type => by
    rw [Layout.filter, PerHistory.get_ofFn]
    exact Nat.le_trans List.filter_sublist.length_le (h.historyRoom type)
  unknown := fun entry he => h.unknown entry (List.mem_of_mem_filter he)

end Layout

end SessionStore
