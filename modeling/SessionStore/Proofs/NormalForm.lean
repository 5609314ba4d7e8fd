import SessionStore.Proofs.Layout
import SessionStore.Proofs.NormalMerge
import SessionStore.Proofs.Written

/-! Every file that is written is in normal form. -/
namespace SessionStore

open Merge (entriesOf patternEntries)

theorem FileMarks.names_slotted (f : FileMarks) :
    (f.slotted.map fun mark => mark.value.name).Sublist localMarkSlots := by
  unfold slotted
  generalize localMarkSlots = slots
  induction slots with
  | nil => exact .slnil
  | cons name rest ih =>
    cases hn : f.named? name with
    | none =>
      rw [List.filterMap_cons_none hn]
      exact ih.cons name
    | some mark =>
      have hname : mark.value.name = name := of_decide_eq_true (List.find?_some hn :)
      rw [List.filterMap_cons_some hn, List.map_cons, hname]
      exact ih.cons_cons name

def FileMarks.layout (file : Path) (f : FileMarks) : FileLayout where
  file
  slotted := f.slotted
  changes := f.changes.items
  unslotted := f.unslotted

theorem FileMarks.OneEach.layout {file : Path} {n : Nat} {f : FileMarks} (h : f.OneEach file n) :
    (f.layout file).Normal n := by
  have hmarks : (f.layout file).marks.Perm f.marks := slotted_append_unslotted h.names
  exact
    { ownMarks := fun mark hm => h.own.marks mark (hmarks.mem_iff.mp hm)
      ownChanges := h.own.changes
      slots := f.names_slotted
      unslotted := fun mark hm => (mem_unslotted.mp hm).2
      names := (hmarks.map _).nodup_iff.mpr h.names
      places := h.changes.distinct
      room := h.changes.room }

namespace Merge

variable {settings : Settings} {m : Merge}

def layout (settings : Settings) (occasion : Occasion) (session : Session) (m : Merge) :
    Layout where
  header := ⟨occasion.now, .new occasion settings.maxKbyte⟩
  bufferList := settings.bufferList.map fun limit => ⟨occasion.now, buffers settings session limit⟩
  globalVariables := m.globalVariables.values
  searchPattern :=
    m.searchPattern.map fun p => ⟨p.timestamp, { p.value with isSubstitute := false }⟩
  substitutePattern :=
    m.substitutePattern.map fun p => ⟨p.timestamp, { p.value with isSubstitute := true }⟩
  replacement := m.replacement
  jumps := m.jumps.items
  globalMarks := m.globalMarks.items
  registers := m.registers.items
  files := (m.files.top settings.markedFiles).map fun file => file.2.layout file.1
  history := .ofFn fun type => (m.history.get type).items
  unknown := m.unknown

theorem Normal.layout (h : m.Normal settings) (hu : ∀ entry ∈ m.unknown, entry.kind = .unknown)
    (occasion : Occasion) (session : Session) :
    (m.layout settings occasion session).Normal settings where
  search := by
    intro pattern hp
    obtain ⟨p, -, rfl⟩ := Option.mem_map.mp hp
    rfl
  substitute := by
    intro pattern hp
    obtain ⟨p, -, rfl⟩ := Option.mem_map.mp hp
    rfl
  globalVariables := by
    have hnames : m.globalVariables.values.map (fun v => v.value.name) =
        m.globalVariables.keys := by
      rw [Dictionary.values, Dictionary.keys, List.map_map]
      exact List.map_congr_left h.globalVariables
    show (m.globalVariables.values.map fun v => v.value.name).Nodup
    rw [hnames]
    exact List.pairwise_map.mpr (m.globalVariables.distinct.imp fun hab => ne_of_beq_false hab)
  globalMarks := h.globalMarks.distinct
  registers := h.registers.distinct
  jumps := h.jumps.distinct
  jumpsRoom := h.jumps.room
  files := List.forall_mem_map.mpr fun file hf =>
    (h.files file (FileMarksMap.mem_entries_of_mem_top hf)).layout
  distinct := by
    have hsymm {a b : Path × FileMarks} (hab : (a.1 == b.1) = false) : (b.1 == a.1) = false := by
      rwa [BEq.comm]
    exact List.pairwise_map.mpr
      (FileMarksMap.pairwise_top hsymm m.files.files.distinct settings.markedFiles)
  filesRoom := by
    show ((m.files.top settings.markedFiles).map _).length ≤ _
    rw [List.length_map]
    exact m.files.length_top_le _
  history := fun type => by
    rw [Merge.layout, PerHistory.get_ofFn]
    exact (h.history type).oldestFirst
  texts := fun type => by
    rw [Merge.layout, PerHistory.get_ofFn]
    exact (h.history type).distinct
  historyRoom := fun type => by
    rw [Merge.layout, PerHistory.get_ofFn]
    exact (h.history type).room
  unknown := hu

end Merge

namespace Session

variable {session : Session}

end Session

end SessionStore
