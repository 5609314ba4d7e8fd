import SessionStore.Proofs.Collection.TieFree
import SessionStore.Proofs.MergedAgain
import SessionStore.Proofs.RestoredValues
import SessionStore.Proofs.SlotsInTurns
import SessionStore.Proofs.Written

/-! To restore a file and then save over nothing comes to the same as to save over the file. -/
namespace SessionStore

open Merge (entriesOf)
open Recency
open Entry (inSlot)

namespace Merge

variable (settings : Settings) (entries : List Entry) (m : Merge)

end Merge

namespace Session

variable (settings : Settings) (occasion : Occasion) (session : Session) (file : Stream)

end Session

theorem Table.mem_of_find? {υ : Type} {t : Table Char υ} {key : Char} {v : υ}
    (h : t.find? key = some v) : (key, v) ∈ t.entries := by
  obtain ⟨e, he, rfl⟩ := Option.map_eq_some_iff.mp h
  have hkey : e.1 = key := Std.LawfulEqCmp.compare_eq_iff_eq.mp (eq_of_beq (List.find?_some he :))
  exact hkey ▸ List.mem_of_find?_eq_some he

namespace Entry

variable {entry : Entry} {name : Char}

theorem name_of_register? {item : Timed Register} (h : entry.register? name = some item) :
    item.value.name = name := by
  unfold register? at h
  split at h
  · split at h
    · cases h
      assumption
    · cases h
  · cases h

theorem name_of_globalMark? {item : Timed Mark} (h : entry.globalMark? name = some item) :
    item.value.name = name := by
  unfold globalMark? at h
  split at h
  · split at h
    · cases h
      assumption
    · cases h
  · cases h

end Entry

namespace Restore

variable {settings : Settings} {options : RestoreOptions}

/-- A value was there before, or an entry of the stream has it. -/
theorem ChangedBy.mem_or {α : Type} {get : Session → Option (Timed α)}
    {pick : Entry → Option (Timed α)} {on : Bool}
    (h : ChangedBy settings options get pick (replace options on)) {session : Session}
    {stream : Stream} {item : Timed α}
    (hm : get (session.restore settings options stream).1 = some item) :
    get session = some item ∨ ∃ entry, pick entry = some item := by
  rw [h.restore] at hm
  have hitems : ∀ other ∈ stream.entries.filterMap pick, ∃ entry, pick entry = some other :=
    fun other ho => by
    obtain ⟨entry, -, he⟩ := List.mem_filterMap.mp ho
    exact ⟨entry, he⟩
  generalize stream.entries.filterMap pick = items at hm hitems
  generalize get session = held at hm ⊢
  induction items generalizing held with
  | nil => exact .inl hm
  | cons first rest ih =>
    obtain ⟨hfirst, hrest⟩ := List.forall_mem_cons.mp hitems
    rcases ih hrest _ hm with hheld | hpick
    · unfold replace at hheld
      split at hheld
      · exact .inr (hheld ▸ hfirst)
      · exact .inl hheld
    · exact .inr hpick

end Restore

section Restored

variable {settings : Settings} {options : RestoreOptions} {session : Session} (file : Stream)

theorem Session.KeyedByName.restore (hk : session.KeyedByName) :
    (session.restore settings options file).1.KeyedByName := by
  constructor
  · intro e he
    rcases (Restore.changedBy_register settings options e.1).mem_or
      (Table.find?_of_mem he) with hlive | ⟨entry, hp⟩
    · exact hk.registers _ (Table.mem_of_find? hlive)
    · exact Entry.name_of_register? hp
  · intro e he
    rcases (Restore.changedBy_globalMark settings options e.1).mem_or
      (Table.find?_of_mem he) with hlive | ⟨entry, hp⟩
    · exact hk.globalMarks _ (Table.mem_of_find? hlive)
    · exact Entry.name_of_globalMark? hp

variable (hi : options.info = true) (hm : options.marks = true) (hforce : options.force = false)
include hi hm hforce

end Restored

namespace Session

variable {settings : Settings} {options : RestoreOptions} {session : Session} (file : Stream)
  (occasion later : Occasion)

section Entries

variable {file occasion} {entry : Entry}

end Entries

end Session

end SessionStore
