import SessionStore.Disk
import SessionStore.Proofs.Collection.Table
import SessionStore.Proofs.Results

/-! What is where on a disk after something was put there or taken away, and
where paths lead then. -/
namespace SessionStore

theorem Table.erase_insert_new {κ υ : Type} [Ord κ] [Std.TransOrd κ] {t : Table κ υ} {key : κ}
    (h : t.find? key = none) (v : υ) : (t.insert key v).erase key = t := by
  have habsent := find?_eq_none_iff.mp h
  have hkept : t.entries.filter (fun e => compare e.1 key != .eq) = t.entries :=
    List.filter_eq_self.mpr fun e he => by simpa using habsent e he
  apply eq_of_perm
  have hperm := (entries_insert_new habsent v).filter fun e => compare e.1 key != .eq
  rw [List.filter_cons_of_neg (by simp), hkept] at hperm
  exact hperm

namespace Disk

variable {disk : Disk} {location other : Location} {node : Node}

theorem ne_nil_of_node?_eq_none (h : disk.node? location = none) : location ≠ [] := by
  rintro rfl
  cases h

theorem find?_of_node?_eq_none (h : disk.node? location = none) :
    disk.nodes.find? location = none := by
  rwa [node?, if_neg (ne_nil_of_node?_eq_none h)] at h

theorem node?_put_self (h : location ≠ []) (node : Node) :
    (disk.put location node).node? location = some node := by
  rw [node?, if_neg h]
  exact Table.find?_insert_self ..

theorem node?_put_of_ne (h : other ≠ location) (node : Node) :
    (disk.put location node).node? other = disk.node? other := by
  have hne : compare location other ≠ .eq := fun he => h (Std.LawfulEqCmp.eq_of_compare he).symm
  unfold node?
  split
  · rfl
  · exact Table.find?_insert_of_ne _ hne _

theorem put_put (disk : Disk) (location : Location) (node node' : Node) :
    (disk.put location node).put location node' = disk.put location node' := by
  unfold put
  rw [Table.insert_insert]

theorem remove_put (h : disk.node? location = none) (node : Node) :
    (disk.put location node).remove location = disk := by
  unfold remove put
  rw [Table.erase_insert_new (find?_of_node?_eq_none h)]

theorem rename_put (h : disk.node? location = none) (node : Node) (target : Location) :
    (disk.put location node).rename location target = disk.put target node := by
  rw [rename, node?_put_self (ne_nil_of_node?_eq_none h), remove_put h]

theorem createNew_eq_ok {path : Path} {mode : Nat} {made : Disk}
    (h : disk.createNew path mode = .ok (location, made)) :
    disk.node? location = none ∧ made = disk.put location (.file mode []) := by
  obtain ⟨found, -, h⟩ := Results.bind_eq_ok_iff.mp h
  split at h
  · cases h
  · next hnone =>
    obtain ⟨rfl, rfl⟩ := Prod.mk.inj (Except.ok.inj h)
    exact ⟨by simpa using hnone, rfl⟩

theorem find_eq_ok {path : Path} (h : disk.find path = .ok (location, node)) :
    disk.locate path = .ok location ∧ disk.node? location = some node := by
  obtain ⟨found, hlocate, h⟩ := Results.bind_eq_ok_iff.mp h
  split at h
  · cases h
  · next hnode =>
    obtain ⟨rfl, rfl⟩ := Prod.mk.inj (Except.ok.inj h)
    exact ⟨hlocate, hnode⟩
  · next hnode =>
    split at h
    · cases h
    · obtain ⟨rfl, rfl⟩ := Prod.mk.inj (Except.ok.inj h)
      exact ⟨hlocate, hnode⟩

theorem createNew_of_find {path : Path} (h : disk.find path = .ok (location, node)) (mode : Nat) :
    disk.createNew path mode = .error .alreadyExists := by
  obtain ⟨hlocate, hnode⟩ := find_eq_ok h
  unfold createNew
  rw [hlocate, Results.ok_bind, hnode]
  rfl

section Replaced

variable {mode mode' : Nat} {bytes bytes' : Bytes}
  (h : disk.node? location = some (.file mode bytes))
include h

theorem ne_nil_of_file : location ≠ [] := by
  rintro rfl
  cases h

theorem isDirectoryAt_put_file (other : Location) :
    (disk.put location (.file mode' bytes')).isDirectoryAt other = disk.isDirectoryAt other := by
  unfold isDirectoryAt
  by_cases heq : other = location
  · rw [heq, node?_put_self (ne_nil_of_file h), h]
  · rw [node?_put_of_ne heq]

theorem isSome_node?_put_file (other : Location) :
    ((disk.put location (.file mode' bytes')).node? other).isSome = (disk.node? other).isSome := by
  by_cases heq : other = location
  · rw [heq, node?_put_self (ne_nil_of_file h), h]
    rfl
  · rw [node?_put_of_ne heq]

theorem walk_put_file (start : Location) (segments : List Bytes) :
    (disk.put location (.file mode' bytes')).walk start segments = disk.walk start segments := by
  induction segments generalizing start with
  | nil => rfl
  | cons segment rest ih =>
    unfold walk step
    rw [isDirectoryAt_put_file h, isSome_node?_put_file h]
    simp only [ih]

/-- Where a file takes the place of another one, all paths lead where they led. -/
theorem locate_put_file (path : Path) :
    (disk.put location (.file mode' bytes')).locate path = disk.locate path := by
  unfold locate
  simp only [walk_put_file h]
  rfl

end Replaced

theorem openForReading_eq_ok {path : Path} (h : disk.openForReading path = .ok (location, node)) :
    disk.find path = .ok (location, node) := by
  obtain ⟨⟨place, found⟩, hfind, h⟩ := Results.bind_eq_ok_iff.mp h
  cases found with
  | file mode bytes =>
    dsimp only at h
    split at h
    · cases h
      exact hfind
    · cases h
  | directory =>
    cases h
    exact hfind

/-- A file in the place of one that could be opened is what is opened by the
same path, if it may be read. -/
theorem openForReading_put_file {path : Path} {mode mode' : Nat} {bytes : Bytes}
    (h : disk.openForReading path = .ok (location, .file mode bytes)) (hr : isReadable mode' = true)
    (bytes' : Bytes) :
    (disk.put location (.file mode' bytes')).openForReading path =
      .ok (location, .file mode' bytes') := by
  have hfind := openForReading_eq_ok h
  obtain ⟨hlocate, hnode⟩ := find_eq_ok hfind
  have hfile : asksForDirectory path = false := by
    rw [find, hlocate, Results.ok_bind, hnode] at hfind
    dsimp only at hfind
    split at hfind
    · cases hfind
    · next hnot => exact Bool.eq_false_iff.mpr hnot
  have hfind' : (disk.put location (.file mode' bytes')).find path =
      .ok (location, .file mode' bytes') := by
    rw [find, locate_put_file hnode, hlocate, Results.ok_bind,
      node?_put_self (ne_nil_of_file hnode)]
    simp only [hfile]
    rfl
  rw [openForReading, hfind', Results.ok_bind]
  dsimp only
  rw [if_pos hr]
  rfl

end Disk

end SessionStore
