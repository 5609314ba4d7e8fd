import SessionStore.FileMarks
import SessionStore.Proofs.Collection.Bounded
import SessionStore.Proofs.Collection.Dictionary

/-! What is known of files comes from what was put in. -/
namespace SessionStore

/-- The order takes paths for the same exactly if they are the same file. -/
theorem Path.compare_eq_iff {a b : Path} : compare a b = .eq ↔ (a == b) = true := by
  have hkey : a.sortKey = b.sortKey ↔ a.components = b.components :=
    (List.map_injective_iff.mpr fun _ _ => Component.sortKey_injective).eq_iff
  rw [beq_iff, ← hkey]
  show compare a.sortKey b.sortKey = .eq ↔ _
  exact Std.LawfulEqOrd.compare_eq_iff_eq

theorem Path.beq_eq_false_of_compare {a b : Path} (h : compare a b ≠ .eq) : (a == b) = false :=
  Bool.eq_false_iff.mpr fun he => h (compare_eq_iff.mpr he)

structure FileMarks.Within (P Q : Timed Mark → Prop) (f : FileMarks) : Prop where
  marks : ∀ mark ∈ f.marks, P mark
  changes : ∀ change ∈ f.changes.items, Q change

namespace FileMarks

variable {P Q : Timed Mark → Prop} {f : FileMarks}

theorem within_new (n : Nat) : (new n).Within P Q := ⟨by simp [new], by simp [new]⟩

/-- What a mark makes of the marks of a file: nothing where the one of its name is no
older, and else it takes the place of that one, or the last place where there is none. -/
inductive MarkStep (f : FileMarks) (mark : Timed Mark) : List (Timed Mark) → Prop
  | discarded {held : Timed Mark} (hn : f.named? mark.value.name = some held)
    (ht : mark.timestamp ≤ held.timestamp) : MarkStep f mark f.marks
  | replaced {front back : List (Timed Mark)} {held : Timed Mark}
    (hm : f.marks = front ++ held :: back) (hn : held.value.name = mark.value.name)
    (hf : ∀ other ∈ front, other.value.name ≠ mark.value.name)
    (ht : held.timestamp < mark.timestamp) : MarkStep f mark (front ++ mark :: back)
  | inserted (hn : ∀ held ∈ f.marks, held.value.name ≠ mark.value.name) :
    MarkStep f mark (f.marks ++ [mark])

theorem insertMark_step (f : FileMarks) (mark : Timed Mark) :
    ∃ marks, (f.insertMark mark).1 = { f.touch mark.timestamp with marks } ∧
      f.MarkStep mark marks := by
  have htouch : (f.touch mark.timestamp).named? mark.value.name = f.named? mark.value.name := rfl
  unfold insertMark
  dsimp only
  rw [htouch]
  cases hfind : f.named? mark.value.name with
  | none =>
    exact ⟨_, rfl, .inserted fun held hm he =>
      List.find?_eq_none.mp hfind held hm (decide_eq_true he)⟩
  | some held =>
    dsimp only
    split
    · next hle => exact ⟨f.marks, rfl, .discarded hfind hle⟩
    · next hlt =>
      obtain ⟨hs, front, back, hmarks, hfront⟩ := List.find?_eq_some_iff_append.mp hfind
      have hr : Recency.replaceFirst (·.name = mark.value.name) mark f.marks =
          front ++ mark :: back := by
        rw [hmarks]
        exact Recency.replaceFirst_append (by simpa using hfront) hs
      refine ⟨front ++ mark :: back, by rw [← hr]; rfl, ?_⟩
      exact .replaced hmarks (of_decide_eq_true hs) (by simpa using hfront) (UInt64.not_le.mp hlt)

theorem changes_insertMark (f : FileMarks) (mark : Timed Mark) :
    (f.insertMark mark).1.changes = f.changes := by
  obtain ⟨marks, hinsert, -⟩ := f.insertMark_step mark
  rw [hinsert]
  rfl

theorem greatest_insertMark (f : FileMarks) (mark : Timed Mark) :
    (f.insertMark mark).1.greatest = (f.touch mark.timestamp).greatest := by
  obtain ⟨marks, hinsert, -⟩ := f.insertMark_step mark
  rw [hinsert]

theorem Within.insertMark (h : f.Within P Q) {mark : Timed Mark} (hm : P mark) :
    (f.insertMark mark).1.Within P Q := by
  obtain ⟨marks, hinsert, hstep⟩ := f.insertMark_step mark
  rw [hinsert]
  refine ⟨fun other ho => ?_, h.changes⟩
  have hmarks := h.marks
  cases hstep with
  | discarded => exact hmarks other ho
  | replaced hc =>
    rw [hc, List.forall_mem_append, List.forall_mem_cons] at hmarks
    rcases List.mem_append.mp ho with ho | ho
    · exact hmarks.1 other ho
    · rcases List.mem_cons.mp ho with rfl | ho
      · exact hm
      · exact hmarks.2.2 other ho
  | inserted =>
    rcases List.mem_append.mp ho with ho | ho
    · exact hmarks other ho
    · exact List.mem_singleton.mp ho ▸ hm

theorem Within.insertChange (h : f.Within P Q) {change : Timed Mark} (hc : Q change) :
    (f.insertChange change).1.Within P Q :=
  ⟨h.marks, Bounded.forall_insert h.changes hc⟩

theorem Within.extend (h : f.Within P Q) {marks changes : List (Timed Mark)}
    (hm : ∀ mark ∈ marks, P mark) (hc : ∀ change ∈ changes, Q change) :
    (f.extend marks changes).Within P Q := by
  have hmarks : (marks.foldl (fun f mark => (f.insertMark mark).1) f).Within P Q := by
    clear hc
    induction marks generalizing f with
    | nil => exact h
    | cons mark rest ih =>
      obtain ⟨hfirst, hrest⟩ := List.forall_mem_cons.mp hm
      exact ih (h.insertMark hfirst) hrest
  unfold FileMarks.extend
  generalize marks.foldl (fun f mark => (f.insertMark mark).1) f = f at hmarks ⊢
  induction changes generalizing f with
  | nil => exact hmarks
  | cons change rest ih =>
    obtain ⟨hfirst, hrest⟩ := List.forall_mem_cons.mp hc
    exact ih hrest _ (hmarks.insertChange hfirst)

end FileMarks

namespace FileMarksMap

variable {P : FileMarks → Prop}

theorem forall_modify {m : FileMarksMap} {file : Path} {f : FileMarks → FileMarks}
    (hm : ∀ held ∈ m.files.values, P held) (hn : P (.new m.changeCapacity))
    (hf : ∀ held, P held → P (f held)) : ∀ held ∈ (m.modify file f).files.values, P held := by
  refine Dictionary.forall_alter hm fun held hh => hf _ ?_
  cases held with
  | none => exact hn
  | some held => exact hh held rfl

theorem files_foldl_modify (g : Path → FileMarks → FileMarks) (m : FileMarksMap)
    (paths : List Path) : (paths.foldl (fun m file => m.modify file (g file)) m).files =
      paths.foldl (fun d file => d.alter file fun held =>
        g file (held.getD (.new m.changeCapacity))) m.files := by
  induction paths generalizing m with
  | nil => rfl
  | cons path rest ih => exact ih (m.modify path (g path))

theorem mem_entries_of_mem_top {m : FileMarksMap} {n : Nat} {file : Path × FileMarks}
    (h : file ∈ m.top n) : file ∈ m.files.entries :=
  List.mem_mergeSort.mp (List.mem_of_mem_take h)

theorem mem_of_mem_top {m : FileMarksMap} {n : Nat} {file : Path × FileMarks} (h : file ∈ m.top n) :
    file.2 ∈ m.files.values :=
  List.mem_map_of_mem (mem_entries_of_mem_top h)

/-- Any two of them are related as any two of the known files are. -/
theorem pairwise_top {R : Path × FileMarks → Path × FileMarks → Prop}
    (hsymm : ∀ {a b}, R a b → R b a) {m : FileMarksMap} (h : m.files.entries.Pairwise R) (n : Nat) :
    (m.top n).Pairwise R :=
  (((List.mergeSort_perm ..).pairwise_iff hsymm).mpr h).sublist (List.take_sublist ..)

theorem length_top_le (m : FileMarksMap) (n : Nat) : (m.top n).length ≤ n := List.length_take_le ..

end FileMarksMap

end SessionStore
