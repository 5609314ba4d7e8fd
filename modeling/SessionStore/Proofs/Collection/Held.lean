import SessionStore.Proofs.Collection.FileMarks
import SessionStore.Proofs.Collection.Late
import SessionStore.Proofs.Collection.Named

/-! What is held already changes nothing when it is put in again. -/
namespace SessionStore

/-- A key whose value stays the same leaves the dictionary as it is. -/
theorem Dictionary.alter_eq_self {κ υ : Type} [BEq κ] {d : Dictionary κ υ} {key : κ} {v : υ}
    {f : Option υ → υ} (h : d.find? key = some v) (hf : f (some v) = v) : d.alter key f = d := by
  obtain ⟨entries, distinct⟩ := d
  apply eq_of_entries
  unfold find? at h
  simp only [alter] at h ⊢
  clear distinct
  induction entries with
  | nil => cases h
  | cons e rest ih =>
    unfold alterEntries
    by_cases hkey : e.1 == key
    · rw [List.find?_cons, hkey] at h
      cases h
      rw [if_pos hkey, hf]
    · rw [List.find?_cons, Bool.eq_false_iff.mpr hkey] at h
      rw [if_neg hkey, ih h]

theorem Bounded.insert_held {α κ : Type} {same : α → α → Bool} {key : α → κ}
    (hsame : ∀ a b, same a b = true ↔ key a = key b) {c : Bounded α same} {item : Timed α}
    (hd : (c.items.map fun item => key item.value).Nodup) (hm : item ∈ c.items) :
    (c.insert item).1 = c := by
  refine insert_unstored (not_isStored_of_late hsame ?_)
  exact late_of_mem hd hm rfl (UInt64.le_refl item.timestamp)

/-- A collection that consists of some items, in whichever order, holds each of them. -/
theorem Bounded.insert_of_perm {α κ : Type} {same : α → α → Bool} {key : α → κ}
    (hsame : ∀ a b, same a b = true ↔ key a = key b) {c : Bounded α same} {items : List (Timed α)}
    (hd : (items.map fun item => key item.value).Nodup) (hc : c.items.Perm items) {item : Timed α}
    (hm : item ∈ items) : (c.insert item).1 = c :=
  insert_held hsame ((hc.map _).nodup_iff.mpr hd) (hc.mem_iff.mpr hm)

namespace FileMarks

variable {f : FileMarks}

theorem touch_eq_self {timestamp : Timestamp} (h : timestamp ≤ f.greatest) :
    f.touch timestamp = f := by
  have hmax : max f.greatest timestamp = f.greatest := by
    show (if f.greatest ≤ timestamp then timestamp else f.greatest) = f.greatest
    split
    · next hle => exact UInt64.le_antisymm h hle
    · rfl
  rw [touch, hmax]

theorem le_greatest_touch (f : FileMarks) (timestamp : Timestamp) :
    f.greatest ≤ (f.touch timestamp).greatest ∧ timestamp ≤ (f.touch timestamp).greatest := by
  show f.greatest ≤ (if f.greatest ≤ timestamp then timestamp else f.greatest) ∧
    timestamp ≤ (if f.greatest ≤ timestamp then timestamp else f.greatest)
  split
  · next hle => exact ⟨hle, UInt64.le_refl _⟩
  · next hlt => exact ⟨UInt64.le_refl _, UInt64.le_of_lt (UInt64.not_le.mp hlt)⟩

theorem insertMark_held {mark : Timed Mark} (hd : (f.marks.map fun mark => mark.value.name).Nodup)
    (hm : mark ∈ f.marks) (hg : mark.timestamp ≤ f.greatest) : (f.insertMark mark).1 = f := by
  have hnamed : f.named? mark.value.name = some mark := (find?_name_eq_some_iff hd).mpr ⟨hm, rfl⟩
  unfold insertMark
  rw [touch_eq_self hg]
  dsimp only
  rw [hnamed]
  dsimp only
  rw [if_pos (UInt64.le_refl _)]

theorem insertChange_held {change : Timed Mark}
    (hd : (f.changes.items.map fun change => change.value.place).Nodup)
    (hm : change ∈ f.changes.items) (hg : change.timestamp ≤ f.greatest) :
    (f.insertChange change).1 = f := by
  unfold insertChange
  rw [touch_eq_self hg]
  dsimp only
  rw [Bounded.insert_held Mark.sameLocation_iff hd hm]

theorem le_greatest_foldl (put : FileMarks → Timed Mark → FileMarks)
    (hput : ∀ f item, (put f item).greatest = (f.touch item.timestamp).greatest) (f : FileMarks)
    (items : List (Timed Mark)) :
    f.greatest ≤ (items.foldl put f).greatest ∧ ∀ item ∈ items, item.timestamp ≤
      (items.foldl put f).greatest := by
  induction items generalizing f with
  | nil => exact ⟨UInt64.le_refl _, by simp⟩
  | cons item rest ih =>
    obtain ⟨hgreatest, hitem⟩ := le_greatest_touch f item.timestamp
    obtain ⟨hput', hrest⟩ := ih (put f item)
    rw [hput] at hput'
    exact ⟨UInt64.le_trans hgreatest hput',
      List.forall_mem_cons.mpr ⟨UInt64.le_trans hitem hput', hrest⟩⟩

/-- The greatest time is no less than that of any mark or change that was put in. -/
theorem le_greatest_extend (f : FileMarks) (marks changes : List (Timed Mark)) :
    ∀ item ∈ marks ++ changes, item.timestamp ≤ (f.extend marks changes).greatest := by
  obtain ⟨-, hmarks⟩ := le_greatest_foldl _ greatest_insertMark f marks
  obtain ⟨hle, hchanges⟩ :=
    le_greatest_foldl (fun f change => (f.insertChange change).1) (fun _ _ => rfl)
    (marks.foldl (fun f mark => (f.insertMark mark).1) f) changes
  intro item hm
  rcases List.mem_append.mp hm with hm | hm
  · exact UInt64.le_trans (hmarks item hm) hle
  · exact hchanges item hm

end FileMarks

theorem FileMarksMap.modify_eq_self {m : FileMarksMap} {file : Path} {held : FileMarks}
    {f : FileMarks → FileMarks} (h : m.get? file = some held) (hf : f held = held) :
    m.modify file f = m := by
  unfold modify
  rw [Dictionary.alter_eq_self h hf]

end SessionStore
