import SessionStore.Collection.Dictionary

/-! What stands in a dictionary, and in which order. -/
namespace SessionStore.Dictionary

variable {κ υ : Type} [BEq κ]

private theorem forall_alterEntries {P : κ → υ → Prop} {key : κ} {f : Option υ → υ}
    {entries : List (κ × υ)} (he : ∀ e ∈ entries, P e.1 e.2) (hn : P key (f none))
    (hf : ∀ k held, (k == key) = true → P k held → P k (f (some held))) :
    ∀ e ∈ alterEntries key f entries, P e.1 e.2 := by
  induction entries with
  | nil => exact List.forall_mem_singleton.mpr hn
  | cons e rest ih =>
    obtain ⟨he, hr⟩ := List.forall_mem_cons.mp he
    rw [alterEntries]
    split
    · next hkey => exact List.forall_mem_cons.mpr ⟨hf _ _ hkey he, hr⟩
    · exact List.forall_mem_cons.mpr ⟨he, ih hr⟩

/-- What holds of all keys and their values still does if it holds of the value that is changed. -/
theorem forall_entries_alter {P : κ → υ → Prop} {d : Dictionary κ υ} {key : κ} {f : Option υ → υ}
    (hd : ∀ e ∈ d.entries, P e.1 e.2) (hn : P key (f none))
    (hf : ∀ k held, (k == key) = true → P k held → P k (f (some held))) :
    ∀ e ∈ (d.alter key f).entries, P e.1 e.2 :=
  forall_alterEntries hd hn hf

theorem forall_alter {P : υ → Prop} {d : Dictionary κ υ} {key : κ} {f : Option υ → υ}
    (hd : ∀ v ∈ d.values, P v) (hf : ∀ held, (∀ v ∈ held, P v) → P (f held)) :
    ∀ v ∈ (d.alter key f).values, P v := by
  have hentries : ∀ e ∈ d.entries, P e.2 := List.forall_mem_map.mp hd
  refine List.forall_mem_map.mpr
    (forall_entries_alter (P := fun _ => P) hentries (hf none (by simp)) ?_)
  exact fun _ held _ hh => hf (some held) (by simpa using hh)

private theorem mem_alterEntries_const [LawfulBEq κ] {key : κ} {v : υ} {e : κ × υ}
    {entries : List (κ × υ)} (h : e ∈ alterEntries key (fun _ => v) entries) : e = (key, v) ∨
      e ∈ entries := by
  induction entries with
  | nil => exact .inl (List.mem_singleton.mp h)
  | cons first rest ih =>
    rw [alterEntries] at h
    split at h
    · next hkey =>
      rcases List.mem_cons.mp h with rfl | h
      · exact .inl (by rw [eq_of_beq hkey])
      · exact .inr (List.mem_cons_of_mem _ h)
    · rcases List.mem_cons.mp h with rfl | h
      · exact .inr List.mem_cons_self
      · exact (ih h).imp_right (List.mem_cons_of_mem _)

theorem mem_of_mem_insert [LawfulBEq κ] {d : Dictionary κ υ} {key : κ} {v : υ} {e : κ × υ}
    (h : e ∈ (d.insert key v).entries) : e = (key, v) ∨ e ∈ d.entries :=
  mem_alterEntries_const h

theorem mem_values_of_find? {d : Dictionary κ υ} {key : κ} {v : υ} (h : d.find? key = some v) :
    v ∈ d.values := by
  obtain ⟨e, he, rfl⟩ := Option.map_eq_some_iff.mp h
  exact List.mem_map_of_mem (List.mem_of_find?_eq_some he)

theorem eq_of_entries {d d' : Dictionary κ υ} (h : d.entries = d'.entries) : d = d' := by
  cases d
  cases d'
  cases h
  rfl

theorem entries_alter_new {d : Dictionary κ υ} {key : κ} (h : ∀ e ∈ d.entries, (e.1 == key) = false)
    (f : Option υ → υ) : (d.alter key f).entries = d.entries ++ [(key, f none)] := by
  obtain ⟨entries, distinct⟩ := d
  simp only [alter] at h ⊢
  clear distinct
  induction entries with
  | nil => rfl
  | cons e rest ih =>
    obtain ⟨hfirst, hrest⟩ := List.forall_mem_cons.mp h
    simp [alterEntries, hfirst, ih hrest]

theorem find?_insert_self [ReflBEq κ] (d : Dictionary κ υ) (key : κ) (v : υ) :
    (d.insert key v).find? key = some v := by
  obtain ⟨entries, distinct⟩ := d
  simp only [insert, alter, find?]
  clear distinct
  induction entries with
  | nil => simp [alterEntries]
  | cons e rest ih =>
    by_cases hkey : e.1 == key
    · simp [alterEntries, hkey]
    · simpa [alterEntries, hkey] using ih

theorem find?_insert_of_ne [EquivBEq κ] (d : Dictionary κ υ) {key other : κ}
    (h : (key == other) = false) (v : υ) : (d.insert key v).find? other = d.find? other := by
  obtain ⟨entries, distinct⟩ := d
  simp only [insert, alter, find?]
  clear distinct
  congr 1
  induction entries with
  | nil => simp [alterEntries, h]
  | cons e rest ih =>
    by_cases hkey : e.1 == key
    · have hother : (e.1 == other) = false := by rw [BEq.congr_left hkey, h]
      simp [alterEntries, hkey, hother]
    · simp only [alterEntries, hkey, Bool.false_eq_true, if_false, List.find?_cons, ih]

theorem find?_congr [EquivBEq κ] (d : Dictionary κ υ) {key other : κ} (h : (key == other) = true) :
    d.find? key = d.find? other := by
  have hkeys (e : κ × υ) : (e.1 == key) = (e.1 == other) := BEq.congr_right h
  simp only [find?, hkeys]

/-- Of two changes under one key the second one finds what the first one put there. -/
theorem alter_alter [ReflBEq κ] (d : Dictionary κ υ) (key : κ) (f g : Option υ → υ) :
    (d.alter key f).alter key g = d.alter key fun held => g (some (f held)) := by
  obtain ⟨entries, distinct⟩ := d
  apply eq_of_entries
  simp only [alter]
  clear distinct
  induction entries with
  | nil => simp [alterEntries]
  | cons e rest ih =>
    by_cases hkey : e.1 == key
    · simp [alterEntries, hkey]
    · simp [alterEntries, hkey, ih]

theorem insert_insert [ReflBEq κ] (d : Dictionary κ υ) (key : κ) (v w : υ) :
    (d.insert key v).insert key w = d.insert key w :=
  alter_alter ..

theorem insertNew_insertNew [ReflBEq κ] (d : Dictionary κ υ) (key : κ) (v w : υ) :
    (d.insertNew key v).insertNew key w = d.insertNew key v :=
  alter_alter ..

theorem find?_of_mem [ReflBEq κ] {d : Dictionary κ υ} {key : κ} {v : υ} (h : (key, v) ∈ d.entries) :
    d.find? key = some v := by
  obtain ⟨front, back, hentries⟩ := List.append_of_mem h
  have hdistinct := d.distinct
  rw [hentries] at hdistinct
  have hfront : ∀ e ∈ front, (e.1 == key) = false := fun e he =>
    (List.pairwise_append.mp hdistinct).2.2 e he (key, v) List.mem_cons_self
  have hfind : d.entries.find? (·.1 == key) = some (key, v) :=
    List.find?_eq_some_iff_append.mpr ⟨BEq.rfl, front, back, hentries,
      fun e he => by rw [hfront e he]; rfl⟩
  rw [find?, hfind]
  rfl

theorem find?_eq_none_iff {d : Dictionary κ υ} {key : κ} :
    d.find? key = none ↔ ∀ e ∈ d.entries, (e.1 == key) = false := by
  simp [find?]

/-- Different keys, none of which the dictionary has. -/
structure Fresh (d : Dictionary κ υ) (keys : List κ) : Prop where
  distinct : keys.Pairwise fun a b => (a == b) = false
  absent : ∀ key ∈ keys, ∀ e ∈ d.entries, (e.1 == key) = false

theorem fresh_empty {keys : List κ} (h : keys.Pairwise fun a b => (a == b) = false) :
    (empty : Dictionary κ υ).Fresh keys :=
  ⟨h, fun _ _ e he => by cases he⟩

theorem Fresh.tail {d : Dictionary κ υ} {key : κ} {keys : List κ} (h : d.Fresh (key :: keys)) :
    d.Fresh keys :=
  ⟨(List.pairwise_cons.mp h.distinct).2, (List.forall_mem_cons.mp h.absent).2⟩

theorem Fresh.alter {d : Dictionary κ υ} {key : κ} {keys : List κ} (h : d.Fresh (key :: keys))
    (f : Option υ → υ) : (d.alter key f).Fresh keys := by
  obtain ⟨hkey, hkeys⟩ := List.pairwise_cons.mp h.distinct
  obtain ⟨habsent, hrest⟩ := List.forall_mem_cons.mp h.absent
  refine ⟨hkeys, fun other ho e he => ?_⟩
  rw [entries_alter_new habsent] at he
  rcases List.mem_append.mp he with he | he
  · exact hrest other ho e he
  · cases List.mem_singleton.mp he
    exact hkey other ho

/-- Values under fresh keys, put in one by one. -/
theorem entries_foldl_alter {α : Type} (key : α → κ) (f : α → Option υ → υ) {items : List α}
    {d : Dictionary κ υ} (h : d.Fresh (items.map key)) :
    (items.foldl (fun d item => d.alter (key item) (f item)) d).entries =
      d.entries ++ items.map fun item => (key item, f item none) := by
  induction items generalizing d with
  | nil => exact (List.append_nil _).symm
  | cons item rest ih =>
    have halter := entries_alter_new (h.absent _ List.mem_cons_self) (f item)
    rw [List.foldl_cons, ih (h.alter (f item)), halter, List.append_assoc]
    rfl

end SessionStore.Dictionary
