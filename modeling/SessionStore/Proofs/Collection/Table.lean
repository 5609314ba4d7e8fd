import Mathlib.Data.List.Nodup
import Mathlib.Data.List.Perm.Basic
import SessionStore.Collection.Table

/-! What stands in a table under which key. -/
namespace SessionStore.Table

section Keys

variable {κ υ : Type} [Ord κ] {t : Table κ υ} {key : κ}

theorem values_map_eq_keys {name : υ → κ} (h : ∀ e ∈ t.entries, name e.2 = e.1) :
    t.values.map name = t.keys := by
  rw [values, keys, List.map_map]
  exact List.map_congr_left h

def filter (p : κ → Bool) (t : Table κ υ) : Table κ υ :=
  ⟨t.entries.filter fun e => p e.1, t.ascending.filter _⟩

theorem filter_eq_self {p : κ → Bool} (h : ∀ e ∈ t.entries, p e.1 = true) : t.filter p = t := by
  obtain ⟨entries, ascending⟩ := t
  simp only [filter, mk.injEq]
  exact List.filter_eq_self.mpr h

theorem values_filter {p : κ → Bool} {name : υ → κ} (h : ∀ e ∈ t.entries, name e.2 = e.1) :
    (t.filter p).values = t.values.filter fun v => p (name v) := by
  rw [values, values, List.filter_map, filter]
  exact congrArg _ (List.filter_congr fun e he => by rw [Function.comp_apply, h e he])

theorem distinct (t : Table κ υ) : t.entries.Pairwise fun a b => compare a.1 b.1 ≠ .eq :=
  t.ascending.imp fun hlt heq => by
    rw [hlt] at heq
    cases heq

theorem find?_eq_none_iff : t.find? key = none ↔ ∀ e ∈ t.entries, compare e.1 key ≠ .eq := by
  simp [find?]

theorem mem_values_of_find? {v : υ} (h : t.find? key = some v) : v ∈ t.values := by
  obtain ⟨e, he, rfl⟩ := Option.map_eq_some_iff.mp h
  exact List.mem_map_of_mem (List.mem_of_find?_eq_some he)

structure Fresh (t : Table κ υ) (keys : List κ) : Prop where
  distinct : keys.Pairwise fun a b => compare a b ≠ .eq
  absent : ∀ key ∈ keys, t.find? key = none

theorem fresh_empty {keys : List κ} (h : keys.Pairwise fun a b => compare a b ≠ .eq) :
    (empty : Table κ υ).Fresh keys :=
  ⟨h, fun _ _ => rfl⟩

theorem Fresh.tail {keys : List κ} (h : t.Fresh (key :: keys)) : t.Fresh keys :=
  ⟨(List.pairwise_cons.mp h.distinct).2, (List.forall_mem_cons.mp h.absent).2⟩

end Keys

variable {κ υ : Type} [Ord κ] [Std.TransOrd κ] {t : Table κ υ} {key : κ} {v : υ}

omit [Std.TransOrd κ] in
private theorem forall_alterEntries {P : υ → Prop} {f : Option υ → υ} {entries : List (κ × υ)}
    (he : ∀ e ∈ entries, P e.2) (hf : ∀ held, (∀ v ∈ held, P v) → P (f held)) :
    ∀ e ∈ alterEntries key f entries, P e.2 := by
  induction entries with
  | nil => exact List.forall_mem_singleton.mpr (hf none (by simp))
  | cons e rest ih =>
    obtain ⟨hfirst, hrest⟩ := List.forall_mem_cons.mp he
    have hchanged : P (f (some e.2)) := hf (some e.2) (by simpa using hfirst)
    rw [alterEntries]
    split
    · exact List.forall_mem_cons.mpr ⟨hf none (by simp), he⟩
    · exact List.forall_mem_cons.mpr ⟨hchanged, hrest⟩
    · exact List.forall_mem_cons.mpr ⟨hfirst, ih hrest⟩

/-- What holds of all values still does if it holds of the value that is changed. -/
theorem forall_alter {P : υ → Prop} {f : Option υ → υ} (ht : ∀ v ∈ t.values, P v)
    (hf : ∀ held, (∀ v ∈ held, P v) → P (f held)) : ∀ v ∈ (t.alter key f).values, P v :=
  List.forall_mem_map.mpr (forall_alterEntries (List.forall_mem_map.mp ht) hf)

theorem compare_self (key : κ) : compare key key = .eq := Std.ReflCmp.compare_self

theorem compare_ne_symm {a b : κ} (h : compare a b ≠ .eq) : compare b a ≠ .eq :=
  fun hba => h (Std.OrientedCmp.eq_symm hba)

theorem nodup_keys (t : Table κ υ) : t.keys.Nodup :=
  List.pairwise_map.mpr (t.distinct.imp fun {a b} hne (he : a.1 = b.1) =>
    hne (he ▸ compare_self a.1))

theorem nodup_values_map {name : υ → κ} (h : ∀ e ∈ t.entries, name e.2 = e.1) :
    (t.values.map name).Nodup := by
  rw [values_map_eq_keys h]
  exact t.nodup_keys

/-- The order of the keys leaves no choice how to arrange the entries. -/
theorem eq_of_perm {t t' : Table κ υ} (h : t.entries.Perm t'.entries) : t = t' := by
  obtain ⟨entries, ascending⟩ := t
  obtain ⟨entries', ascending'⟩ := t'
  have heq : entries = entries' := by
    refine h.eq_of_pairwise (fun a b _ _ hab hba => ?_) ascending ascending'
    rw [Std.OrientedCmp.gt_of_lt hab] at hba
    cases hba
  subst heq
  rfl

theorem find?_of_mem (h : (key, v) ∈ t.entries) : t.find? key = some v := by
  obtain ⟨entries, ascending⟩ := t
  unfold find?
  dsimp only at h ⊢
  induction entries with
  | nil => cases h
  | cons e rest ih =>
    obtain ⟨hfirst, hrest⟩ := List.pairwise_cons.mp ascending
    rcases List.mem_cons.mp h with rfl | h
    · simp
    · have hlt := hfirst _ h
      have hne : (compare e.1 key == .eq) = false := by
        rw [hlt]
        rfl
      rw [List.find?_cons_of_neg (by simp [hne])]
      exact ih hrest h

/-- A key in front of the first one is not in the table. -/
theorem ne_of_lt_first {e : κ × υ} {rest : List (κ × υ)} (h : compare key e.1 = .lt)
    (hfirst : ∀ e' ∈ rest, compare e.1 e'.1 = .lt) : ∀ e' ∈ e :: rest, compare e'.1 key ≠ .eq := by
  intro e' he' heq
  have hlt : compare key e'.1 = .lt := by
    rcases List.mem_cons.mp he' with rfl | he'
    · exact h
    · exact Std.TransCmp.lt_trans h (hfirst e' he')
  rw [Std.OrientedCmp.eq_symm heq] at hlt
  cases hlt

/-- Only what the key holds counts for a change. -/
theorem alter_eq_insert (t : Table κ υ) (key : κ) (f : Option υ → υ) :
    t.alter key f = t.insert key (f (t.find? key)) := by
  obtain ⟨entries, ascending⟩ := t
  have hentries : alterEntries key f entries =
      alterEntries key (fun _ => f ((entries.find? fun e => compare e.1 key == .eq).map Prod.snd))
      entries := by
    induction entries with
    | nil => rfl
    | cons e rest ih =>
      obtain ⟨hfirst, hrest⟩ := List.pairwise_cons.mp ascending
      unfold alterEntries
      cases hcompare : compare key e.1 with
      | lt =>
        have hnone : ((e :: rest).find? fun e => compare e.1 key == .eq) = none :=
          List.find?_eq_none.mpr fun e' he' => by simpa using ne_of_lt_first hcompare hfirst e' he'
        simp [hnone]
      | eq =>
        have hkey : compare e.1 key = .eq := Std.OrientedCmp.eq_symm hcompare
        simp [hkey]
      | gt =>
        have hkey : compare e.1 key = .lt := Std.OrientedCmp.lt_of_gt hcompare
        simp only [List.find?_cons, hkey]
        rw [ih hrest]
        rfl
  unfold alter insert
  simp only [alter, mk.injEq]
  exact hentries

theorem insert_insert (t : Table κ υ) (key : κ) (v w : υ) :
    (t.insert key v).insert key w = t.insert key w := by
  obtain ⟨entries, ascending⟩ := t
  have hentries : alterEntries key (fun _ => w) (alterEntries key (fun _ => v) entries) =
      alterEntries key (fun _ => w) entries := by
    clear ascending
    induction entries with
    | nil => simp [alterEntries]
    | cons e rest ih =>
      cases hcompare : compare key e.1 with
      | lt => simp [alterEntries, hcompare]
      | eq => simp [alterEntries, hcompare]
      | gt => simp [alterEntries, hcompare, ih]
  simp only [insert, alter, mk.injEq]
  exact hentries

theorem find?_insert_self (t : Table κ υ) (key : κ) (v : υ) :
    (t.insert key v).find? key = some v := by
  obtain ⟨entries, ascending⟩ := t
  simp only [insert, alter, find?]
  clear ascending
  induction entries with
  | nil => simp [alterEntries]
  | cons e rest ih =>
    unfold alterEntries
    cases hcompare : compare key e.1 with
    | lt => simp
    | eq =>
      have hkey : compare e.1 key = .eq := Std.OrientedCmp.eq_symm hcompare
      simp [hkey]
    | gt =>
      have hkey : compare e.1 key = .lt := Std.OrientedCmp.lt_of_gt hcompare
      simpa [hkey] using ih

theorem find?_insert_of_ne (t : Table κ υ) {other : κ} (h : compare key other ≠ .eq) (v : υ) :
    (t.insert key v).find? other = t.find? other := by
  obtain ⟨entries, ascending⟩ := t
  simp only [insert, alter, find?]
  clear ascending
  congr 1
  induction entries with
  | nil => simp [alterEntries, h]
  | cons e rest ih =>
    unfold alterEntries
    cases hcompare : compare key e.1 with
    | lt => simp [h]
    | eq =>
      have hother : compare e.1 other = compare key other := (Std.TransCmp.congr_left hcompare).symm
      simp [hother, h]
    | gt => simp only [List.find?_cons, ih]

theorem find?_congr (t : Table κ υ) {other : κ} (h : compare key other = .eq) :
    t.find? key = t.find? other := by
  have hkeys (e : κ × υ) : (compare e.1 key == .eq) = (compare e.1 other == .eq) := by
    rw [Std.TransCmp.congr_right h]
  simp only [find?, hkeys]

theorem find?_alter (t : Table κ υ) (key other : κ) (f : Option υ → υ) :
    (t.alter key f).find? other =
      if compare key other = .eq then some (f (t.find? key)) else t.find? other := by
  rw [alter_eq_insert]
  split
  · next h => rw [← find?_congr _ h, find?_insert_self]
  · next h => rw [find?_insert_of_ne t h]

/-- A key that is there already stays the one that it is. -/
theorem keys_alter (h : (t.find? key).isSome = true) (f : Option υ → υ) :
    (t.alter key f).keys = t.keys := by
  obtain ⟨entries, ascending⟩ := t
  simp only [keys, alter, find?, Option.isSome_map, List.find?_isSome, beq_iff_eq] at h ⊢
  induction entries with
  | nil => simp at h
  | cons e rest ih =>
    obtain ⟨hfirst, hrest⟩ := List.pairwise_cons.mp ascending
    cases hcompare : compare key e.1 with
    | lt =>
      obtain ⟨held, hheld, heq⟩ := h
      exact absurd heq (ne_of_lt_first hcompare hfirst held hheld)
    | eq => simp [alterEntries, hcompare]
    | gt =>
      have hne : compare e.1 key ≠ .eq := by
        rw [Std.OrientedCmp.lt_of_gt hcompare]
        decide
      have hmem : ∃ held ∈ rest, compare held.1 key = .eq := by simpa [hne] using h
      simp [alterEntries, hcompare, ih hrest hmem]

theorem entries_insert_new (h : ∀ e ∈ t.entries, compare e.1 key ≠ .eq) (v : υ) :
    (t.insert key v).entries.Perm ((key, v) :: t.entries) := by
  obtain ⟨entries, ascending⟩ := t
  simp only [insert, alter] at h ⊢
  clear ascending
  induction entries with
  | nil => exact .refl _
  | cons e rest ih =>
    obtain ⟨hfirst, hrest⟩ := List.forall_mem_cons.mp h
    unfold alterEntries
    cases hcompare : compare key e.1 with
    | lt => exact .refl _
    | eq => exact absurd (Std.OrientedCmp.eq_symm hcompare) hfirst
    | gt => exact ((ih hrest).cons e).trans (.swap ..)

theorem entries_insert_held {rest : List (κ × υ)} {w : υ}
    (h : t.entries.Perm ((key, w) :: rest)) (v : υ) :
    (t.insert key v).entries.Perm ((key, v) :: rest) := by
  obtain ⟨entries, ascending⟩ := t
  simp only [insert, alter] at h ⊢
  have hmem : (key, w) ∈ entries := h.mem_iff.mpr List.mem_cons_self
  have hsplit : ∃ front back, entries = front ++ (key, w) :: back ∧
      alterEntries key (fun _ => v) entries = front ++ (key, v) :: back := by
    clear h
    induction entries with
    | nil => cases hmem
    | cons e others ih =>
      obtain ⟨hfirst, hothers⟩ := List.pairwise_cons.mp ascending
      rcases List.mem_cons.mp hmem with rfl | hm
      · exact ⟨[], others, rfl, by simp [alterEntries]⟩
      · obtain ⟨front, back, he, ha⟩ := ih hothers hm
        have hgt : compare key e.1 = .gt := Std.OrientedCmp.gt_of_lt (hfirst _ hm)
        exact ⟨e :: front, back, by rw [he]; rfl, by simp [alterEntries, hgt, ha]⟩
  obtain ⟨front, back, he, ha⟩ := hsplit
  rw [he] at h
  rw [ha]
  have hrest : (front ++ back).Perm rest := (List.perm_middle.symm.trans h).cons_inv
  exact List.perm_middle.trans (hrest.cons _)

theorem Fresh.insert {keys : List κ} (h : t.Fresh (key :: keys)) (v : υ) :
    (t.insert key v).Fresh keys := by
  obtain ⟨hkey, hkeys⟩ := List.pairwise_cons.mp h.distinct
  obtain ⟨habsent, hrest⟩ := List.forall_mem_cons.mp h.absent
  have hinsert := entries_insert_new (find?_eq_none_iff.mp habsent) v
  refine ⟨hkeys, fun other ho => find?_eq_none_iff.mpr fun e he => ?_⟩
  rcases List.mem_cons.mp (hinsert.mem_iff.mp he) with rfl | he
  · exact hkey other ho
  · exact find?_eq_none_iff.mp (hrest other ho) e he

theorem Fresh.foldl_insert {α : Type} {name : α → κ} {value : α → υ} {items : List α}
    {keys : List κ} (h : t.Fresh (items.map name ++ keys)) :
    (items.foldl (fun t item => t.insert (name item) (value item)) t).Fresh keys := by
  induction items generalizing t with
  | nil => exact h
  | cons item rest ih => exact ih (h.insert (value item))

/-- Values under fresh keys, put in one by one. -/
theorem entries_foldl_insert {α : Type} (key : α → κ) (value : α → υ) {items : List α}
    (h : t.Fresh (items.map key)) :
    (items.foldl (fun t item => t.insert (key item) (value item)) t).entries.Perm
      (t.entries ++ items.map fun item => (key item, value item)) := by
  induction items generalizing t with
  | nil => simp
  | cons item rest ih =>
    have habsent : t.find? (key item) = none := h.absent _ List.mem_cons_self
    have hinsert := entries_insert_new (find?_eq_none_iff.mp habsent) (value item)
    have hfold := ih (h.insert (value item))
    refine hfold.trans ((hinsert.append_right _).trans ?_)
    exact List.perm_middle.symm

theorem distinct_of_perm {entries : List (κ × υ)} (h : entries.Perm t.entries) :
    entries.Pairwise fun a b => compare a.1 b.1 ≠ .eq :=
  (h.pairwise_iff compare_ne_symm).mpr t.distinct

theorem fresh_of_perm {name : υ → κ} (h : ∀ e ∈ t.entries, name e.2 = e.1) {items : List υ}
    (hi : items.Perm t.values) : (empty : Table κ υ).Fresh (items.map name) := by
  have hkeys : (items.map name).Perm t.keys := values_map_eq_keys h ▸ hi.map name
  exact fresh_empty ((hkeys.pairwise_iff compare_ne_symm).mpr (List.pairwise_map.mpr t.distinct))

/-- A table is made up again of its values, in whichever order they come. -/
theorem foldl_insert_eq {name : υ → κ} (h : ∀ e ∈ t.entries, name e.2 = e.1) {items : List υ}
    (hi : items.Perm t.values) :
    items.foldl (fun t item => t.insert (name item) item) .empty = t := by
  have hentries : (t.values.map fun item => (name item, item)) = t.entries := by
    rw [values, List.map_map]
    refine (List.map_congr_left fun e he => ?_).trans (List.map_id _)
    rw [Function.comp_apply, h e he]
    rfl
  apply eq_of_perm
  apply (entries_foldl_insert name id (fresh_of_perm h hi)).trans
  rw [← hentries]
  exact hi.map _

/-- Tables of the same keys are alike in what is alike under each key. -/
theorem forall₂_of_keys {t' : Table κ υ} {R : υ → υ → Prop} (hk : t.keys = t'.keys)
    (h : ∀ key v v', t.find? key = some v → t'.find? key = some v' → R v v') :
    List.Forall₂ (fun e e' => e.1 = e'.1 ∧ R e.2 e'.2) t.entries t'.entries := by
  have hlength : t.entries.length = t'.entries.length := by
    simpa [keys] using congrArg List.length hk
  refine List.forall₂_iff_get.mpr ⟨hlength, fun i hi hi' => ?_⟩
  have hkey : (t.entries.get ⟨i, hi⟩).1 = (t'.entries.get ⟨i, hi'⟩).1 := by
    have hget : t.keys[i]? = t'.keys[i]? := by rw [hk]
    simpa [keys, List.getElem?_eq_getElem hi, List.getElem?_eq_getElem hi'] using hget
  refine ⟨hkey, h _ _ _ (find?_of_mem (List.get_mem _ _)) ?_⟩
  rw [hkey]
  exact find?_of_mem (List.get_mem _ _)

end SessionStore.Table
