import Mathlib.Data.List.Nodup
import SessionStore.Proofs.Collection.Bounded
import SessionStore.Save.Merge

/-! Collections with room for every name: nothing in them ever has to make room. -/
namespace SessionStore

namespace Timed

variable {α : Type}

theorem keepNewer_of_le {held item : Timed α} (h : item.timestamp ≤ held.timestamp) :
    keepNewer (some held) item = some held := by
  have hlt : ¬held.timestamp < item.timestamp := UInt64.not_lt.mpr h
  simp [keepNewer, hlt]

theorem keepNewer_of_lt {held item : Timed α} (h : held.timestamp < item.timestamp) :
    keepNewer (some held) item = some item := by
  simp [keepNewer, h]

theorem keepNewer_of_mem {held : Option (Timed α)} {item newer : Timed α} (hm : newer ∈ held)
    (h : item.timestamp ≤ newer.timestamp) : keepNewer held item = held := by
  cases hm
  exact keepNewer_of_le h

@[simp] theorem keepNewer_none (item : Timed α) : keepNewer none item = some item := rfl

end Timed

section Lookup

variable {α : Type} {name : α → Char} {items items' : List (Timed α)} {n : Char} {held : Timed α}

/-- Where every name stands once, whatever has a name is what is found under it. -/
theorem find?_name_eq_some_iff (hn : (items.map fun item => name item.value).Nodup) :
    items.find? (fun item => name item.value = n) = some held ↔ held ∈ items ∧
      name held.value = n :=
  Recency.find?_eq_some_iff_of_nodup hn fun _ => decide_eq_true_iff

theorem find?_name_congr (hn : (items.map fun item => name item.value).Nodup)
    (hn' : (items'.map fun item => name item.value).Nodup)
    (h : ∀ item, name item.value = n → (item ∈ items ↔ item ∈ items')) :
    items.find? (fun item => name item.value = n) = items'.find? fun item =>
      name item.value = n := by
  apply Option.ext
  intro item
  rw [find?_name_eq_some_iff hn, find?_name_eq_some_iff hn']
  exact and_congr_left fun hname => h item hname

/-- What is found under a name is all there is of this name. -/
theorem filter_name_eq_find? (hn : (items.map fun item => name item.value).Nodup) :
    items.filter (fun item => name item.value = n) =
      (items.find? fun item => name item.value = n).toList := by
  induction items with
  | nil => rfl
  | cons first rest ih =>
    obtain ⟨hfirst, hrest⟩ := List.nodup_cons.mp hn
    by_cases hname : name first.value = n
    · have hnil : rest.filter (fun item => name item.value = n) = [] := by
        apply List.filter_eq_nil_iff.mpr
        intro item hm hd
        have hitem : name item.value = n := of_decide_eq_true hd
        exact hfirst (List.mem_map.mpr ⟨item, hm, hitem.trans hname.symm⟩)
      simp [hname, hnil]
    · simp [hname, ih hrest]

end Lookup

namespace Bounded

variable {α : Type} {same : α → α → Bool} {name : α → Char} {names : List Char} {c : Bounded α same}

/-- A collection of items with certain names, no two of one name, and with room for one of each. -/
structure OnePerName (name : α → Char) (names : List Char) (c : Bounded α same) : Prop where
  room : names.length ≤ c.capacity
  distinct : (c.items.map fun item => name item.value).Nodup
  within : ∀ item ∈ c.items, name item.value ∈ names

def named? (name : α → Char) (c : Bounded α same) (n : Char) : Option (Timed α) :=
  c.items.find? fun item => name item.value = n

/-- There is room for every name that is not there yet. -/
theorem OnePerName.length_lt (h : c.OnePerName name names) {n : Char} (hn : n ∈ names)
    (hout : ∀ item ∈ c.items, name item.value ≠ n) : c.items.length < c.capacity := by
  have hnot : n ∉ c.items.map fun item => name item.value := by
    intro hm
    obtain ⟨item, hi, rfl⟩ := List.mem_map.mp hm
    exact hout item hi rfl
  have hnodup : (n :: c.items.map fun item => name item.value).Nodup :=
    List.nodup_cons.mpr ⟨hnot, h.distinct⟩
  have hsubset : (n :: c.items.map fun item => name item.value) ⊆ names :=
    List.cons_subset.mpr ⟨hn, List.forall_mem_map.mpr h.within⟩
  have hle := (List.subperm_of_subset hnodup hsubset).length_le
  have hroom := h.room
  simp only [List.length_cons, List.length_map] at hle
  omega

/-- As long as every name stands once, it is enough to know which items there are. -/
theorem OnePerName.of_items (h : c.OnePerName name names) {item : Timed α}
    (hi : name item.value ∈ names) {c' : Bounded α same} (hcapacity : c'.capacity = c.capacity)
    (hdistinct : (c'.items.map fun item => name item.value).Nodup)
    (hother : ∀ held, name held.value ≠ name item.value → (held ∈ c'.items ↔ held ∈ c.items))
    (hitem : c'.named? name (name item.value) =
      Timed.keepNewer (c.named? name (name item.value)) item) :
    c'.OnePerName name names ∧ ∀ n, c'.named? name n =
      if name item.value = n then Timed.keepNewer (c.named? name n) item else c.named? name n := by
  refine ⟨⟨hcapacity ▸ h.room, hdistinct, fun held hm => ?_⟩, fun n => ?_⟩
  · by_cases hname : name held.value = name item.value
    · exact hname ▸ hi
    · exact h.within held ((hother held hname).mp hm)
  · by_cases hn : name item.value = n
    · subst hn
      rw [if_pos rfl, hitem]
    · rw [if_neg hn]
      exact find?_name_congr hdistinct h.distinct fun held hname => hother held fun he =>
        hn (he.symm.trans hname)

/-- The names of a collection after an insertion, and what is found under each of them. -/
theorem OnePerName.insert (hsame : ∀ a b, same a b = true ↔ name a = name b)
    (h : c.OnePerName name names) {item : Timed α} (hi : name item.value ∈ names) :
    (c.insert item).1.OnePerName name names ∧ ∀ n, (c.insert item).1.named? name n =
      if name item.value = n then Timed.keepNewer (c.named? name n) item else c.named? name n := by
  have hstep := c.insert_step item
  have hout (hn : ∀ held ∈ c.items, same held.value item.value = false) :
      ∀ held ∈ c.items, name held.value ≠ name item.value := fun held hm he =>
    Bool.eq_false_iff.mp (hn held hm) ((hsame _ _).mpr he)
  have hfound := h.of_items hi (c.capacity_insert item)
  unfold named? at hfound ⊢
  generalize (c.insert item).1 = inserted at hstep hfound ⊢
  generalize inserted.items = items at hstep hfound
  cases hstep with
  | noRoom hc =>
    have hpos := List.length_pos_of_mem hi
    have hle := h.room
    omega
  | @discarded held hm hs ht =>
    have hheld := (find?_name_eq_some_iff h.distinct).mpr ⟨hm, (hsame _ _).mp hs⟩
    apply hfound h.distinct fun _ _ => Iff.rfl
    rw [hheld, Timed.keepNewer_of_le ht]
  | @replaced front back held hc hs hf ht =>
    have hname := (hsame _ _).mp hs
    have hdistinct : ((front ++ item :: back).map fun item => name item.value).Nodup := by
      have := h.distinct
      rw [hc] at this
      simpa only [List.map_append, List.map_cons, hname] using this
    have hmem : held ∈ c.items := hc ▸ List.mem_append_right _ List.mem_cons_self
    have hheld := (find?_name_eq_some_iff h.distinct).mpr ⟨hmem, hname⟩
    apply hfound hdistinct
    · intro other ho
      have hne : other ≠ item := fun he => ho (congrArg (fun item => name item.value) he)
      have hne' : other ≠ held :=
        fun he => ho ((congrArg (fun item => name item.value) he).trans hname)
      simp [hc, hne, hne']
    · rw [hheld, Timed.keepNewer_of_lt ht]
      exact (find?_name_eq_some_iff hdistinct).mpr ⟨List.mem_append_right _ List.mem_cons_self, rfl⟩
  | placed hn hl =>
    have hperm := Recency.place_perm item c.items
    have hdistinct : ((Recency.place item c.items).map fun item => name item.value).Nodup := by
      refine (hperm.map _).nodup_iff.mpr (List.nodup_cons.mpr ⟨fun hm => ?_, h.distinct⟩)
      obtain ⟨held, hm, he⟩ := List.mem_map.mp hm
      exact hout hn held hm he
    have hnone : c.items.find? (fun held => name held.value = name item.value) = none :=
      List.find?_eq_none.mpr fun held hm => by simpa using hout hn held hm
    apply hfound hdistinct
    · intro other ho
      have hne : other ≠ item := fun he => ho (congrArg (fun item => name item.value) he)
      rw [Recency.mem_place]
      exact or_iff_right hne
    · rw [hnone, Timed.keepNewer_none]
      exact (find?_name_eq_some_iff hdistinct).mpr ⟨Recency.mem_place.mpr (.inl rfl), rfl⟩
  | evicted hn _ hl => exact absurd (h.length_lt hi (hout hn)) (Nat.not_lt.mpr hl)

/-- The newest item of each name stays, the first one on a tie. -/
theorem OnePerName.extend (hsame : ∀ a b, same a b = true ↔ name a = name b)
    (h : c.OnePerName name names) {items : List (Timed α)}
    (hi : ∀ item ∈ items, name item.value ∈ names) :
    (c.extend items).OnePerName name names ∧ ∀ n, (c.extend items).named? name n =
      (items.filter (name ·.value = n)).foldl Timed.keepNewer (c.named? name n) := by
  induction items generalizing c with
  | nil => exact ⟨h, fun _ => rfl⟩
  | cons item rest ih =>
    obtain ⟨hitem, hrest⟩ := List.forall_mem_cons.mp hi
    obtain ⟨hinsert, hnamed⟩ := h.insert hsame hitem
    obtain ⟨hextend, hfold⟩ := ih hinsert hrest
    refine ⟨hextend, fun n => ?_⟩
    have hn : (c.extend (item :: rest)).named? name n = _ := hfold n
    rw [hn, hnamed n]
    by_cases hname : name item.value = n
    · simp [hname]
    · simp [hname]

/-- Items of different names are all found again. -/
theorem named?_extend_nil (hsame : ∀ a b, same a b = true ↔ name a = name b) {capacity : Nat}
    (hr : names.length ≤ capacity) {items : List (Timed α)}
    (hi : ∀ item ∈ items, name item.value ∈ names)
    (hn : (items.map fun item => name item.value).Nodup) (n : Char) :
    ((⟨capacity, []⟩ : Bounded α same).extend items).named? name n =
      items.find? fun item => name item.value = n := by
  have hempty : (⟨capacity, []⟩ : Bounded α same).OnePerName name names := ⟨hr, .nil, by simp⟩
  rw [(hempty.extend hsame hi).2 n]
  show (items.filter (name ·.value = n)).foldl Timed.keepNewer none = _
  cases hfind : items.find? fun item => name item.value = n with
  | none =>
    have hnil : items.filter (name ·.value = n) = [] :=
      List.filter_eq_nil_iff.mpr (List.find?_eq_none.mp hfind)
    rw [hnil]
    rfl
  | some held =>
    rw [filter_name_eq_find? hn, hfind]
    rfl

end Bounded

end SessionStore
