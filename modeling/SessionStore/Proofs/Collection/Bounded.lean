import Mathlib.Data.List.Perm.Basic
import SessionStore.Bounded
import SessionStore.Proofs.Collection.NewestKept

/-! What inserting an item into a bounded collection can do. -/
namespace SessionStore

namespace Recency

variable {α : Type}

theorem exists_oldest? {items : List (Timed α)} (h : items ≠ []) :
    ∃ held ∈ items, oldest? items = some held.timestamp ∧ ∀ other ∈ items, held.timestamp ≤
      other.timestamp := by
  obtain ⟨least, hl⟩ := Option.ne_none_iff_exists'.mp fun hn : oldest? items = none =>
    h (List.map_eq_nil_iff.mp (List.min?_eq_none_iff.mp hn))
  obtain ⟨hm, hle⟩ := List.min?_eq_some_iff.mp hl
  obtain ⟨held, hh, rfl⟩ := List.mem_map.mp hm
  exact ⟨held, hh, hl, fun other ho => hle _ (List.mem_map_of_mem ho)⟩

/-- The first of the oldest items, between those in front of it and those behind it. -/
theorem eraseIdx_oldestIndex {items : List (Timed α)} (h : items ≠ []) :
    ∃ front oldest back, items = front ++ oldest :: back ∧ front.length = oldestIndex items ∧
      items.eraseIdx (oldestIndex items) = front ++ back ∧
      ∀ other ∈ items, oldest.timestamp ≤ other.timestamp := by
  obtain ⟨least, hw, hl, hle⟩ := exists_oldest? h
  have hlt : oldestIndex items < items.length :=
    List.findIdx_lt_length_of_exists ⟨least, hw, by simp [hl]⟩
  have hold : items[oldestIndex items].timestamp = least.timestamp := by
    have hp : decide (some items[oldestIndex items].timestamp = oldest? items) = true :=
      List.findIdx_getElem (w := hlt)
    rw [hl] at hp
    exact Option.some.inj (of_decide_eq_true hp)
  refine ⟨items.take (oldestIndex items), items[oldestIndex items],
    items.drop (oldestIndex items + 1), ?_, List.length_take_of_le (Nat.le_of_lt hlt),
      List.eraseIdx_eq_take_drop_succ .., fun other ho => ?_⟩
  · rw [List.getElem_cons_drop, List.take_append_drop]
  · rw [hold]
    exact hle other ho

theorem oldestIndex_cons {item : Timed α} {items : List (Timed α)}
    (h : ∀ held ∈ items, item.timestamp ≤ held.timestamp) : oldestIndex (item :: items) = 0 := by
  have holdest : oldest? (item :: items) = some item.timestamp := by
    refine List.min?_eq_some_iff.mpr ⟨List.mem_cons_self, ?_⟩
    rw [List.map_cons, List.forall_mem_cons, List.forall_mem_map]
    exact ⟨UInt64.le_refl _, h⟩
  rw [oldestIndex, List.findIdx_cons, holdest]
  simp

/-- Where every identity stands once, whatever has an identity is what is found under it. -/
theorem find?_eq_some_iff_of_nodup {κ : Type} {key : α → κ} {items : List (Timed α)}
    {p : Timed α → Bool} {k : κ} {held : Timed α}
    (hd : (items.map fun item => key item.value).Nodup)
    (hp : ∀ item, p item = true ↔ key item.value = k) :
    items.find? p = some held ↔ held ∈ items ∧ key held.value = k := by
  constructor
  · intro h
    exact ⟨List.mem_of_find?_eq_some h, (hp held).mp (List.find?_some h)⟩
  · rintro ⟨hm, hkey⟩
    have hsome : (items.find? p).isSome := List.find?_isSome.mpr ⟨held, hm, (hp held).mpr hkey⟩
    obtain ⟨found, hf⟩ := Option.isSome_iff_exists.mp hsome
    have hfound : key found.value = k := (hp found).mp (List.find?_some hf)
    have heq : found = held := List.inj_on_of_nodup_map hd (List.mem_of_find?_eq_some hf) hm
      (hfound.trans hkey.symm)
    rw [hf, heq]

/-- Who was seen, and when. -/
def facts {κ : Type} (key : α → κ) (items : List (Timed α)) : List (κ × Timestamp) :=
  items.map fun item => (key item.value, item.timestamp)

theorem mem_facts {κ : Type} {key : α → κ} {items : List (Timed α)} {fact : κ × Timestamp} :
    fact ∈ facts key items ↔ ∃ item ∈ items, (key item.value, item.timestamp) = fact :=
  List.mem_map

theorem mem_keys_facts {κ : Type} {key : α → κ} {items : List (Timed α)} {k : κ} :
    k ∈ (facts key items).map Prod.fst ↔ ∃ item ∈ items, key item.value = k := by
  rw [facts, List.map_map]
  exact List.mem_map

/-- Items that are the newest of what was seen are of different identities. -/
theorem nodup_of_newestKept {κ : Type} {key : α → κ} {n : Nat} {seen : κ → Timestamp → Prop}
    {items : List (Timed α)} (h : NewestKept n seen (facts key items)) :
    (items.map fun item => key item.value).Nodup := by
  have hdistinct := h.distinct
  rwa [facts, List.map_map] at hdistinct

theorem length_le_of_newestKept {κ : Type} {key : α → κ} {n : Nat} {seen : κ → Timestamp → Prop}
    {items : List (Timed α)} (h : NewestKept n seen (facts key items)) : items.length ≤ n := by
  have hroom := h.room
  rwa [facts, List.length_map] at hroom

/-- Items of different identities are the newest of themselves. -/
theorem newestKept_self {κ : Type} {key : α → κ} {n : Nat} {items : List (Timed α)}
    (hr : items.length ≤ n) (hd : (items.map fun item => key item.value).Nodup) :
    NewestKept n (fun k t => (k, t) ∈ facts key items) (facts key items) := by
  have hdistinct : ((facts key items).map Prod.fst).Nodup := by rwa [facts, List.map_map]
  exact
    { room := by rwa [facts, List.length_map]
      distinct := hdistinct
      isSeen := fun _ hf => hf
      greatest := fun fact hf t ht => by
        have heq : (fact.1, t) = fact := List.inj_on_of_nodup_map hdistinct ht hf rfl
        exact UInt64.le_of_eq (congrArg Prod.snd heq)
      absent := fun _ _ hs hk => absurd (mem_keys hs) hk }

theorem lt_of_all_oldest? {items : List (Timed α)} {timestamp : Timestamp}
    (h : (oldest? items).all (timestamp < ·) = true) :
    ∀ held ∈ items, timestamp < held.timestamp := by
  intro held hm
  cases ho : oldest? items with
  | none =>
    have hnil := List.map_eq_nil_iff.mp (List.min?_eq_none_iff.mp ho)
    rw [hnil] at hm
    cases hm
  | some least =>
    rw [ho] at h
    have hle := (List.min?_eq_some_iff.mp ho).2 _ (List.mem_map_of_mem hm)
    exact UInt64.lt_of_lt_of_le (of_decide_eq_true h) hle

end Recency

namespace Bounded

variable {α : Type} {same : α → α → Bool}

inductive Step (c : Bounded α same) (item : Timed α) : List (Timed α) → Prop
  | noRoom (h : c.capacity = 0) : Step c item c.items
  | discarded {held : Timed α} (hm : held ∈ c.items) (hs : same held.value item.value = true)
    (ht : item.timestamp ≤ held.timestamp) : Step c item c.items
  | replaced {front back : List (Timed α)} {held : Timed α} (hc : c.items = front ++ held :: back)
    (hs : same held.value item.value = true)
    (hf : ∀ other ∈ front, same other.value item.value = false)
    (ht : held.timestamp < item.timestamp) : Step c item (front ++ item :: back)
  | placed (hn : ∀ held ∈ c.items, same held.value item.value = false)
    (hl : c.items.length < c.capacity) : Step c item (Recency.place item c.items)
  | evicted {front back : List (Timed α)} {oldest : Timed α}
    (hn : ∀ held ∈ c.items, same held.value item.value = false) (hc : 0 < c.capacity)
    (hl : c.capacity ≤ c.items.length) (hp : Recency.place item c.items = front ++ oldest :: back)
    (ho : ∀ other ∈ front ++ back, oldest.timestamp ≤ other.timestamp) : Step c item (front ++ back)

@[simp] theorem capacity_insert (c : Bounded α same) (item : Timed α) :
    (c.insert item).1.capacity = c.capacity := by
  unfold insert
  split
  · rfl
  · split
    · split <;> rfl
    · dsimp only
      split <;> rfl

@[simp] theorem capacity_extend (c : Bounded α same) (items : List (Timed α)) :
    (c.extend items).capacity = c.capacity := by
  induction items generalizing c with
  | nil => rfl
  | cons item rest ih => exact (ih _).trans (c.capacity_insert item)

/-- What is filled in is the wanted ones of the first items, up to where it stops. -/
theorem exists_fill_eq_extend (c : Bounded α same) (isWanted : α → Bool) (items : List (Timed α)) :
    ∃ front, front <+: items ∧
      c.fill isWanted items = c.extend (front.filter fun item => isWanted item.value) := by
  induction items generalizing c with
  | nil => exact ⟨[], List.prefix_rfl, rfl⟩
  | cons item rest ih =>
    unfold fill
    split
    · exact ⟨[], List.nil_prefix, rfl⟩
    split
    · next hw =>
      obtain ⟨front, hp, hfill⟩ := ih (c.insert item).1
      exact ⟨item :: front, (List.prefix_cons_inj _).mpr hp,
        by rw [hfill, List.filter_cons, if_pos hw]; rfl⟩
    · next hw =>
      obtain ⟨front, hp, hfill⟩ := ih c
      exact ⟨item :: front, (List.prefix_cons_inj _).mpr hp,
        by rw [hfill, List.filter_cons, if_neg hw]⟩

@[simp] theorem capacity_fill (c : Bounded α same) (isWanted : α → Bool) (items : List (Timed α)) :
    (c.fill isWanted items).capacity = c.capacity := by
  obtain ⟨front, -, hfill⟩ := c.exists_fill_eq_extend isWanted items
  rw [hfill, capacity_extend]

theorem find?_eq_none_iff_absent {c : Bounded α same} {value : α} :
    c.find? value = none ↔ ∀ held ∈ c.items, same held.value value = false := by
  simp only [find?, List.find?_eq_none, Bool.not_eq_true]

theorem insert_step (c : Bounded α same) (item : Timed α) :
    Step c item (c.insert item).1.items := by
  unfold insert
  split
  · next h => exact .noRoom h
  · next hc =>
    split
    · next held hfind =>
      obtain ⟨hs, front, back, hitems, hfront⟩ := List.find?_eq_some_iff_append.mp hfind
      split
      · next ht => exact .discarded (List.mem_of_find?_eq_some hfind) hs ht
      · next ht =>
        have hf : ∀ other ∈ front, same other.value item.value = false := fun other hm =>
          Bool.eq_false_iff.mpr fun hp => by simpa [hp] using hfront other hm
        have hr : Recency.replaceFirst (same · item.value) item c.items =
            front ++ item :: back := by
          rw [hitems]
          exact Recency.replaceFirst_append hf hs
        dsimp only
        rw [hr]
        exact .replaced hitems hs hf (UInt64.not_le.mp ht)
    · next hfind =>
      have hn := find?_eq_none_iff_absent.mp hfind
      dsimp only
      split
      · next hl =>
        rw [Recency.length_place] at hl
        obtain ⟨front, oldest, back, hp, -, he, ho⟩ := Recency.eraseIdx_oldestIndex
          (List.ne_nil_of_mem (Recency.mem_place.mpr (.inl (Eq.refl item))))
        dsimp only
        rw [he]
        refine .evicted hn (Nat.pos_of_ne_zero hc) (Nat.le_of_lt_succ hl) hp fun other hm => ?_
        rw [hp] at ho
        apply ho other
        rcases List.mem_append.mp hm with hm | hm
        · exact List.mem_append_left _ hm
        · exact List.mem_append_right _ (List.mem_cons_of_mem _ hm)
      · next hl =>
        rw [Recency.length_place] at hl
        exact .placed hn (by omega)

theorem mem_of_mem_insert {c : Bounded α same} {item other : Timed α}
    (h : other ∈ (c.insert item).1.items) : other = item ∨ other ∈ c.items := by
  have hstep := c.insert_step item
  generalize (c.insert item).1.items = items at h hstep
  cases hstep with
  | noRoom | discarded => exact .inr h
  | replaced hc =>
    rw [hc]
    simp only [List.mem_append, List.mem_cons] at h ⊢
    tauto
  | placed => exact Recency.mem_place.mp h
  | evicted _ _ _ hp =>
    apply Recency.mem_place.mp
    rw [hp]
    simp only [List.mem_append, List.mem_cons] at h ⊢
    tauto

theorem forall_insert {P : Timed α → Prop} {c : Bounded α same} {item : Timed α}
    (hc : ∀ held ∈ c.items, P held) (hi : P item) : ∀ held ∈ (c.insert item).1.items, P held := by
  intro held hm
  rcases mem_of_mem_insert hm with rfl | hm
  · exact hi
  · exact hc held hm

theorem forall_extend {P : Timed α → Prop} {c : Bounded α same} {items : List (Timed α)}
    (hc : ∀ held ∈ c.items, P held) (hi : ∀ item ∈ items, P item) :
    ∀ held ∈ (c.extend items).items, P held := by
  induction items generalizing c with
  | nil => exact hc
  | cons item rest ih =>
    obtain ⟨hfirst, hrest⟩ := List.forall_mem_cons.mp hi
    exact ih (forall_insert hc hfirst) hrest

theorem forall_fill_wanted {P : Timed α → Prop} {c : Bounded α same} {isWanted : α → Bool}
    {items : List (Timed α)} (hc : ∀ held ∈ c.items, P held)
    (hi : ∀ item ∈ items, isWanted item.value = true → P item) :
    ∀ held ∈ (c.fill isWanted items).items, P held := by
  obtain ⟨front, hp, hfill⟩ := c.exists_fill_eq_extend isWanted items
  rw [hfill]
  refine forall_extend hc fun item hm => ?_
  obtain ⟨hfront, hw⟩ := List.mem_filter.mp hm
  exact hi item (hp.subset hfront) hw

theorem forall_fill {P : Timed α → Prop} {c : Bounded α same} {isWanted : α → Bool}
    {items : List (Timed α)} (hc : ∀ held ∈ c.items, P held) (hi : ∀ item ∈ items, P item) :
    ∀ held ∈ (c.fill isWanted items).items, P held :=
  forall_fill_wanted hc fun item hm _ => hi item hm

/-- Items that are older than all of a full collection change nothing. -/
theorem insert_older {c : Bounded α same} {item : Timed α} (hfull : c.capacity ≤ c.items.length)
    (hold : ∀ held ∈ c.items, item.timestamp < held.timestamp) : (c.insert item).1 = c := by
  unfold insert
  split
  · rfl
  split
  · next held hfind =>
    rw [if_pos (UInt64.le_of_lt (hold held (List.mem_of_find?_eq_some hfind)))]
  · dsimp only
    rw [Recency.place_first hold, Recency.oldestIndex_cons fun held hm =>
      UInt64.le_of_lt (hold held hm), List.length_cons, if_pos (Nat.lt_succ_of_le hfull)]
    rfl

/-- To stop at an item that is older than all of a full collection loses nothing
of items that come newest first. -/
theorem fill_eq_extend {isWanted : α → Bool} {items : List (Timed α)}
    (hi : items.Pairwise fun a b => b.timestamp ≤ a.timestamp) (c : Bounded α same) :
    c.fill isWanted items = c.extend (items.filter fun item => isWanted item.value) := by
  induction items generalizing c with
  | nil => rfl
  | cons item rest ih =>
    obtain ⟨hitem, hrest⟩ := List.pairwise_cons.mp hi
    unfold fill
    split
    · next hstop =>
      obtain ⟨hfull, hold⟩ := Bool.and_eq_true_iff.mp hstop
      have holder : ∀ other ∈ item :: rest, (c.insert other).1 = c := fun other ho => by
        refine insert_older (of_decide_eq_true hfull) fun held hm => ?_
        refine UInt64.lt_of_le_of_lt ?_ (Recency.lt_of_all_oldest? hold held hm)
        rcases List.mem_cons.mp ho with rfl | ho
        · exact UInt64.le_refl _
        · exact hitem other ho
      refine (List.foldlRecOn (motive := (· = c)) _ _ rfl ?_).symm
      rintro _ rfl other ho
      exact holder other (List.mem_of_mem_filter ho)
    split
    · next hw => rw [ih hrest, List.filter_cons, if_pos hw]; rfl
    · next hw => rw [ih hrest, List.filter_cons, if_neg hw]

theorem find?_eq_none_iff {κ : Type} {key : α → κ} (hsame : ∀ a b, same a b = true ↔ key a = key b)
    {c : Bounded α same} {probe : α} : c.find? probe = none ↔
      ∀ held ∈ c.items, key held.value ≠ key probe := by
  simp only [find?, List.find?_eq_none, hsame, ne_eq]

section Newest

open Recency

variable {κ : Type} {key : α → κ} {seen : κ → Timestamp → Prop}

/-- An insertion keeps the newest of what was seen, the item now included. -/
theorem newestKept_insert (hsame : ∀ a b, same a b = true ↔ key a = key b) {c : Bounded α same}
    (h : NewestKept c.capacity seen (facts key c.items)) (item : Timed α) :
    NewestKept c.capacity (fun k t => seen k t ∨ (k = key item.value ∧ t = item.timestamp))
      (facts key (c.insert item).1.items) := by
  have hout (hn : ∀ held ∈ c.items, same held.value item.value = false) :
      key item.value ∉ (facts key c.items).map Prod.fst := fun hm => by
    obtain ⟨held, hm, hk⟩ := mem_keys_facts.mp hm
    exact Bool.eq_false_iff.mp (hn held hm) ((hsame _ _).mpr hk)
  have hplace : (facts key (place item c.items)).Perm
      ((key item.value, item.timestamp) :: facts key c.items) := (place_perm item c.items).map _
  have hstep := c.insert_step item
  generalize (c.insert item).1.items = items at hstep ⊢
  cases hstep with
  | noRoom hc => exact h.ignore_all hc _ _
  | @discarded held hm hs ht =>
    have hfact : (key item.value, held.timestamp) ∈ facts key c.items :=
      mem_facts.mpr ⟨held, hm, by rw [(hsame _ _).mp hs]⟩
    exact h.ignore_late hfact ht
  | @replaced front back held hc hs hf ht =>
    have hk := (hsame _ _).mp hs
    have hp : (facts key c.items).Perm ((key item.value, held.timestamp) ::
        facts key (front ++ back)) := by
      rw [hc, ← hk]
      exact List.perm_middle.map _
    apply ((h.perm hp.symm).replace (UInt64.le_of_lt ht)).perm
    exact List.perm_middle.map _
  | placed hn hl =>
    refine (h.insert ?_ (hout hn)).perm hplace
    rw [facts, List.length_map]
    exact hl
  | @evicted front back oldest hn hc hl hp ho =>
    refine h.evict (key oldest.value, oldest.timestamp) ?_ (hout hn) ?_ ?_
    · have := h.room
      rw [facts, List.length_map] at this ⊢
      exact Nat.le_antisymm this hl
    · rw [hp] at hplace
      exact hplace.symm.trans (List.perm_middle.map _)
    · intro fact hf
      obtain ⟨other, hm, rfl⟩ := mem_facts.mp hf
      exact ho other hm

theorem newestKept_extend (hsame : ∀ a b, same a b = true ↔ key a = key b) {c : Bounded α same}
    (h : NewestKept c.capacity seen (facts key c.items)) (items : List (Timed α)) :
    NewestKept c.capacity (fun k t => seen k t ∨ (k, t) ∈ facts key items)
      (facts key (c.extend items).items) := by
  induction items generalizing c seen with
  | nil => exact h.congr (by simp [facts])
  | cons item rest ih =>
    have hinsert := newestKept_insert hsame h item
    rw [← capacity_insert c item] at hinsert
    have hextend := ih hinsert
    rw [capacity_insert] at hextend
    apply hextend.congr
    intro k t
    rw [facts, List.map_cons, List.mem_cons, Prod.mk.injEq, or_assoc]
    rfl

theorem newestKept_fill (hsame : ∀ a b, same a b = true ↔ key a = key b) {c : Bounded α same}
    {isWanted : α → Bool} {items : List (Timed α)}
    (h : NewestKept c.capacity seen (facts key c.items))
    (hi : items.Pairwise fun a b => b.timestamp ≤ a.timestamp)
    (hw : ∀ item ∈ items, isWanted item.value = true) :
    NewestKept c.capacity (fun k t => seen k t ∨ (k, t) ∈ facts key items)
      (facts key (c.fill isWanted items).items) := by
  rw [fill_eq_extend hi, List.filter_eq_self.mpr hw]
  exact newestKept_extend hsame h items

end Newest

end Bounded

/-- A place: the file by its components, the line and the column. -/
def Mark.place (mark : Mark) : List Component × UInt64 × UInt64 :=
  (mark.file.components, mark.lnum, mark.col)

theorem Mark.sameLocation_iff (a b : Mark) : a.sameLocation b = true ↔ a.place = b.place := by
  simp only [sameLocation, place, Bool.and_eq_true, decide_eq_true_eq, Path.beq_iff, Prod.mk.injEq]
  tauto

theorem Register.sameName_iff (a b : Register) : a.sameName b = true ↔ a.name = b.name :=
  decide_eq_true_iff

theorem Mark.sameName_iff (a b : Mark) : a.sameName b = true ↔ a.name = b.name := decide_eq_true_iff

end SessionStore
