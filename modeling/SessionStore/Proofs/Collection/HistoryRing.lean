import SessionStore.HistoryRing
import SessionStore.Proofs.Collection.Bounded

/-! What putting a line into a history can do. -/
namespace SessionStore

open Recency

namespace HistoryRing

def others (ring : HistoryRing) (text : Bytes) : List (Timed HistoryItem) :=
  ring.items.filter (·.value.text ≠ text)

theorem of_get?_eq_some {ring : HistoryRing} {text : Bytes} {held : Timed HistoryItem}
    (h : ring.get? text = some held) : held ∈ ring.items ∧ held.value.text = text :=
  ⟨List.mem_of_find?_eq_some h, of_decide_eq_true (List.find?_some h :)⟩

theorem get?_eq_none_iff {ring : HistoryRing} {text : Bytes} :
    ring.get? text = none ↔ ∀ held ∈ ring.items, held.value.text ≠ text := by
  simp [get?]

inductive Step (ring : HistoryRing) (item : Timed HistoryItem) : List (Timed HistoryItem) → Prop
  | noRoom (h : ring.capacity = 0) : Step ring item ring.items
  | kept {held : Timed HistoryItem} (hm : held ∈ ring.items)
    (hs : held.value.text = item.value.text) (ht : item.timestamp ≤ held.timestamp) :
    Step ring item ring.items
  | placed (ho : ∀ held ∈ ring.get? item.value.text, held.timestamp ≤ item.timestamp)
    (hl : (ring.others item.value.text).length < ring.capacity) :
    Step ring item (place item (ring.others item.value.text))
  | overflowed (ho : ∀ held ∈ ring.get? item.value.text, held.timestamp ≤ item.timestamp)
    (hc : 0 < ring.capacity) (hl : ring.capacity ≤ (ring.others item.value.text).length) :
    Step ring item (place item (ring.others item.value.text)).tail

@[simp] theorem capacity_insert (ring : HistoryRing) (item : Timed HistoryItem)
    (preferIncoming : Bool) : (ring.insert item preferIncoming).1.capacity = ring.capacity := by
  unfold insert
  split
  · rfl
  split
  · rfl
  · dsimp only
    split <;> rfl

theorem insert_step (ring : HistoryRing) (item : Timed HistoryItem) (preferIncoming : Bool) :
    Step ring item (ring.insert item preferIncoming).1.items := by
  unfold insert
  split
  · next h => exact .noRoom h
  next hc =>
  split
  · next h =>
    obtain ⟨held, hg, hr⟩ := (Option.any_eq_true _ _).mp h
    obtain ⟨hm, hs⟩ := of_get?_eq_some hg
    refine .kept hm hs ?_
    simp only [replaces, Bool.not_eq_true', Bool.or_eq_false_iff, decide_eq_false_iff_not] at hr
    exact UInt64.not_lt.mp hr.1
  · next h =>
    have ho : ∀ held ∈ ring.get? item.value.text, held.timestamp ≤ item.timestamp := by
      intro held hg
      have hr : replaces item held preferIncoming = true := by
        by_contra hr
        exact h ((Option.any_eq_true _ _).mpr ⟨held, hg, by simpa using hr⟩)
      simp only [replaces, Bool.or_eq_true, Bool.and_eq_true, decide_eq_true_eq] at hr
      rcases hr with hlt | ⟨heq, -⟩
      · exact UInt64.le_of_lt hlt
      · exact UInt64.le_of_eq heq.symm
    dsimp only
    split
    · next hl =>
      rw [length_place] at hl
      exact .overflowed ho (Nat.pos_of_ne_zero hc) (Nat.le_of_lt_succ hl)
    · next hl =>
      rw [length_place] at hl
      exact .placed ho (by show (ring.items.filter _).length < _; omega)

theorem mem_of_mem_insert {ring : HistoryRing} {item other : Timed HistoryItem}
    {preferIncoming : Bool} (h : other ∈ (ring.insert item preferIncoming).1.items) : other = item ∨
      other ∈ ring.items := by
  have hplace (hm : other ∈ place item (ring.others item.value.text)) : other = item ∨
      other ∈ ring.items :=
    (mem_place.mp hm).imp_right List.mem_of_mem_filter
  have hstep := ring.insert_step item preferIncoming
  generalize (ring.insert item preferIncoming).1.items = items at h hstep
  cases hstep with
  | noRoom | kept => exact .inr h
  | placed => exact hplace h
  | overflowed => exact hplace (List.mem_of_mem_tail h)

theorem forall_insert {P : Timed HistoryItem → Prop} {ring : HistoryRing} {item : Timed HistoryItem}
    {preferIncoming : Bool} (hr : ∀ line ∈ ring.items, P line) (hi : P item) :
    ∀ line ∈ (ring.insert item preferIncoming).1.items, P line := by
  intro line hm
  rcases mem_of_mem_insert hm with rfl | hm
  · exact hi
  · exact hr line hm

/-- Puts lines in one after the other, each of them preferred to one of its text and time or not. -/
def insertAll (ring : HistoryRing) (calls : List (Timed HistoryItem × Bool)) : HistoryRing :=
  calls.foldl (fun ring call => (ring.insert call.1 call.2).1) ring

theorem insertAll_append (ring : HistoryRing) (calls more : List (Timed HistoryItem × Bool)) :
    ring.insertAll (calls ++ more) = (ring.insertAll calls).insertAll more :=
  List.foldl_append

theorem foldl_insert_eq_insertAll (ring : HistoryRing) (preferIncoming : Bool)
    (items : List (Timed HistoryItem)) :
    items.foldl (fun ring item => (ring.insert item preferIncoming).1) ring =
      ring.insertAll (items.map fun item => (item, preferIncoming)) := by
  rw [insertAll, List.foldl_map]

theorem forall_insertAll {P : Timed HistoryItem → Prop} {ring : HistoryRing}
    {calls : List (Timed HistoryItem × Bool)} (hr : ∀ line ∈ ring.items, P line)
    (hi : ∀ call ∈ calls, P call.1) :
    ∀ line ∈ (ring.insertAll calls).items, P line :=
  List.foldlRecOn (motive := fun ring : HistoryRing => ∀ line ∈ ring.items, P line) calls _ hr
    fun _ hring call hm => forall_insert hring (hi call hm)

theorem forall_foldl_insert {P : Timed HistoryItem → Prop} {ring : HistoryRing}
    {preferIncoming : Bool} {items : List (Timed HistoryItem)} (hr : ∀ line ∈ ring.items, P line)
    (hi : ∀ item ∈ items, P item) :
    ∀ line ∈ (items.foldl (fun ring item => (ring.insert item preferIncoming).1) ring).items,
      P line := by
  rw [foldl_insert_eq_insertAll]
  exact forall_insertAll hr (List.forall_mem_map.mpr hi)

/-- What is filled in is the first lines, up to where it stops. -/
theorem exists_fill_eq_foldl (ring : HistoryRing) (preferIncoming : Bool)
    (items : List (Timed HistoryItem)) : ∃ front, front <+: items ∧
      ring.fill preferIncoming items =
      front.foldl (fun ring item => (ring.insert item preferIncoming).1) ring := by
  induction items generalizing ring with
  | nil => exact ⟨[], List.prefix_rfl, rfl⟩
  | cons item rest ih =>
    unfold fill
    split
    · exact ⟨[], List.nil_prefix, rfl⟩
    · obtain ⟨front, hp, hfill⟩ := ih (ring.insert item preferIncoming).1
      exact ⟨item :: front, (List.prefix_cons_inj _).mpr hp, hfill⟩

theorem forall_fill {P : Timed HistoryItem → Prop} {ring : HistoryRing} {preferIncoming : Bool}
    {items : List (Timed HistoryItem)} (hr : ∀ line ∈ ring.items, P line)
    (hi : ∀ item ∈ items, P item) :
    ∀ line ∈ (ring.fill preferIncoming items).items, P line := by
  obtain ⟨front, hp, hfill⟩ := ring.exists_fill_eq_foldl preferIncoming items
  rw [hfill]
  exact forall_foldl_insert hr fun item hm => hi item (hp.subset hm)

theorem oldestFirst_empty (capacity : Nat) : OldestFirst (⟨capacity, []⟩ : HistoryRing).items :=
  .nil

theorem oldestFirst_insert {ring : HistoryRing} (h : OldestFirst ring.items)
    (item : Timed HistoryItem) (preferIncoming : Bool) :
    OldestFirst (ring.insert item preferIncoming).1.items := by
  have hplace : OldestFirst (place item (ring.others item.value.text)) :=
    oldestFirst_place (h.filter _)
  have hstep := ring.insert_step item preferIncoming
  generalize (ring.insert item preferIncoming).1.items = items at hstep ⊢
  cases hstep with
  | noRoom | kept => exact h
  | placed => exact hplace
  | overflowed => exact hplace.tail

theorem oldestFirst_insertAll {ring : HistoryRing} (h : OldestFirst ring.items)
    (calls : List (Timed HistoryItem × Bool)) : OldestFirst (ring.insertAll calls).items :=
  List.foldlRecOn (motive := fun ring : HistoryRing => OldestFirst ring.items) calls _ h
    fun _ hring call _ => oldestFirst_insert hring call.1 call.2

theorem oldestFirst_foldl_insert {ring : HistoryRing} (h : OldestFirst ring.items)
    (preferIncoming : Bool) (items : List (Timed HistoryItem)) :
    OldestFirst (items.foldl (fun ring item => (ring.insert item preferIncoming).1)
      ring).items := by
  rw [foldl_insert_eq_insertAll]
  exact oldestFirst_insertAll h _

theorem oldestFirst_fill {ring : HistoryRing} (h : OldestFirst ring.items) (preferIncoming : Bool)
    (items : List (Timed HistoryItem)) : OldestFirst (ring.fill preferIncoming items).items := by
  obtain ⟨front, -, hfill⟩ := ring.exists_fill_eq_foldl preferIncoming items
  rw [hfill]
  exact oldestFirst_foldl_insert h preferIncoming front

/-- Where a line with the text is held, the lines of other texts are all but this one. -/
theorem perm_others {ring : HistoryRing} {held : Timed HistoryItem}
    (hn : ((facts HistoryItem.text ring.items).map Prod.fst).Nodup) (hm : held ∈ ring.items) :
    ring.items.Perm (held :: ring.others held.value.text) := by
  unfold others
  generalize ring.items = items at hn hm
  induction items with
  | nil => cases hm
  | cons first rest ih =>
    obtain ⟨hfirst, hrest⟩ := List.nodup_cons.mp hn
    have hother {line : Timed HistoryItem} (hl : line ∈ rest) : line.value.text ≠
        first.value.text :=
      fun he => hfirst (mem_keys_facts.mpr ⟨line, hl, he⟩)
    rcases List.mem_cons.mp hm with rfl | hm
    · have hall : rest.filter (·.value.text ≠ held.value.text) = rest :=
        List.filter_eq_self.mpr fun line hl => decide_eq_true (hother hl)
      rw [List.filter_cons_of_neg (by simp), hall]
    · rw [List.filter_cons_of_pos (by simpa using (hother hm).symm)]
      exact ((ih hrest hm).cons first).trans (List.Perm.swap ..)

theorem others_eq_items {ring : HistoryRing} {text : Bytes}
    (h : ∀ held ∈ ring.items, held.value.text ≠ text) : ring.others text = ring.items :=
  List.filter_eq_self.mpr fun held hm => decide_eq_true (h held hm)

theorem perm_of_get?_eq_some {ring : HistoryRing} {text : Bytes} {held : Timed HistoryItem}
    (hn : ((facts HistoryItem.text ring.items).map Prod.fst).Nodup)
    (hg : ring.get? text = some held) :
    ring.items.Perm (held :: ring.others text) := by
  obtain ⟨hm, rfl⟩ := of_get?_eq_some hg
  exact perm_others hn hm

theorem absent_of_get?_eq_none {ring : HistoryRing} {text : Bytes} (hg : ring.get? text = none) :
    text ∉ (facts HistoryItem.text ring.items).map Prod.fst ∧ ring.others text = ring.items := by
  have hne := get?_eq_none_iff.mp hg
  refine ⟨fun hm => ?_, others_eq_items hne⟩
  obtain ⟨held, hm, he⟩ := mem_keys_facts.mp hm
  exact hne held hm he

theorem lt_of_all_oldest {ring : HistoryRing} (ho : OldestFirst ring.items) {timestamp : Timestamp}
    (h : ring.oldest?.all (timestamp < ·) = true) :
    ∀ held ∈ ring.items, timestamp < held.timestamp := by
  unfold oldest? at h
  generalize ring.items = items at ho h
  cases items with
  | nil => simp
  | cons first rest =>
    have hlt : timestamp < first.timestamp := of_decide_eq_true h
    refine List.forall_mem_cons.mpr ⟨hlt, fun held hm => ?_⟩
    exact UInt64.lt_of_lt_of_le hlt ((List.pairwise_cons.mp ho).1 held hm)

/-- A line that does not replace the one of its text is not put in. -/
theorem insert_of_kept {ring : HistoryRing} {item held : Timed HistoryItem} {preferIncoming : Bool}
    (hg : ring.get? item.value.text = some held) (hr : replaces item held preferIncoming = false) :
    ring.insert item preferIncoming = (ring, false) := by
  unfold insert
  rw [hg, Option.any_some, hr]
  exact ite_self _

theorem insert_older {ring : HistoryRing} {item : Timed HistoryItem}
    (hfull : ring.capacity ≤ ring.items.length)
    (hold : ∀ held ∈ ring.items, item.timestamp < held.timestamp) (preferIncoming : Bool) :
    ring.insert item preferIncoming = (ring, false) := by
  have hne (hg : ¬(ring.get? item.value.text).any (!replaces item · preferIncoming)) :
      ∀ held ∈ ring.items, held.value.text ≠ item.value.text := by
    cases hget : ring.get? item.value.text with
    | none => exact get?_eq_none_iff.mp hget
    | some held =>
      have hlt := hold held (List.mem_of_find?_eq_some hget)
      have hkept : replaces item held preferIncoming = false := by
        simp [replaces, UInt64.le_of_lt hlt, UInt64.ne_of_lt hlt]
      exact absurd (by simp [hget, hkept]) hg
  unfold insert
  split
  · rfl
  split
  · rfl
  · next hg =>
    have hothers : ring.items.filter (·.value.text ≠ item.value.text) = ring.items :=
      others_eq_items (hne hg)
    dsimp only
    rw [hothers, place_first hold, List.length_cons, if_pos (Nat.lt_succ_of_le hfull),
      notNewer_eq_nil hold]
    rfl

/-- To stop at a line that is older than all of a full ring loses nothing of
lines that come newest first. -/
theorem fill_eq_foldl {ring : HistoryRing} (ho : OldestFirst ring.items)
    {items : List (Timed HistoryItem)} (hi : items.Pairwise fun a b => b.timestamp ≤ a.timestamp)
    (preferIncoming : Bool) :
    ring.fill preferIncoming items =
      items.foldl (fun ring item => (ring.insert item preferIncoming).1) ring := by
  induction items generalizing ring with
  | nil => rfl
  | cons item rest ih =>
    obtain ⟨hitem, hrest⟩ := List.pairwise_cons.mp hi
    unfold fill
    split
    · next hstop =>
      obtain ⟨hfull, hold⟩ := Bool.and_eq_true_iff.mp hstop
      refine (List.foldlRecOn (motive := (· = ring)) _ _ rfl ?_).symm
      rintro _ rfl other hm
      refine congrArg Prod.fst (insert_older (of_decide_eq_true hfull) (fun held hheld => ?_)
        preferIncoming)
      refine UInt64.lt_of_le_of_lt ?_ (lt_of_all_oldest ho hold held hheld)
      rcases List.mem_cons.mp hm with rfl | hm
      · exact UInt64.le_refl _
      · exact hitem other hm
    · exact ih (oldestFirst_insert ho item preferIncoming) hrest

/-- An insertion keeps the newest of what was seen, the line now included. -/
theorem newestKept_insert {ring : HistoryRing} {seen : Bytes → Timestamp → Prop}
    (h : NewestKept ring.capacity seen (facts HistoryItem.text ring.items))
    (ho : OldestFirst ring.items) (item : Timed HistoryItem) (preferIncoming : Bool) :
    NewestKept ring.capacity (fun k t => seen k t ∨ (k = item.value.text ∧ t = item.timestamp))
      (facts HistoryItem.text (ring.insert item preferIncoming).1.items) := by
  have hplace : (facts HistoryItem.text (place item (ring.others item.value.text))).Perm
      ((item.value.text, item.timestamp) :: facts HistoryItem.text (ring.others item.value.text)) :=
    (place_perm item _).map _
  have hroom := h.room
  rw [facts, List.length_map] at hroom
  have hstep := ring.insert_step item preferIncoming
  generalize (ring.insert item preferIncoming).1.items = items at hstep ⊢
  cases hstep with
  | noRoom hc => exact h.ignore_all hc _ _
  | @kept held hm hs ht => exact h.ignore_late (mem_facts.mpr ⟨held, hm, by rw [hs]⟩) ht
  | placed hle hl =>
    refine NewestKept.perm ?_ hplace
    cases hg : ring.get? item.value.text with
    | none =>
      obtain ⟨hout, hothers⟩ := absent_of_get?_eq_none hg
      rw [hothers] at hl ⊢
      refine h.insert ?_ hout
      rw [facts, List.length_map]
      exact hl
    | some held =>
      have hp :=
        (perm_of_get?_eq_some h.distinct hg).map fun item => (item.value.text, item.timestamp)
      rw [List.map_cons, (of_get?_eq_some hg).2] at hp
      exact (h.perm hp.symm).replace (hle held hg)
  | overflowed hle hc hl =>
    cases hg : ring.get? item.value.text with
    | none =>
      obtain ⟨hout, hothers⟩ := absent_of_get?_eq_none hg
      rw [hothers] at hl hplace ⊢
      have hfirst : OldestFirst (place item ring.items) := oldestFirst_place ho
      cases hp : place item ring.items with
      | nil => exact absurd hp (List.ne_nil_of_mem (mem_place.mpr (.inl (Eq.refl item))))
      | cons oldest rest =>
        rw [hp] at hfirst hplace
        refine h.evict (oldest.value.text, oldest.timestamp) ?_ hout hplace.symm ?_
        · rw [facts, List.length_map]
          exact Nat.le_antisymm hroom hl
        · intro fact hf
          obtain ⟨other, hm, rfl⟩ := mem_facts.mp hf
          exact (List.pairwise_cons.mp hfirst).1 other hm
    | some held =>
      have hlength := (perm_of_get?_eq_some h.distinct hg).length_eq
      rw [List.length_cons] at hlength
      omega

theorem newestKept_insertAll {ring : HistoryRing} {seen : Bytes → Timestamp → Prop}
    (h : NewestKept ring.capacity seen (facts HistoryItem.text ring.items))
    (ho : OldestFirst ring.items) (calls : List (Timed HistoryItem × Bool)) :
    NewestKept ring.capacity (fun k t => seen k t ∨
      (k, t) ∈ facts HistoryItem.text (calls.map Prod.fst))
      (facts HistoryItem.text (ring.insertAll calls).items) := by
  induction calls generalizing ring seen with
  | nil => exact h.congr (by simp [facts])
  | cons call rest ih =>
    have hinsert := newestKept_insert h ho call.1 call.2
    rw [← capacity_insert ring call.1 call.2] at hinsert
    have hrest := ih hinsert (oldestFirst_insert ho call.1 call.2)
    rw [capacity_insert] at hrest
    apply hrest.congr
    intro k t
    rw [facts, List.map_cons, List.map_cons, List.mem_cons, Prod.mk.injEq, or_assoc]
    rfl

theorem newestKept_foldl_insert {ring : HistoryRing} {seen : Bytes → Timestamp → Prop}
    (h : NewestKept ring.capacity seen (facts HistoryItem.text ring.items))
    (ho : OldestFirst ring.items) (preferIncoming : Bool) (lines : List (Timed HistoryItem)) :
    NewestKept ring.capacity (fun k t => seen k t ∨ (k, t) ∈ facts HistoryItem.text lines)
      (facts HistoryItem.text (lines.foldl (fun ring line => (ring.insert line preferIncoming).1)
        ring).items) := by
  have hall := newestKept_insertAll h ho (lines.map fun line => (line, preferIncoming))
  rwa [List.map_map, Function.comp_def, List.map_id', ← foldl_insert_eq_insertAll] at hall

theorem newestKept_fill {ring : HistoryRing} {seen : Bytes → Timestamp → Prop}
    {items : List (Timed HistoryItem)}
    (h : NewestKept ring.capacity seen (facts HistoryItem.text ring.items))
    (ho : OldestFirst ring.items) (hi : items.Pairwise fun a b => b.timestamp ≤ a.timestamp)
    (preferIncoming : Bool) :
    NewestKept ring.capacity (fun k t => seen k t ∨ (k, t) ∈ facts HistoryItem.text items)
      (facts HistoryItem.text (ring.fill preferIncoming items).items) := by
  rw [fill_eq_foldl ho hi]
  exact newestKept_foldl_insert h ho preferIncoming items

end HistoryRing

end SessionStore
