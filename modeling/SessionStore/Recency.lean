import SessionStore.Entry

/-! Lists of timed items: placing an item by its time, replacing one, finding the oldest. -/
namespace SessionStore.Recency

variable {α : Type}

/-- The items in front of the first one that is newer than `timestamp`. -/
def notNewer (timestamp : Timestamp) (items : List (Timed α)) : List (Timed α) :=
  items.takeWhile (·.timestamp ≤ timestamp)

/-- The items from the first one on that is newer than `timestamp`. -/
def fromNewer (timestamp : Timestamp) (items : List (Timed α)) : List (Timed α) :=
  items.dropWhile (·.timestamp ≤ timestamp)

/-- Puts an item in front of the first newer one. -/
def place (item : Timed α) (items : List (Timed α)) : List (Timed α) :=
  notNewer item.timestamp items ++ item :: fromNewer item.timestamp items

/-- Puts an item in the place of the first one that `p` holds of. -/
def replaceFirst (p : α → Bool) (item : Timed α) : List (Timed α) → List (Timed α)
  | [] => []
  | held :: rest => if p held.value then item :: rest else held :: replaceFirst p item rest

/-- The smallest timestamp. -/
def oldest? (items : List (Timed α)) : Option Timestamp := (items.map Timed.timestamp).min?

/-- The position of the first item with the smallest timestamp. -/
def oldestIndex (items : List (Timed α)) : Nat :=
  items.findIdx fun item => some item.timestamp = oldest? items

/-- Timestamps never go down along the list. -/
def OldestFirst (items : List (Timed α)) : Prop :=
  items.Pairwise fun a b => a.timestamp ≤ b.timestamp

@[simp] theorem notNewer_append_fromNewer (timestamp : Timestamp) (items : List (Timed α)) :
    notNewer timestamp items ++ fromNewer timestamp items = items :=
  List.takeWhile_append_dropWhile

variable {timestamp : Timestamp} {item : Timed α} {items : List (Timed α)}

theorem notNewer_eq_nil (h : ∀ held ∈ items, item.timestamp < held.timestamp) :
    notNewer item.timestamp items = [] := by
  cases items with
  | nil => rfl
  | cons first rest =>
    have hlt : ¬first.timestamp ≤ item.timestamp := UInt64.not_le.mpr (h first List.mem_cons_self)
    rw [notNewer, List.takeWhile_cons_of_neg (by simpa using hlt)]

theorem le_of_mem_notNewer {held : Timed α} (h : held ∈ notNewer timestamp items) :
    held.timestamp ≤ timestamp :=
  of_decide_eq_true (List.all_eq_true.mp List.all_takeWhile held h :)

theorem lt_of_head?_fromNewer {first : Timed α} (h : first ∈ (fromNewer timestamp items).head?) :
    timestamp < first.timestamp := by
  have hfirst :=
    List.head?_dropWhile_not (fun held : Timed α => decide (held.timestamp ≤ timestamp)) items
  rw [show (items.dropWhile _).head? = some first from h] at hfirst
  exact UInt64.not_le.mp (of_decide_eq_true (by simpa using hfirst))

/-- Behind the first newer item all are newer. -/
theorem lt_of_mem_fromNewer (ho : OldestFirst items) {held : Timed α}
    (h : held ∈ fromNewer timestamp items) : timestamp < held.timestamp := by
  induction items with
  | nil => cases h
  | cons first rest ih =>
    obtain ⟨hfirst, hrest⟩ := List.pairwise_cons.mp ho
    by_cases hle : first.timestamp ≤ timestamp
    · rw [fromNewer, List.dropWhile_cons_of_pos (by simpa using hle)] at h
      exact ih hrest h
    · rw [fromNewer, List.dropWhile_cons_of_neg (by simpa using hle)] at h
      have hlt := UInt64.not_le.mp hle
      rcases List.mem_cons.mp h with rfl | hm
      · exact hlt
      · exact UInt64.lt_of_lt_of_le hlt (hfirst held hm)

@[simp] theorem length_place (item : Timed α) (items : List (Timed α)) :
    (place item items).length = items.length + 1 := by
  have h := congrArg List.length (notNewer_append_fromNewer item.timestamp items)
  simp only [List.length_append] at h
  simp only [place, List.length_append, List.length_cons]
  omega

theorem place_perm (item : Timed α) (items : List (Timed α)) :
    (place item items).Perm (item :: items) := by
  have h : (place item items).Perm
      (item :: (notNewer item.timestamp items ++ fromNewer item.timestamp items)) :=
    List.perm_middle
  rwa [notNewer_append_fromNewer] at h

theorem mem_place {other : Timed α} : other ∈ place item items ↔ other = item ∨ other ∈ items :=
  (place_perm item items).mem_iff.trans List.mem_cons

theorem place_cons (item first : Timed α) (rest : List (Timed α)) :
    place item (first :: rest) =
      if first.timestamp ≤ item.timestamp then first :: place item rest
      else item :: first :: rest := by
  unfold place notNewer fromNewer
  rw [List.takeWhile_cons, List.dropWhile_cons]
  by_cases h : first.timestamp ≤ item.timestamp
  · simp only [h, decide_true, if_true, List.cons_append]
  · simp only [h, decide_false, Bool.false_eq_true, if_false, List.nil_append]

theorem oldestFirst_place (h : OldestFirst items) : OldestFirst (place item items) := by
  induction items with
  | nil => exact List.pairwise_singleton _ _
  | cons first rest ih =>
    obtain ⟨hfirst, hrest⟩ := List.pairwise_cons.mp h
    rw [place_cons]
    split
    · next hle =>
      refine List.pairwise_cons.mpr ⟨fun other hm => ?_, ih hrest⟩
      rcases mem_place.mp hm with rfl | hm
      · exact hle
      · exact hfirst other hm
    · next hlt =>
      have hlt := UInt64.le_of_lt (UInt64.not_le.mp hlt)
      refine List.pairwise_cons.mpr ⟨fun other hm => ?_, h⟩
      rcases List.mem_cons.mp hm with rfl | hm
      · exact hlt
      · exact UInt64.le_trans hlt (hfirst other hm)

theorem place_first (h : ∀ held ∈ items, item.timestamp < held.timestamp) :
    place item items = item :: items := by
  cases items with
  | nil => rfl
  | cons first rest =>
    have hlt : ¬first.timestamp ≤ item.timestamp := UInt64.not_le.mpr (h first List.mem_cons_self)
    rw [place_cons, if_neg hlt]

theorem replaceFirst_append {p : α → Bool} {held : Timed α} {front back : List (Timed α)}
    (hf : ∀ other ∈ front, p other.value = false) (hp : p held.value = true) :
    replaceFirst p item (front ++ held :: back) = front ++ item :: back := by
  induction front with
  | nil => exact if_pos hp
  | cons first rest ih =>
    obtain ⟨hfirst, hrest⟩ := List.forall_mem_cons.mp hf
    rw [List.cons_append, replaceFirst, if_neg (Bool.eq_false_iff.mp hfirst), ih hrest]
    rfl

/-- A filter that treats items alike which replace each other leaves the
replacement in, or leaves both out. -/
theorem filter_replaceFirst {p : α → Bool} {q : Timed α → Bool}
    (h : ∀ held, p held.value = true → q held = q item) : (replaceFirst p item items).filter q =
      if q item then replaceFirst p item (items.filter q) else items.filter q := by
  induction items with
  | nil => split <;> rfl
  | cons first rest ih =>
    rw [replaceFirst]
    by_cases hp : p first.value = true
    · rw [if_pos hp, List.filter_cons, List.filter_cons, h first hp]
      by_cases hq : q item = true
      · simp only [if_pos hq, replaceFirst, if_pos hp]
      · simp only [if_neg hq]
    · rw [if_neg hp, List.filter_cons, List.filter_cons, ih]
      by_cases hq : q first = true
      · simp only [if_pos hq, replaceFirst, if_neg hp]
        split <;> rfl
      · simp only [if_neg hq]

/-- Where the first item with a property is found by its index, it is the one that is replaced. -/
theorem set_of_findFinIdx? {p : α → Bool} {index : Fin items.length}
    (h : items.findFinIdx? (fun held => p held.value) = some index) :
    items.find? (fun held => p held.value) = some items[index] ∧
      items.set index item = replaceFirst p item items := by
  obtain ⟨hp, hfirst⟩ := List.findFinIdx?_eq_some_iff.mp h
  have hsplit : items.take index ++ items[index] :: items.drop (index + 1) = items := by
    rw [Fin.getElem_fin, List.getElem_cons_drop, List.take_append_drop]
  have hfront : ∀ held ∈ items.take index, p held.value = false := by
    intro held hm
    obtain ⟨i, hi, rfl⟩ := List.mem_take_iff_getElem.mp hm
    obtain ⟨hindex, hlength⟩ := Nat.lt_min.mp hi
    exact Bool.eq_false_iff.mpr (hfirst ⟨i, hlength⟩ hindex)
  constructor
  · refine List.find?_eq_some_iff_append.mpr ⟨hp, _, _, hsplit.symm, fun held hm => ?_⟩
    rw [hfront held hm]
    rfl
  · have hreplaced : replaceFirst p item (items.take index ++ items[index] ::
        items.drop (index + 1)) = items.take index ++ item :: items.drop (index + 1) :=
      replaceFirst_append hfront hp
    rw [hsplit] at hreplaced
    rw [hreplaced, List.set_eq_take_append_cons_drop, if_pos index.isLt]

end SessionStore.Recency
