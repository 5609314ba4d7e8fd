import SessionStore.Proofs.Collection.Answers
import SessionStore.Proofs.Collection.Insertions

/-! What an insertion into a bounded collection answers, and what it has done then. -/
namespace SessionStore

open Recency

namespace Recency

variable {α : Type} {item : Timed α} {items : List (Timed α)} {timestamp : Timestamp}

/-- Where an item was placed and another one that is no newer is taken out, the item stands behind
some that are not newer and in front of one that is, and of the others just this one is gone. -/
theorem place_without {front back : List (Timed α)} {oldest : Timed α}
    (hp : place item items = front ++ oldest :: back)
    (hl : front.length ≠ (notNewer item.timestamp items).length)
    (ho : oldest.timestamp ≤ item.timestamp) :
    ∃ left right before behind, front ++ back = left ++ item :: right ∧
      items = before ++ oldest :: behind ∧
      left ++ right = before ++ behind ∧ (∀ held ∈ left, held.timestamp ≤ item.timestamp) ∧
      ∀ first ∈ right.head?, item.timestamp < first.timestamp := by
  have hitems := notNewer_append_fromNewer item.timestamp items
  have hle : ∀ held ∈ notNewer item.timestamp items, held.timestamp ≤ item.timestamp :=
    fun _ => le_of_mem_notNewer
  have hlt : ∀ first ∈ (fromNewer item.timestamp items).head?, item.timestamp < first.timestamp :=
    fun _ => lt_of_head?_fromNewer
  rcases List.append_eq_append_iff.mp hp with ⟨more, hfront, hback⟩ | ⟨more, hfront, hback⟩
  · -- The one that is taken out stood behind the item, and not next to it, where a newer one is.
    cases more with
    | nil => exact absurd (congrArg List.length hfront) (by simpa using hl)
    | cons first more =>
      rw [List.cons_append] at hback
      obtain ⟨rfl, hnewer⟩ := List.cons.inj hback
      refine ⟨notNewer item.timestamp items, more ++ back, notNewer item.timestamp items ++ more,
        back, ?_, ?_, ?_, hle, fun first hm => ?_⟩
      · rw [hfront, List.append_assoc, List.cons_append]
      · rw [List.append_assoc, ← hnewer, hitems]
      · rw [List.append_assoc]
      · cases more with
        | nil => exact absurd (hlt oldest (by rw [hnewer]; rfl)) (UInt64.not_lt.mpr ho)
        | cons next more => exact hlt first (by rw [hnewer]; exact hm)
  · cases more with
    | nil => exact absurd (congrArg List.length hfront) (by simpa using hl.symm)
    | cons first more =>
      rw [List.cons_append] at hback
      obtain ⟨rfl, hbehind⟩ := List.cons.inj hback
      refine ⟨front ++ more, fromNewer item.timestamp items, front,
        more ++ fromNewer item.timestamp items, ?_, ?_, ?_, fun held hm => hle held ?_, hlt⟩
      · rw [hbehind, List.append_assoc]
      · rw [← List.cons_append, ← List.append_assoc, ← hfront, hitems]
      · rw [List.append_assoc]
      · rw [hfront]
        rcases List.mem_append.mp hm with hm | hm
        · exact List.mem_append_left _ hm
        · exact List.mem_append_right _ (List.mem_cons_of_mem _ hm)

/-- Behind an item that stands in front of a newer one all are newer exactly if
none that is not newer stands behind a newer one anywhere. -/
theorem forall_newer_iff {front back : List (Timed α)}
    (hf : ∀ held ∈ front, held.timestamp ≤ timestamp)
    (hb : ∀ first ∈ back.head?, timestamp < first.timestamp) :
    (∀ held ∈ back, timestamp < held.timestamp) ↔
      (front ++ back).Pairwise fun earlier later => timestamp < earlier.timestamp →
      timestamp < later.timestamp := by
  constructor
  · intro h
    have hback : ∀ earlier ∈ front ++ back, ∀ later ∈ back, timestamp < earlier.timestamp →
        timestamp < later.timestamp := fun _ _ later hm _ => h later hm
    refine List.pairwise_append.mpr ⟨?_, ?_,
      fun earlier he => hback earlier (List.mem_append_left _ he)⟩
    · exact List.pairwise_of_forall_mem_list fun earlier he _ _ hlt =>
        absurd hlt (UInt64.not_lt.mpr (hf earlier he))
    · exact List.pairwise_of_forall_mem_list fun earlier he =>
        hback earlier (List.mem_append_right _ he)
  · intro h held hm
    have hback := (List.pairwise_append.mp h).2.1
    cases back with
    | nil => cases hm
    | cons first rest =>
      have hfirst := hb first rfl
      rcases List.mem_cons.mp hm with rfl | hm
      · exact hfirst
      · exact (List.pairwise_cons.mp hback).1 held hm hfirst

end Recency

namespace Bounded

variable {α κ : Type} {same : α → α → Bool} {key : α → κ} {c : Bounded α same} {item held : Timed α}
  {front back : List (Timed α)}

/-- The items that stay where one of a new identity comes: all as long as there is
room, and then all but one that is no newer than any of them nor the one that comes. -/
inductive Stay (c : Bounded α same) (item : Timed α) : List (Timed α) → Prop
  | all (h : c.isFull = false) : Stay c item c.items
  | allBut {before behind : List (Timed α)} {oldest : Timed α} (h : c.isFull = true)
      (hc : c.items = before ++ oldest :: behind) (hi : oldest.timestamp ≤ item.timestamp)
      (ho : ∀ held ∈ c.items, oldest.timestamp ≤ held.timestamp) : Stay c item (before ++ behind)

theorem Stay.sublist {items : List (Timed α)} (h : c.Stay item items) : items.Sublist c.items := by
  cases h with
  | all => exact List.Sublist.refl _
  | @allBut before behind oldest _ hc =>
    rw [hc]
    exact (List.Sublist.refl before).append (List.sublist_cons_self oldest behind)

/-- What is left of a collection with each answer. A discarded item finds one of
its identity that is no older, and an evicted one finds the collection full of
others that are no older: nothing changes. An item that replaces another takes
the place of an older one of its identity, and all others stay in theirs. One
that is inserted is of a new identity, and the others stay in their order. -/
inductive Effect (c : Bounded α same) (item : Timed α) : Bounded α same → Insertion → Prop
  | discarded {held : Timed α} (hm : held ∈ c.items) (hs : same held.value item.value = true)
    (ht : item.timestamp ≤ held.timestamp) : Effect c item c .discarded
  | evicted (hf : c.isFull = true) (hn : ∀ held ∈ c.items, same held.value item.value = false)
    (ht : ∀ held ∈ c.items, item.timestamp ≤ held.timestamp) : Effect c item c .evicted
  | replaced {front back : List (Timed α)} {held : Timed α} (hc : c.items = front ++ held :: back)
    (hs : same held.value item.value = true) (ht : held.timestamp < item.timestamp) :
    Effect c item { c with items := front ++ item :: back } .replaced
  | inserted {front back : List (Timed α)}
    (hn : ∀ held ∈ c.items, same held.value item.value = false) (hs : c.Stay item (front ++ back)) :
    Effect c item { c with items := front ++ item :: back } .inserted

/-- Where an item of a new identity goes: behind items that are not newer, and
in front of one that is. -/
structure Between (c : Bounded α same) (item : Timed α) (front back : List (Timed α)) : Prop where
  stay : c.Stay item (front ++ back)
  notNewer : ∀ held ∈ front, held.timestamp ≤ item.timestamp
  newer : ∀ first ∈ back.head?, item.timestamp < first.timestamp

/-- An item of an identity that is held is discarded, or takes the place of the older one. -/
theorem insert_of_held (hc : c.capacity ≠ 0) (hf : c.find? item.value = some held) :
    c.insert item = (c, .discarded) ∧ item.timestamp ≤ held.timestamp ∨
      ∃ front back, c.items = front ++ held :: back ∧ held.timestamp < item.timestamp ∧
        c.insert item = ({ c with items := front ++ item :: back }, .replaced) := by
  have hinsert : c.insert item = if item.timestamp ≤ held.timestamp then (c, .discarded)
      else ({ c with items := replaceFirst (same · item.value) item c.items }, .replaced) := by
    rw [insert, if_neg hc, hf]
  rw [hinsert]
  split
  · next hle => exact .inl ⟨rfl, hle⟩
  · next hlt =>
    obtain ⟨hs, front, back, hitems, hfront⟩ := List.find?_eq_some_iff_append.mp hf
    have hreplaced : replaceFirst (same · item.value) item c.items = front ++ item :: back := by
      rw [hitems]
      exact replaceFirst_append (by simpa using hfront) hs
    exact .inr ⟨front, back, hitems, UInt64.not_le.mp hlt, by rw [hreplaced]⟩

/-- An item of a new identity has to go again where the collection is full and
nothing in it is older; else it finds its place. -/
theorem insert_of_absent (hc : c.capacity ≠ 0)
    (hn : ∀ held ∈ c.items, same held.value item.value = false) :
    c.insert item = (c, .evicted) ∧ c.isFull = true ∧
      (∀ held ∈ c.items, item.timestamp ≤ held.timestamp) ∨
      ∃ front back, c.insert item = ({ c with items := front ++ item :: back }, .inserted) ∧
        c.Between item front back := by
  by_cases hroom : c.items.length < c.capacity
  · refine .inr ⟨notNewer item.timestamp c.items, fromNewer item.timestamp c.items,
      insert_new hn hroom, ?_, fun _ => le_of_mem_notNewer, fun _ => lt_of_head?_fromNewer⟩
    rw [notNewer_append_fromNewer]
    exact .all (decide_eq_false (Nat.not_le.mpr hroom))
  have hfull : c.capacity ≤ c.items.length := Nat.not_lt.mp hroom
  have hm : item ∈ place item c.items := mem_place.mpr (.inl rfl)
  obtain ⟨front, oldest, back, hp, hlength, herase, hoall⟩ :=
    eraseIdx_oldestIndex (List.ne_nil_of_mem hm)
  have hitem : oldest.timestamp ≤ item.timestamp := hoall item hm
  have hall : ∀ held ∈ c.items, oldest.timestamp ≤ held.timestamp := fun held hm =>
    hoall held (mem_place.mpr (.inr hm))
  have hinsert : c.insert item = ({ c with items := front ++ back },
      if oldestIndex (place item c.items) = (notNewer item.timestamp c.items).length then .evicted
      else .inserted) := by
    have hnone : c.find? item.value = none := find?_eq_none_iff_absent.mpr hn
    rw [insert, if_neg hc, hnone]
    dsimp only
    rw [length_place, if_pos (Nat.lt_succ_of_le hfull), herase]
  rw [hinsert, ← hlength]
  by_cases hl : front.length = (notNewer item.timestamp c.items).length
  · -- The oldest one is the item itself, and without it the others are as before.
    obtain ⟨hfront, hback⟩ := List.append_inj hp.symm hl
    obtain ⟨rfl, rfl⟩ := List.cons.inj hback
    refine .inl ⟨?_, decide_eq_true hfull, hall⟩
    rw [if_pos hl, hfront, notNewer_append_fromNewer]
  · obtain ⟨left, right, before, behind, hplaced, hitems, hstay, hle, hlt⟩ :=
      place_without hp hl hitem
    refine .inr ⟨left, right, by rw [if_neg hl, hplaced], ?_, hle, hlt⟩
    rw [hstay]
    exact .allBut (decide_eq_true hfull) hitems hitem hall

theorem exists_between_of_inserted (h : (c.insert item).2 = .inserted) :
    ∃ front back, c.insert item = ({ c with items := front ++ item :: back }, .inserted) ∧
      c.Between item front back := by
  have hc : c.capacity ≠ 0 := fun hc => by
    rw [show c.insert item = (c, .evicted) from if_pos hc] at h
    cases h
  cases hf : c.find? item.value with
  | some held =>
    rcases insert_of_held hc hf with ⟨hinsert, -⟩ | ⟨front, back, -, -, hinsert⟩
    · rw [hinsert] at h
      cases h
    · rw [hinsert] at h
      cases h
  | none =>
    rcases insert_of_absent hc (find?_eq_none_iff_absent.mp hf) with ⟨hinsert, -⟩ | hinserted
    · rw [hinsert] at h
      cases h
    · exact hinserted

/-- Whatever items a new collection took in, what the next one does is what is
answered, and it is stored exactly if it is there now and was not before. -/
theorem insert_reports (hsame : Equivalence fun a b => same a b = true) (capacity : Nat)
    (items : List (Timed α)) (item : Timed α) :
    let c := (⟨capacity, []⟩ : Bounded α same).extend items
    c.Effect item (c.insert item).1 (c.insert item).2 ∧
      ((c.insert item).2.isStored = true ↔ item ∈ (c.insert item).1.items ∧ item ∉ c.items) := by
  intro c
  let key : α → Quotient ⟨_, hsame⟩ := Quotient.mk _
  have hkey (a b : α) : same a b = true ↔ key a = key b :=
    ⟨fun h => Quotient.sound h, fun h => Quotient.exact h⟩
  have hone : c.OneEach key capacity := (oneEach_empty key capacity).extend hkey items
  have hunstored : (false = true ↔ item ∈ c.items ∧ item ∉ c.items) := by simp
  have hstored {items : List (Timed α)} (hm : item ∈ items) (hn : item ∉ c.items) :
      (true = true ↔ item ∈ items ∧ item ∉ c.items) := iff_of_true rfl ⟨hm, hn⟩
  by_cases hc : c.capacity = 0
  · have hempty : c.items = [] := OneEach.items_eq_nil (hone.capacity.symm.trans hc ▸ hone)
    have hinsert : c.insert item = (c, .evicted) := if_pos hc
    rw [hinsert]
    exact ⟨.evicted (decide_eq_true (hc ▸ Nat.zero_le _)) (by simp [hempty]) (by simp [hempty]),
      hunstored⟩
  cases hf : c.find? item.value with
  | some held =>
    have hheld : held ∈ c.items := List.mem_of_find?_eq_some hf
    have hs : same held.value item.value = true := (List.find?_some hf :)
    rcases insert_of_held hc hf with ⟨hinsert, hle⟩ | ⟨front, back, hitems, hlt, hinsert⟩
    · rw [hinsert]
      exact ⟨.discarded hheld hs hle, hunstored⟩
    · rw [hinsert]
      refine ⟨.replaced hitems hs hlt, hstored (by simp) fun hm => ?_⟩
      have heq : held = item := List.inj_on_of_nodup_map hone.distinct hheld hm ((hkey _ _).mp hs)
      exact absurd (heq ▸ hlt) (UInt64.lt_irrefl _)
  | none =>
    have hn := find?_eq_none_iff_absent.mp hf
    rcases insert_of_absent hc hn with ⟨hinsert, hfull, hall⟩ | ⟨front, back, hinsert, hbetween⟩
    · rw [hinsert]
      exact ⟨.evicted hfull hn hall, hunstored⟩
    · rw [hinsert]
      refine ⟨.inserted hn hbetween.stay, hstored (by simp) fun hm => ?_⟩
      exact Bool.eq_false_iff.mp (hn item hm) (hsame.refl item.value)

/-- There is room for two jumps, and the one that came first was renewed where it
stood. The next one goes in front of it, and the older one behind it has to go. -/
theorem insert_reports_jump :
    let jump (time : Timestamp) (file : String) : Timed Mark := ⟨time, { file := .ofAscii file }⟩
    let c : JumpList := (⟨2, []⟩ : JumpList).extend [jump 1 "a", jump 5 "b", jump 9 "a"]
    Equivalence (fun a b : Mark => a.sameLocation b = true) ∧ c.items = [jump 9 "a", jump 5 "b"] ∧
      c.Effect (jump 7 "c") ⟨2, [jump 7 "c", jump 9 "a"]⟩ .inserted := by
  intro jump c
  have hplace : Equivalence fun a b : Mark => a.sameLocation b = true :=
    equivalence_of_key Mark.sameLocation_iff
  have hitems : c.items = [jump 9 "a", jump 5 "b"] := by
    show ((⟨2, []⟩ : JumpList).extend [jump 1 "a", jump 5 "b", jump 9 "a"]).items = _
    rfl
  have hinsert : c.insert (jump 7 "c") = (⟨2, [jump 7 "c", jump 9 "a"]⟩, .inserted) := by
    decide +kernel
  have heffect : c.Effect (jump 7 "c") (c.insert (jump 7 "c")).1 (c.insert (jump 7 "c")).2 :=
    (insert_reports hplace 2 [jump 1 "a", jump 5 "b", jump 9 "a"] (jump 7 "c")).1
  rw [hinsert] at heffect
  exact ⟨hplace, hitems, heffect⟩

/-- Whatever items a new collection took in, the next one, if it is inserted,
stands behind some that are not newer and in front of a newer one. All that stand
behind it are newer as long as none of the others that is not newer stands behind
a newer one, and only then; so they are if no item has overtaken others before. -/
theorem insert_stands_between (hsame : ∀ a b, same a b = true ↔ key a = key b) (capacity : Nat)
    (items : List (Timed α)) (item : Timed α) :
    let c := (⟨capacity, []⟩ : Bounded α same).extend items
    (c.insert item).2 = .inserted → ∃ front back, (c.insert item).1.items = front ++ item :: back ∧
      c.Between item front back ∧
      ((∀ held ∈ back, item.timestamp < held.timestamp) ↔
        (front ++ back).Pairwise fun earlier later =>
        item.timestamp < earlier.timestamp → item.timestamp < later.timestamp) ∧
      (NoneOvertakes key items → ∀ held ∈ back, item.timestamp < held.timestamp) := by
  intro c h
  obtain ⟨front, back, hinsert, hbetween⟩ := exists_between_of_inserted h
  have hiff := forall_newer_iff hbetween.notNewer hbetween.newer
  refine ⟨front, back, by rw [hinsert], hbetween, hiff, fun hnone => hiff.mpr ?_⟩
  have horderly : c.Orderly key ([] ++ items) := (orderly_empty key capacity).extend hsame hnone
  refine (horderly.oldestFirst.sublist hbetween.stay.sublist).imp fun hle hlt => ?_
  exact UInt64.lt_of_lt_of_le hlt hle

/-- A jump that comes between two others of which none was renewed. -/
theorem insert_stands_between_jumps :
    let jump (time : Timestamp) (file : String) : Timed Mark := ⟨time, { file := .ofAscii file }⟩
    let c : JumpList := (⟨4, []⟩ : JumpList).extend [jump 9 "a", jump 2 "b"]
    (c.insert (jump 5 "c")).2 = .inserted ∧ NoneOvertakes Mark.place [jump 9 "a", jump 2 "b"] ∧
      ∃ front back, (c.insert (jump 5 "c")).1.items = front ++ jump 5 "c" :: back ∧
        c.Between (jump 5 "c") front back ∧ ∀ held ∈ back, (5 : Timestamp) < held.timestamp := by
  intro jump c
  have hanswer : (c.insert (jump 5 "c")).2 = .inserted := by
    show (((⟨4, []⟩ : JumpList).extend [jump 9 "a", jump 2 "b"]).insert (jump 5 "c")).2 = _
    rfl
  have hnone : NoneOvertakes Mark.place [jump 9 "a", jump 2 "b"] := by
    refine noneOvertakes_of_newestFirst Mark.place (List.pairwise_pair.mpr ?_)
    decide
  obtain ⟨front, back, hitems, hbetween, -, hnewer⟩ :=
    insert_stands_between Mark.sameLocation_iff 4 [jump 9 "a", jump 2 "b"] (jump 5 "c") hanswer
  exact ⟨hanswer, hnone, front, back, hitems, hbetween, hnewer hnone⟩

/-- A mark that was renewed where it stood has overtaken the one behind it: the
next mark goes in front of both, although one of them is older. -/
theorem insert_in_front_of_older :
    let mark (time : Timestamp) (name : Char) : Timed Mark :=
      ⟨time, { file := .ofAscii "/f", name }⟩
    let c : GlobalMarks := (⟨4, []⟩ : GlobalMarks).extend [mark 1 'A', mark 2 'B', mark 9 'A']
    (c.insert (mark 5 'C')).2 = .inserted ∧
      ¬∀ front back, (c.insert (mark 5 'C')).1.items = front ++ mark 5 'C' :: back →
        ∀ held ∈ back, (5 : Timestamp) < held.timestamp := by
  intro mark c
  have hinsert : c.insert (mark 5 'C') =
      (⟨4, [mark 5 'C', mark 9 'A', mark 2 'B']⟩, .inserted) := by
    show ((⟨4, []⟩ : GlobalMarks).extend
      [mark 1 'A', mark 2 'B', mark 9 'A']).insert (mark 5 'C') = _
    rfl
  refine ⟨by rw [hinsert], fun h => ?_⟩
  have hlast := h [] [mark 9 'A', mark 2 'B'] (by rw [hinsert]; rfl) (mark 2 'B') (by simp)
  exact absurd hlast (by decide)

end Bounded

end SessionStore
