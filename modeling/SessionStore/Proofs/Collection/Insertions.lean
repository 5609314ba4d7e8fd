import SessionStore.Proofs.Collection.Late
import SessionStore.Proofs.Collection.NewestOf

/-! Histories and collections after any insertions: which items they hold, and how many. -/
namespace SessionStore

open Recency

namespace Recency

variable {α κ : Type} {same : α → α → Bool} {key : α → κ}

theorem equivalence_of_key {κ : Type} {key : α → κ}
    (hsame : ∀ a b, same a b = true ↔ key a = key b) : Equivalence fun a b => same a b = true where
  refl := fun a => (hsame a a).mpr rfl
  symm := fun {a b} h => (hsame b a).mpr ((hsame a b).mp h).symm
  trans := fun {a b c} hab hbc => (hsame a c).mpr (((hsame a b).mp hab).trans ((hsame b c).mp hbc))

/-- Of items that are the same the first one is left, and no identity is lost. -/
theorem keys_eraseDupsBy (hsame : ∀ a b, same a b = true ↔ key a = key b) (values : List α) :
    ((values.eraseDupsBy same).map key).Nodup ∧
      ∀ k, k ∈ (values.eraseDupsBy same).map key ↔ k ∈ values.map key := by
  -- The recursion goes down to the items that differ from the first one.
  induction hn : values.length using Nat.strongRecOn generalizing values with
  | ind n ih =>
    cases values with
    | nil => simp
    | cons first rest =>
      have hlt : (rest.filter fun other => same other first = false).length < n := by
        rw [← hn, List.length_cons]
        exact Nat.lt_succ_of_le List.filter_sublist.length_le
      have hfilter (k : κ) : k ∈ (rest.filter fun other => same other first = false).map key ↔
          k ∈ rest.map key ∧ k ≠ key first := by
        simp only [List.mem_map, List.mem_filter, decide_eq_true_eq,
          Bool.eq_false_iff, ne_eq, hsame]
        constructor
        · rintro ⟨other, ⟨hm, hne⟩, rfl⟩
          exact ⟨⟨other, hm, rfl⟩, hne⟩
        · rintro ⟨⟨other, hm, rfl⟩, hne⟩
          exact ⟨other, ⟨hm, hne⟩, rfl⟩
      obtain ⟨hnodup, hmem⟩ := ih _ hlt _ rfl
      rw [List.eraseDupsBy_cons, List.map_cons, List.map_cons]
      refine ⟨List.nodup_cons.mpr ⟨fun hm => ?_, hnodup⟩, fun k => ?_⟩
      · exact ((hfilter _).mp ((hmem _).mp hm)).2 rfl
      · rw [List.mem_cons, List.mem_cons, hmem, hfilter]
        by_cases hk : k = key first
        · simp [hk]
        · simp [hk]

theorem nodup_eraseDups [BEq κ] [LawfulBEq κ] (keys : List κ) : keys.eraseDups.Nodup := by
  have hsame (a b : κ) : (a == b) = true ↔ id a = id b := beq_iff_eq
  have hkeys := (keys_eraseDupsBy hsame keys).1
  rwa [List.map_id] at hkeys

/-- As many items are kept as there are identities, as far as there is room. -/
theorem NewestOf.length_eq {capacity : Nat} {given kept : List (Timed α)}
    (h : NewestOf key capacity given kept) {ids : List κ} (hd : ids.Nodup)
    (hm : ∀ k, k ∈ ids ↔ k ∈ (given.map Timed.value).map key) :
    kept.length = min capacity ids.length := by
  have hsub : kept.map (fun item => key item.value) ⊆ ids := by
    intro k hk
    obtain ⟨item, hi, rfl⟩ := List.mem_map.mp hk
    exact (hm _).mpr (List.mem_map_of_mem (List.mem_map_of_mem (h.mem item hi)))
  have hle := (List.subperm_of_subset h.distinct hsub).length_le
  have hroom := h.room
  rw [List.length_map] at hle
  by_cases hall : ids ⊆ kept.map fun item => key item.value
  · have hge := (List.subperm_of_subset hd hall).length_le
    rw [List.length_map] at hge
    omega
  · -- An identity that is left out had to make room.
    obtain ⟨k, hk, hout⟩ : ∃ k ∈ ids, k ∉ kept.map fun item => key item.value := by
      by_contra hno
      exact hall fun k hk => Classical.byContradiction fun hout => hno ⟨k, hk, hout⟩
    have hgiven := (hm k).mp hk
    rw [List.map_map] at hgiven
    obtain ⟨other, ho, rfl⟩ := List.mem_map.mp hgiven
    have hfull := (h.absent other ho fun item hi he => hout (List.mem_map.mpr ⟨item, hi, he⟩)).1
    omega

end Recency

namespace HistoryRing

/-- Whatever lines are put into an empty ring, in which order and preferred or not: it has
the newest of each text, in the order of their times, as many as there are texts or as it
has room for. A text that is not there was never newer than the oldest line that is. -/
theorem insertAll_keeps_newest (capacity : Nat) (calls : List (Timed HistoryItem × Bool)) :
    let ring := insertAll ⟨capacity, []⟩ calls
    let inserted := calls.map Prod.fst
    ring.size ≤ capacity ∧ (ring.items.map fun line => line.value.text).Nodup ∧
      OldestFirst ring.items ∧ (∀ text line, ring.get? text = some line ↔ line ∈ ring.items ∧
        line.value.text = text) ∧
      (∀ line ∈ ring.items, line ∈ inserted ∧
        ∀ other ∈ inserted, other.value.text = line.value.text → other.timestamp ≤ line.timestamp) ∧
      ring.size = min capacity (inserted.map fun line => line.value.text).eraseDups.length ∧
      (0 < capacity → ∀ line ∈ inserted, ring.get? line.value.text = none →
        ∃ oldest, ring.oldest? = some oldest ∧ line.timestamp ≤ oldest) := by
  intro ring inserted
  have hnewest : NewestOf HistoryItem.text capacity inserted ring.items := newestOf_insertAll calls
  have htexts : (inserted.map Timed.value).map HistoryItem.text = inserted.map fun line =>
      line.value.text :=
    List.map_map
  refine ⟨hnewest.room, hnewest.distinct, oldestFirst_insertAll (oldestFirst_empty capacity) calls,
    fun text line => ?_, fun line hl => ?_, ?_, fun hc line hl hg => ?_⟩
  · exact find?_eq_some_iff_of_nodup hnewest.distinct fun _ => decide_eq_true_iff
  · exact ⟨hnewest.mem line hl, hnewest.greatest line hl⟩
  · exact hnewest.length_eq (nodup_eraseDups _) fun k => by rw [List.mem_eraseDups, htexts]
  · obtain ⟨hfull, hall⟩ := hnewest.absent line hl (get?_eq_none_iff.mp hg)
    unfold oldest?
    cases hi : ring.items with
    | nil =>
      rw [hi] at hfull
      exact absurd hfull (Nat.ne_of_lt hc)
    | cons first rest => exact ⟨first.timestamp, rfl, hall first (hi ▸ List.mem_cons_self)⟩

/-- There is room for two lines. The third one is as old as the first one and
takes its place, and so does the first one when it comes again. -/
theorem insertAll_keeps_newest_line :
    let line (time : Timestamp) (text : UInt8) : Timed HistoryItem :=
      ⟨time, { type := .command, text := [text] }⟩
    let calls :=
      [(line 2 0x61, false), (line 5 0x62, true), (line 2 0x63, false), (line 2 0x61, true)]
    let ring := insertAll ⟨2, []⟩ calls
    ring.items = [line 2 0x61, line 5 0x62] ∧ 0 < 2 ∧ line 2 0x63 ∈ calls.map Prod.fst ∧
      ring.get? [0x63] = none ∧ ∃ oldest, ring.oldest? = some oldest ∧ 2 ≤ oldest := by
  intro line calls ring
  have hitems : ring.items = [line 2 0x61, line 5 0x62] := by
    show (insertAll ⟨2, []⟩ [(line 2 0x61, false), (line 5 0x62, true), (line 2 0x63, false),
      (line 2 0x61, true)]).items = _
    decide +kernel
  have hthere : line 2 0x63 ∈ calls.map Prod.fst := by simp [calls]
  have habsent : ring.get? [0x63] = none := by rw [get?, hitems]; rfl
  obtain ⟨-, -, -, -, -, -, hbound⟩ := insertAll_keeps_newest 2 calls
  exact ⟨hitems, Nat.zero_lt_two, hthere, habsent,
    hbound Nat.zero_lt_two (line 2 0x63) hthere habsent⟩

end HistoryRing

namespace Bounded

variable {α : Type} {same : α → α → Bool}

/-- What can be asked of a collection: to take one item in, or many. -/
inductive Call (α : Type) where
  | insert (item : Timed α)
  | extend (items : List (Timed α))

def Call.items : Call α → List (Timed α)
  | .insert item => [item]
  | .extend items => items

def call (c : Bounded α same) : Call α → Bounded α same
  | .insert item => (c.insert item).1
  | .extend items => c.extend items

theorem foldl_call (c : Bounded α same) (calls : List (Call α)) :
    calls.foldl call c = c.extend (calls.flatMap Call.items) := by
  induction calls generalizing c with
  | nil => rfl
  | cons first rest ih =>
    rw [List.foldl_cons, List.flatMap_cons, extend_append, ih]
    cases first <;> rfl

section Keyed

variable {κ : Type} {key : α → κ} {c : Bounded α same} {capacity : Nat} {first held : Timed α}
  {before after : List (Timed α)} (hsame : ∀ a b, same a b = true ↔ key a = key b)
include hsame

/-- What is held stays as it is as long as its identity is held, unless a newer item of it comes. -/
theorem eq_of_mem_insert (hd : (c.items.map fun item => key item.value).Nodup)
    (hm : first ∈ c.items) {item : Timed α}
    (hi : key item.value = key first.value → item.timestamp ≤ first.timestamp)
    (hh : held ∈ (c.insert item).1.items) (hk : key held.value = key first.value) :
    held = first := by
  rcases mem_of_mem_insert hh with rfl | hc
  · have hlate : Late c.capacity (facts key c.items) (key held.value) held.timestamp :=
      late_of_mem hd hm hk.symm (hi hk)
    rw [insert_unstored (not_isStored_of_late hsame hlate)] at hh
    exact List.inj_on_of_nodup_map hd hh hm hk
  · exact List.inj_on_of_nodup_map hd hc hm hk

/-- What is held is held to the end, if no newer item of its identity comes and
the identity is held all the time. -/
theorem OneEach.mem_extend (h : c.OneEach key capacity) (hm : first ∈ c.items)
    (ha : ∀ item ∈ after, key item.value = key first.value → item.timestamp ≤ first.timestamp)
    (hheld : ∀ between, between <+: after →
      ∃ held ∈ (c.extend between).items, key held.value = key first.value) :
    first ∈ (c.extend after).items := by
  induction after generalizing c with
  | nil => exact hm
  | cons item rest ih =>
    obtain ⟨hitem, hrest⟩ := List.forall_mem_cons.mp ha
    obtain ⟨held, hh, hk⟩ := hheld [item] ((List.prefix_cons_inj _).mpr List.nil_prefix)
    have heq : held = first := eq_of_mem_insert hsame h.distinct hm hitem hh hk
    refine ih (h.insert hsame item) (heq ▸ hh) hrest fun between hp => ?_
    exact hheld (item :: between) ((List.prefix_cons_inj _).mpr hp)

/-- The first of the newest items of an identity is the one that is held, if the
identity is held ever since. -/
theorem eq_first_of_mem
    (hh : held ∈ ((⟨capacity, []⟩ : Bounded α same).extend (before ++ first :: after)).items)
    (hk : key held.value = key first.value) (ht : first.timestamp = held.timestamp)
    (hb : ∀ other ∈ before, key other.value = key held.value → other.timestamp < held.timestamp)
    (hheld : ∀ between, between <+: after →
      ∃ other ∈ ((⟨capacity, []⟩ : Bounded α same).extend (before ++ first :: between)).items,
        key other.value = key first.value) :
    held = first := by
  let c : Bounded α same := (⟨capacity, []⟩ : Bounded α same).extend (before ++ [first])
  have hsplit (between : List (Timed α)) :
      (⟨capacity, []⟩ : Bounded α same).extend (before ++ first :: between) = c.extend between := by
    rw [List.append_cons, extend_append]
  have hone : c.OneEach key capacity := (oneEach_empty key capacity).extend hsame _
  have hfirst : first ∈ c.items := by
    have hnewest : NewestOf key capacity (before ++ [first]) c.items := newestOf_extend hsame _
    obtain ⟨other, ho, hkey⟩ := hheld [] List.nil_prefix
    rcases List.mem_append.mp (hnewest.mem other ho) with hbefore | hlast
    · -- An item from before is older, so that it would have been replaced.
      have hlt := hb other hbefore (hkey.trans hk.symm)
      have hle := hnewest.greatest other ho first List.mem_concat_self hkey.symm
      exact absurd (ht ▸ hlt) (UInt64.not_lt.mpr hle)
    · exact List.mem_singleton.mp hlast ▸ ho
  have hnewest : NewestOf key capacity (before ++ first :: after) (c.extend after).items :=
    hsplit after ▸ newestOf_extend hsame _
  simp only [hsplit] at hheld hh
  have hlast : first ∈ (c.extend after).items := by
    refine hone.mem_extend hsame hfirst (fun item hi hkey => ?_) hheld
    rw [ht]
    exact hnewest.greatest held hh item (List.mem_append_right _ (List.mem_cons_of_mem _ hi))
      (hkey.trans hk.symm)
  exact List.inj_on_of_nodup_map hnewest.distinct hh hlast hk

end Keyed

/-- Whatever items a new collection is asked to take in, one by one or many at once: it has
the newest of each identity, as many as there are identities or as it has room for. An item
that is held is the first that came with its time, unless its identity had to make room
since then. An identity that is not there was never newer than the oldest item that is. -/
theorem calls_keep_newest (hsame : Equivalence fun a b => same a b = true) (capacity : Nat)
    (calls : List (Call α)) : let empty : Bounded α same := ⟨capacity, []⟩
    let c := calls.foldl call empty
    let inserted := calls.flatMap Call.items
    c.size ≤ capacity ∧ (c.items.Pairwise fun a b => same a.value b.value = false) ∧
      (∀ probe held, c.find? probe = some held ↔ held ∈ c.items ∧ same held.value probe = true) ∧
      (∀ held ∈ c.items, held ∈ inserted ∧
        (∀ other ∈ inserted, same other.value held.value = true →
          other.timestamp ≤ held.timestamp) ∧
        ∀ before first after, inserted = before ++ first :: after →
          same first.value held.value = true → first.timestamp = held.timestamp →
          (∀ other ∈ before, same other.value held.value = true →
            other.timestamp ≠ held.timestamp) →
          held = first ∨
            ∃ between, between <+: after ∧
            (empty.extend (before ++ first :: between)).find? held.value = none) ∧
      c.size = min capacity ((inserted.map Timed.value).eraseDupsBy same).length ∧
      (0 < capacity → ∀ item ∈ inserted, c.find? item.value = none →
        ∃ oldest, c.oldest? = some oldest ∧ item.timestamp ≤ oldest) := by
  intro empty c inserted
  let key : α → Quotient ⟨_, hsame⟩ := Quotient.mk _
  have hkey (a b : α) : same a b = true ↔ key a = key b :=
    ⟨fun h => Quotient.sound h, fun h => Quotient.exact h⟩
  have hc : c = empty.extend inserted := foldl_call empty calls
  have hnewest : NewestOf key capacity inserted c.items := hc ▸ newestOf_extend hkey inserted
  have hfind (probe : α) (held : Timed α) :
      c.find? probe = some held ↔ held ∈ c.items ∧ same held.value probe = true :=
    (find?_eq_some_iff_of_nodup hnewest.distinct fun _ => hkey _ _).trans
      (and_congr_right' (hkey _ _).symm)
  refine ⟨hnewest.room, ?_, hfind, fun held hh => ⟨hnewest.mem held hh, fun other ho hs => ?_, ?_⟩,
    ?_, ?_⟩
  · refine (List.pairwise_map.mp hnewest.distinct).imp fun hne => ?_
    exact Bool.eq_false_iff.mpr fun hs => hne ((hkey _ _).mp hs)
  · exact hnewest.greatest held hh other ho ((hkey _ _).mp hs)
  · intro before first after hi hs ht hb
    rw [or_iff_not_imp_right]
    intro hnever
    rw [hc, hi] at hh
    refine eq_first_of_mem hkey hh ((hkey _ _).mp hs).symm ht (fun other ho hk => ?_)
      fun between hp => ?_
    · have hother : other ∈ inserted := hi ▸ List.mem_append_left _ ho
      have hle := hnewest.greatest held (hc ▸ hi ▸ hh) other hother hk
      exact UInt64.lt_of_le_of_ne hle (hb other ho ((hkey _ _).mpr hk))
    · by_contra hno
      refine hnever ⟨between, hp, (find?_eq_none_iff hkey).mpr fun other ho hk =>
        hno ⟨other, ho, ?_⟩⟩
      exact hk.trans ((hkey _ _).mp hs).symm
  · have hlength := hnewest.length_eq (keys_eraseDupsBy hkey _).1 (keys_eraseDupsBy hkey _).2
    rwa [List.length_map] at hlength
  · intro hroom item hi hnone
    obtain ⟨hfull, hall⟩ := hnewest.absent item hi ((find?_eq_none_iff hkey).mp hnone)
    have hsome : c.items ≠ [] := List.ne_nil_of_length_pos (hfull ▸ hroom)
    obtain ⟨oldest, hm, ho, -⟩ := exists_oldest? hsome
    exact ⟨oldest.timestamp, ho, hall oldest hm⟩

/-- Places and names are identities. There is room for two jumps: the third one
takes the place of the oldest one, which finds no room when it comes again, and a
jump that is as new as the one of its place that is held does not take its place. -/
theorem calls_keep_newest_jumps :
    let jump (time : Timestamp) (file : String) (name : Char) : Timed Mark :=
      ⟨time, { file := .ofAscii file, name }⟩
    let calls : List (Call Mark) :=
      [.extend [jump 2 "a" 'x', jump 5 "b" 'x'], .insert (jump 3 "c" 'x'),
        .extend [jump 2 "a" 'y', jump 5 "b" 'y']]
    let c : JumpList := calls.foldl call ⟨2, []⟩
    (Equivalence (fun a b : Mark => a.sameLocation b = true) ∧
      Equivalence (fun a b : Mark => a.sameName b = true) ∧
        Equivalence fun a b : Register => a.sameName b = true) ∧
      c.items = [jump 3 "c" 'x', jump 5 "b" 'x'] ∧ 0 < 2 ∧
      jump 2 "a" 'x' ∈ calls.flatMap Call.items ∧
      c.find? (jump 2 "a" 'x').value = none ∧ ∃ oldest, c.oldest? = some oldest ∧ 2 ≤ oldest := by
  intro jump calls c
  have hplace : Equivalence fun a b : Mark => a.sameLocation b = true :=
    equivalence_of_key Mark.sameLocation_iff
  have hitems : c.items = [jump 3 "c" 'x', jump 5 "b" 'x'] := by
    show (List.foldl call (⟨2, []⟩ : JumpList) [.extend [jump 2 "a" 'x', jump 5 "b" 'x'],
      .insert (jump 3 "c" 'x'), .extend [jump 2 "a" 'y', jump 5 "b" 'y']]).items = _
    decide +kernel
  have hthere : jump 2 "a" 'x' ∈ calls.flatMap Call.items := List.mem_cons_self
  have habsent : c.find? (jump 2 "a" 'x').value = none := by
    rw [find?, hitems]
    rfl
  obtain ⟨-, -, -, -, -, hbound⟩ := calls_keep_newest hplace 2 calls
  exact ⟨⟨hplace, equivalence_of_key Mark.sameName_iff, equivalence_of_key Register.sameName_iff⟩,
    hitems, Nat.zero_lt_two, hthere, habsent, hbound Nat.zero_lt_two _ hthere habsent⟩

end Bounded

end SessionStore
