import Mathlib.Data.List.Nodup
import Mathlib.Data.List.Perm.Subperm
import SessionStore.Entry

/-! Lists of bounded length that keep the newest of all that was ever seen. -/
namespace SessionStore

variable {κ : Type} {capacity : Nat} {seen seen' : κ → Timestamp → Prop}
  {held held' : List (κ × Timestamp)}

/-- Different identities, each with the greatest time at which it was seen; one
that is absent had to make room for others that are at least as new. -/
structure NewestKept (capacity : Nat) (seen : κ → Timestamp → Prop) (held : List (κ × Timestamp)) :
    Prop where
  room : held.length ≤ capacity
  distinct : (held.map Prod.fst).Nodup
  isSeen : ∀ fact ∈ held, seen fact.1 fact.2
  greatest : ∀ fact ∈ held, ∀ t, seen fact.1 t → t ≤ fact.2
  absent : ∀ k t, seen k t → k ∉ held.map Prod.fst →
    held.length = capacity ∧ ∀ fact ∈ held, t ≤ fact.2

theorem mem_keys {fact : κ × Timestamp} (h : fact ∈ held) : fact.1 ∈ held.map Prod.fst :=
  List.mem_map.mpr ⟨fact, h, rfl⟩

namespace NewestKept

theorem nil (capacity : Nat) : NewestKept capacity (fun (_ : κ) _ => False) [] where
  room := Nat.zero_le _
  distinct := .nil
  isSeen := by simp
  greatest := by simp
  absent := fun _ _ h => h.elim

theorem congr (h : NewestKept capacity seen held) (hs : ∀ k t, seen' k t ↔ seen k t) :
    NewestKept capacity seen' held := by
  have he : seen' = seen := by
    funext k t
    exact propext (hs k t)
  rwa [he]

theorem perm (h : NewestKept capacity seen held) (hp : held'.Perm held) :
    NewestKept capacity seen held' where
  room := hp.length_eq ▸ h.room
  distinct := (hp.map Prod.fst).nodup_iff.mpr h.distinct
  isSeen := fun fact hf => h.isSeen fact (hp.mem_iff.mp hf)
  greatest := fun fact hf => h.greatest fact (hp.mem_iff.mp hf)
  absent := fun k t hs hk => by
    obtain ⟨hl, hall⟩ := h.absent k t hs fun hm => hk ((hp.map Prod.fst).mem_iff.mpr hm)
    exact ⟨hp.length_eq ▸ hl, fun fact hf => hall fact (hp.mem_iff.mp hf)⟩

/-- What is no newer than the held fact of its identity, or than all that a full
list holds, changes nothing. -/
theorem ignore (h : NewestKept capacity seen held)
    (hs : ∀ k t, seen' k t → seen k t ∨ (∃ fact ∈ held, fact.1 = k ∧ t ≤ fact.2) ∨
      (held.length = capacity ∧ ∀ fact ∈ held, t ≤ fact.2))
    (hs' : ∀ k t, seen k t → seen' k t) : NewestKept capacity seen' held where
  room := h.room
  distinct := h.distinct
  isSeen := fun fact hf => hs' _ _ (h.isSeen fact hf)
  greatest := fun fact hf t ht => by
    rcases hs _ _ ht with ht | ⟨other, ho, hk, ht⟩ | ⟨-, hall⟩
    · exact h.greatest fact hf t ht
    · exact UInt64.le_trans ht (h.greatest fact hf _ (hk ▸ h.isSeen other ho))
    · exact hall fact hf
  absent := fun k t ht hk => by
    rcases hs _ _ ht with ht | ⟨other, ho, hk', -⟩ | hfull
    · exact h.absent k t ht hk
    · exact (hk (List.mem_map.mpr ⟨other, ho, hk'⟩)).elim
    · exact hfull

/-- A fact that is no newer than the held one of its identity is as good as seen. -/
theorem ignore_late {k : κ} {t t' : Timestamp} (h : NewestKept capacity seen held)
    (hm : (k, t') ∈ held) (ht : t ≤ t') :
    NewestKept capacity (fun j s => seen j s ∨ (j = k ∧ s = t)) held := by
  refine h.ignore (fun j s hs => hs.imp_right fun ⟨hj, hst⟩ => .inl ?_) fun j s hs => .inl hs
  exact ⟨(k, t'), hm, hj.symm, hst ▸ ht⟩

/-- A list without room keeps nothing of anything. -/
theorem ignore_all (h : NewestKept capacity seen held) (hc : capacity = 0) (k : κ) (t : Timestamp) :
    NewestKept capacity (fun j s => seen j s ∨ (j = k ∧ s = t)) held := by
  have hnil : held = [] := List.length_eq_zero_iff.mp (by have := h.room; omega)
  refine h.ignore (fun j s hs => hs.imp_right fun _ => .inr ?_) fun j s hs => .inl hs
  rw [hnil, hc]
  exact ⟨rfl, List.forall_mem_nil _⟩

/-- A newer fact takes the place of the held one of its identity. -/
theorem replace {k : κ} {old new : Timestamp} {rest : List (κ × Timestamp)}
    (h : NewestKept capacity seen ((k, old) :: rest)) (ht : old ≤ new) :
    NewestKept capacity (fun j t => seen j t ∨ (j = k ∧ t = new)) ((k, new) :: rest) where
  room := h.room
  distinct := h.distinct
  isSeen := by
    intro fact hf
    rcases List.mem_cons.mp hf with rfl | hf
    · exact .inr ⟨rfl, rfl⟩
    · exact .inl (h.isSeen fact (List.mem_cons_of_mem _ hf))
  greatest := by
    intro fact hf t hs
    rcases List.mem_cons.mp hf with rfl | hf
    · rcases hs with hs | ⟨-, rfl⟩
      · exact UInt64.le_trans (h.greatest (k, old) List.mem_cons_self t hs) ht
      · exact UInt64.le_refl _
    · rcases hs with hs | ⟨hk, -⟩
      · exact h.greatest fact (List.mem_cons_of_mem _ hf) t hs
      · have hout : k ∉ rest.map Prod.fst := (List.nodup_cons.mp h.distinct).1
        exact (hout (hk ▸ mem_keys hf)).elim
  absent := by
    intro j t hs hj
    rcases hs with hs | ⟨rfl, -⟩
    · obtain ⟨hl, hall⟩ := h.absent j t hs hj
      obtain ⟨hold, hrest⟩ := List.forall_mem_cons.mp hall
      exact ⟨hl, List.forall_mem_cons.mpr ⟨UInt64.le_trans hold ht, hrest⟩⟩
    · exact (hj List.mem_cons_self).elim

theorem not_seen {k : κ} {t : Timestamp} (h : NewestKept capacity seen held)
    (hl : held.length < capacity) (hk : k ∉ held.map Prod.fst) : ¬seen k t :=
  fun hs => Nat.ne_of_lt hl (h.absent k t hs hk).1

theorem insert {k : κ} {new : Timestamp} (h : NewestKept capacity seen held)
    (hl : held.length < capacity) (hk : k ∉ held.map Prod.fst) :
    NewestKept capacity (fun j t => seen j t ∨ (j = k ∧ t = new)) ((k, new) :: held) where
  room := hl
  distinct := List.nodup_cons.mpr ⟨hk, h.distinct⟩
  isSeen := by
    intro fact hf
    rcases List.mem_cons.mp hf with rfl | hf
    · exact .inr ⟨rfl, rfl⟩
    · exact .inl (h.isSeen fact hf)
  greatest := by
    intro fact hf t hs
    rcases List.mem_cons.mp hf with rfl | hf'
    · rcases hs with hs | ⟨-, rfl⟩
      · exact (h.not_seen hl hk hs).elim
      · exact UInt64.le_refl _
    · rcases hs with hs | ⟨rfl, -⟩
      · exact h.greatest fact hf' t hs
      · exact (hk (mem_keys hf')).elim
  absent := by
    intro j t hs hj
    rcases hs with hs | ⟨rfl, -⟩
    · exact (h.not_seen hl (fun hm => hj (List.mem_cons_of_mem _ hm)) hs).elim
    · exact (hj List.mem_cons_self).elim

/-- In a full list a new identity costs one that is no newer than any other; that may be itself. -/
theorem evict {k : κ} {new : Timestamp} (oldest : κ × Timestamp) {rest : List (κ × Timestamp)}
    (h : NewestKept capacity seen held) (hl : held.length = capacity) (hk : k ∉ held.map Prod.fst)
    (hp : ((k, new) :: held).Perm (oldest :: rest)) (ho : ∀ fact ∈ rest, oldest.2 ≤ fact.2) :
    NewestKept capacity (fun j t => seen j t ∨ (j = k ∧ t = new)) rest := by
  have hlength : rest.length = capacity := by
    have := hp.length_eq
    simp only [List.length_cons] at this
    omega
  have hnodup : ((oldest :: rest).map Prod.fst).Nodup :=
    (hp.map Prod.fst).nodup_iff.mp (List.nodup_cons.mpr ⟨hk, h.distinct⟩)
  obtain ⟨hout, hdistinct⟩ := List.nodup_cons.mp hnodup
  have hmem {fact : κ × Timestamp} (hf : fact ∈ oldest :: rest) : fact = (k, new) ∨ fact ∈ held :=
    List.mem_cons.mp (hp.mem_iff.mpr hf)
  -- Whatever was seen under an identity that is not held was no newer than the oldest of all.
  have hbound {j : κ} {t : Timestamp} (hs : seen j t) (hj : j ∉ held.map Prod.fst)
      {fact : κ × Timestamp} (hf : fact ∈ rest) : t ≤ fact.2 := by
    obtain ⟨-, hall⟩ := h.absent j t hs hj
    rcases hmem List.mem_cons_self with he | he
    · rcases hmem (List.mem_cons_of_mem _ hf) with hf' | hf'
      · exact (hout (he ▸ hf' ▸ mem_keys hf)).elim
      · exact hall fact hf'
    · exact UInt64.le_trans (hall oldest he) (ho fact hf)
  refine ⟨Nat.le_of_eq hlength, hdistinct, fun fact hf => ?_, fun fact hf t hs => ?_,
    fun j t hs hj => ?_⟩
  · rcases hmem (List.mem_cons_of_mem _ hf) with rfl | hf'
    · exact .inr ⟨rfl, rfl⟩
    · exact .inl (h.isSeen fact hf')
  · rcases hmem (List.mem_cons_of_mem _ hf) with rfl | hf'
    · rcases hs with hs | ⟨-, rfl⟩
      · exact hbound hs hk hf
      · exact UInt64.le_refl _
    · rcases hs with hs | ⟨rfl, -⟩
      · exact h.greatest fact hf' t hs
      · exact (hk (mem_keys hf')).elim
  · have holdest (hj' : j ∈ ((k, new) :: held).map Prod.fst) : j = oldest.1 :=
      (List.mem_cons.mp ((hp.map Prod.fst).mem_iff.mp hj')).resolve_right hj
    refine ⟨hlength, fun fact hf => ?_⟩
    rcases hs with hs | ⟨rfl, rfl⟩
    · by_cases hj' : j ∈ held.map Prod.fst
      · have hjo := holdest (List.mem_cons_of_mem _ hj')
        subst hjo
        rcases hmem List.mem_cons_self with rfl | he
        · exact (hk hj').elim
        · exact UInt64.le_trans (h.greatest oldest he t hs) (ho fact hf)
      · exact hbound hs hj' hf
    · have hjo := holdest List.mem_cons_self
      rcases hmem List.mem_cons_self with rfl | he
      · exact ho fact hf
      · exact (hk (hjo ▸ mem_keys he)).elim

/-- What is kept of what was kept before and of more is what is kept of all. -/
theorem trans {more : κ → Timestamp → Prop} {final : List (κ × Timestamp)}
    (h : NewestKept capacity seen held)
    (hf : NewestKept capacity (fun k t => (k, t) ∈ held ∨ more k t) final) :
    NewestKept capacity (fun k t => seen k t ∨ more k t) final := by
  -- A held identity that is lost was no newer than all that is held in the end.
  have hlost {k : κ} {t t' : Timestamp} (hk : (k, t') ∈ held) (ht : t ≤ t')
      (hout : k ∉ final.map Prod.fst) : final.length = capacity ∧ ∀ fact ∈ final, t ≤ fact.2 := by
    obtain ⟨hl, hall⟩ := hf.absent k t' (.inl hk) hout
    exact ⟨hl, fun fact hm => UInt64.le_trans ht (hall fact hm)⟩
  -- So was anything that had been lost before.
  have hout {k : κ} {t : Timestamp} (hs : seen k t) (hk : k ∉ held.map Prod.fst) :
      (∀ fact ∈ final, t ≤ fact.2) ∧ (k ∉ final.map Prod.fst → final.length = capacity) := by
    obtain ⟨hl, hall⟩ := h.absent k t hs hk
    by_cases hsub : held.map Prod.fst ⊆ final.map Prod.fst
    · have hp := List.subperm_of_subset h.distinct hsub
      have hle := hp.length_le
      have hroom := hf.room
      simp only [List.length_map] at hle
      refine ⟨fun fact hm => ?_, fun _ => by omega⟩
      have hperm := hp.perm_of_length_le (by simp only [List.length_map]; omega)
      obtain ⟨before, hb, hkey⟩ := List.mem_map.mp (hperm.mem_iff.mpr (mem_keys hm))
      refine UInt64.le_trans (hall before hb) (hf.greatest fact hm _ (.inl ?_))
      rw [← hkey]
      exact hb
    · obtain ⟨j, hj, hjout⟩ : ∃ j ∈ held.map Prod.fst, j ∉ final.map Prod.fst := by
        by_contra hno
        exact hsub fun j hj => Classical.byContradiction fun hjout => hno ⟨j, hj, hjout⟩
      obtain ⟨before, hb, rfl⟩ := List.mem_map.mp hj
      obtain ⟨hl', hall'⟩ := hlost hb (hall before hb) hjout
      exact ⟨hall', fun _ => hl'⟩
  refine ⟨hf.room, hf.distinct, fun fact hm => ?_, fun fact hm t hs => ?_, fun k t hs hk => ?_⟩
  · exact (hf.isSeen fact hm).imp_left fun hb => h.isSeen _ hb
  · rcases hs with hs | hs
    · by_cases hk : fact.1 ∈ held.map Prod.fst
      · obtain ⟨before, hb, hkey⟩ := List.mem_map.mp hk
        have hle := h.greatest before hb t (hkey ▸ hs)
        refine UInt64.le_trans hle (hf.greatest fact hm _ (.inl ?_))
        rw [← hkey]
        exact hb
      · exact (hout hs hk).1 fact hm
    · exact hf.greatest fact hm t (.inr hs)
  · rcases hs with hs | hs
    · by_cases hk' : k ∈ held.map Prod.fst
      · obtain ⟨before, hb, rfl⟩ := List.mem_map.mp hk'
        exact hlost hb (h.greatest before hb t hs) hk
      · exact ⟨(hout hs hk').2 hk, (hout hs hk').1⟩
    · exact hf.absent k t (.inr hs) hk

end NewestKept

end SessionStore
