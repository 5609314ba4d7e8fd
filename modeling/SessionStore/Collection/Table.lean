/-! Maps kept in the order of their keys. -/
namespace SessionStore

/-- A map whose entries stand in strictly ascending order of their keys. -/
structure Table (κ υ : Type) [Ord κ] where
  entries : List (κ × υ)
  ascending : entries.Pairwise fun a b => compare a.1 b.1 = .lt

namespace Table

variable {κ υ : Type} [Ord κ]

def empty : Table κ υ := ⟨[], .nil⟩

instance : Inhabited (Table κ υ) := ⟨empty⟩

def keys (t : Table κ υ) : List κ := t.entries.map Prod.fst

def values (t : Table κ υ) : List υ := t.entries.map Prod.snd

def size (t : Table κ υ) : Nat := t.entries.length

def find? (t : Table κ υ) (key : κ) : Option υ :=
  (t.entries.find? fun e => compare e.1 key == .eq).map Prod.snd

/-- Puts `f` of what the key holds under the key, which keeps the spelling it has. -/
def alterEntries (key : κ) (f : Option υ → υ) : List (κ × υ) → List (κ × υ)
  | [] => [(key, f none)]
  | (k, v) :: rest =>
    match compare key k with
    | .lt => (key, f none) :: (k, v) :: rest
    | .eq => (k, f (some v)) :: rest
    | .gt => (k, v) :: alterEntries key f rest

theorem mem_alterEntries {key : κ} {f : Option υ → υ} {e : κ × υ} :
    ∀ {entries : List (κ × υ)}, e ∈ alterEntries key f entries →
      e.1 = key ∨ ∃ e' ∈ entries, e'.1 = e.1
  | [], h => by simp_all [alterEntries]
  | (k, v) :: rest, h => by
    rw [alterEntries] at h
    split at h
    · rcases List.mem_cons.1 h with rfl | h
      · exact .inl rfl
      · exact .inr ⟨e, h, rfl⟩
    · rcases List.mem_cons.1 h with rfl | h
      · exact .inr ⟨(k, v), by simp, rfl⟩
      · exact .inr ⟨e, List.mem_cons_of_mem _ h, rfl⟩
    · rcases List.mem_cons.1 h with rfl | h
      · exact .inr ⟨(k, v), by simp, rfl⟩
      · rcases mem_alterEntries h with h | ⟨e', he', h⟩
        · exact .inl h
        · exact .inr ⟨e', List.mem_cons_of_mem _ he', h⟩

variable [Std.TransOrd κ]

theorem ascending_alterEntries (key : κ) (f : Option υ → υ) {entries : List (κ × υ)}
    (h : entries.Pairwise fun a b => compare a.1 b.1 = .lt) :
    (alterEntries key f entries).Pairwise fun a b => compare a.1 b.1 = .lt := by
  induction entries with
  | nil => simp [alterEntries]
  | cons e rest ih =>
    obtain ⟨k, v⟩ := e
    obtain ⟨hk, hrest⟩ := List.pairwise_cons.1 h
    rw [alterEntries]
    split
    · next hlt =>
      refine List.pairwise_cons.2 ⟨fun e' he' => ?_, h⟩
      rcases List.mem_cons.1 he' with rfl | he'
      · exact hlt
      · exact Std.TransCmp.lt_trans hlt (hk e' he')
    · exact List.pairwise_cons.2 ⟨hk, hrest⟩
    · next hgt =>
      refine List.pairwise_cons.2 ⟨fun e' he' => ?_, ih hrest⟩
      rcases mem_alterEntries he' with he' | ⟨e'', he'', heq⟩
      · exact he' ▸ Std.OrientedCmp.lt_of_gt hgt
      · exact heq ▸ hk e'' he''

def alter (t : Table κ υ) (key : κ) (f : Option υ → υ) : Table κ υ :=
  ⟨alterEntries key f t.entries, ascending_alterEntries key f t.ascending⟩

def contains (t : Table κ υ) (key : κ) : Bool := t.entries.any fun e => compare e.1 key == .eq

def erase (t : Table κ υ) (key : κ) : Table κ υ :=
  ⟨t.entries.filter fun e => compare e.1 key != .eq, t.ascending.filter _⟩

def insert (t : Table κ υ) (key : κ) (value : υ) : Table κ υ := t.alter key fun _ => value

end Table

end SessionStore
