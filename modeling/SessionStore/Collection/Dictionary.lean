/-! Maps kept in the order in which their keys were first seen. -/
namespace SessionStore

/-- A map whose entries stand in first-seen order, no two of them under equal keys. -/
structure Dictionary (κ υ : Type) [BEq κ] where
  entries : List (κ × υ)
  distinct : entries.Pairwise fun a b => (a.1 == b.1) = false

namespace Dictionary

variable {κ υ : Type} [BEq κ]

def empty : Dictionary κ υ := ⟨[], .nil⟩

instance : Inhabited (Dictionary κ υ) := ⟨empty⟩

def keys (d : Dictionary κ υ) : List κ := d.entries.map Prod.fst

def values (d : Dictionary κ υ) : List υ := d.entries.map Prod.snd

def size (d : Dictionary κ υ) : Nat := d.entries.length

def find? (d : Dictionary κ υ) (key : κ) : Option υ :=
  (d.entries.find? fun e => e.1 == key).map Prod.snd

def contains (d : Dictionary κ υ) (key : κ) : Bool := d.entries.any fun e => e.1 == key

/-- Puts `f` of what the key holds under the key, which keeps its place and
spelling; a new key goes last. -/
def alterEntries (key : κ) (f : Option υ → υ) : List (κ × υ) → List (κ × υ)
  | [] => [(key, f none)]
  | (k, v) :: rest =>
    if k == key then (k, f (some v)) :: rest else (k, v) :: alterEntries key f rest

theorem mem_alterEntries {key : κ} {f : Option υ → υ} {e : κ × υ} :
    ∀ {entries : List (κ × υ)}, e ∈ alterEntries key f entries →
      e.1 = key ∨ ∃ e' ∈ entries, e'.1 = e.1
  | [], h => by simp_all [alterEntries]
  | (k, v) :: rest, h => by
    rw [alterEntries] at h
    split at h
    · rcases List.mem_cons.1 h with rfl | h
      · exact .inr ⟨(k, v), by simp, rfl⟩
      · exact .inr ⟨e, List.mem_cons_of_mem _ h, rfl⟩
    · rcases List.mem_cons.1 h with rfl | h
      · exact .inr ⟨(k, v), by simp, rfl⟩
      · rcases mem_alterEntries h with h | ⟨e', he', h⟩
        · exact .inl h
        · exact .inr ⟨e', List.mem_cons_of_mem _ he', h⟩

theorem distinct_alterEntries (key : κ) (f : Option υ → υ) {entries : List (κ × υ)}
    (h : entries.Pairwise fun a b => (a.1 == b.1) = false) :
    (alterEntries key f entries).Pairwise fun a b => (a.1 == b.1) = false := by
  induction entries with
  | nil => simp [alterEntries]
  | cons e rest ih =>
    obtain ⟨k, v⟩ := e
    obtain ⟨hk, hrest⟩ := List.pairwise_cons.1 h
    rw [alterEntries]
    split
    · exact List.pairwise_cons.2 ⟨hk, hrest⟩
    · next hne =>
      refine List.pairwise_cons.2 ⟨fun e' he' => ?_, ih hrest⟩
      rcases mem_alterEntries he' with he' | ⟨e'', he'', heq⟩
      · simpa [he'] using hne
      · exact heq ▸ hk e'' he''

def alter (d : Dictionary κ υ) (key : κ) (f : Option υ → υ) : Dictionary κ υ :=
  ⟨alterEntries key f d.entries, distinct_alterEntries key f d.distinct⟩

def insert (d : Dictionary κ υ) (key : κ) (value : υ) : Dictionary κ υ := d.alter key fun _ => value

/-- Puts a value under a key that holds none yet. -/
def insertNew (d : Dictionary κ υ) (key : κ) (value : υ) : Dictionary κ υ :=
  d.alter key fun held => held.getD value

end Dictionary

end SessionStore
