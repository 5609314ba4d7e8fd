import Mathlib.Data.List.Perm.Subperm
import SessionStore.Entry.Schema
import SessionStore.Proofs.Msgpack.Stored

/-! The fields of a payload. The pairs of a map are taken in one after the
other: known keys change the draft, others are kept. -/
namespace SessionStore.Schema

open Msgpack (Value)

variable {κ σ : Type} {keys : List (String × κ)} {put : σ → κ → Value → Reading σ}

theorem unsigned_ofUInt64 (field : String) (n : UInt64) : unsigned field (.ofUInt64 n) = .ok n := by
  have h : Value.uint64? (.ofUInt64 n) = some n := by
    simp [Value.uint64?, Value.ofUInt64, Msgpack.Integer.toUInt64?, Msgpack.Integer.ofUInt64]
  rw [unsigned, h]

theorem signed_ofInt64 (field : String) (n : Int64) : signed field (.int (.ofInt64 n)) = .ok n := by
  have h : Value.int64? (.int (.ofInt64 n)) = some n := by
    have hn : n.toInt < 9223372036854775808 := n.toInt_lt
    simp only [Value.int64?, Msgpack.Integer.toInt64?, Msgpack.Integer.ofInt64, if_pos hn,
      Int64.ofInt_toInt]
  rw [signed, h]

theorem lineNumber_ofUInt64 {n : UInt64} (h : n ≠ 0) : lineNumber (.ofUInt64 n) = .ok n := by
  simp [lineNumber, Value.ofUInt64, Msgpack.Integer.toUInt64?, Msgpack.Integer.ofUInt64, h]

theorem column_ofUInt64 (n : UInt64) : column (.ofUInt64 n) = .ok n := by
  simp [column, Value.ofUInt64, Msgpack.Integer.toUInt64?, Msgpack.Integer.ofUInt64]

/-- A code point has room in 64 bits. -/
theorem toNat_codePoint (c : Char) : (UInt64.ofNat c.toNat).toNat = c.toNat := by
  have := c.val.toNat_lt
  rw [UInt64.toNat_ofNat']
  exact Nat.mod_eq_of_lt (Nat.lt_trans this (by decide))

theorem character_of_unsigned {field : String} {v : Value} {c : Char}
    (h : unsigned field v = .ok (UInt64.ofNat c.toNat)) : character field v = .ok c := by
  have hv : c.toNat.isValidChar := c.valid
  rw [character, h, Results.ok_bind, toNat_codePoint, if_pos hv, Char.ofNat_toNat,
    Results.pure_eq_ok]

theorem character_toNat (field : String) (c : Char) :
    character field (.ofUInt64 (UInt64.ofNat c.toNat)) = .ok c :=
  character_of_unsigned (unsigned_ofUInt64 field _)

def optionalPair (isWritten : Bool) (name : String) (v : Value) : List (Value × Value) :=
  if isWritten then [(.ofAscii name, v)] else []

theorem keyIn_stored (key : Value) : keyIn keys key.stored = keyIn keys key := by
  rw [keyIn, keyIn, Value.bytes?_stored]

theorem foldPairs_append (state : σ) (front back : List (Value × Value)) :
    foldPairs keys put state (front ++ back) =
      foldPairs keys put state front >>= fun state => foldPairs keys put state back := by
  induction front generalizing state with
  | nil => rfl
  | cons pair rest ih =>
    obtain ⟨key, value⟩ := pair
    rw [List.cons_append, foldPairs, foldPairs]
    cases keyIn keys key with
    | none => exact ih state
    | some k =>
      dsimp only
      cases put state k value with
      | error e => rfl
      | ok state => exact ih state

theorem foldPairs_cons {state state' : σ} {key value : Value} {k : κ} {rest : List (Value × Value)}
    (hk : keyIn keys key = some k) (hp : put state k value = .ok state') :
    foldPairs keys put state ((key, value) :: rest) = foldPairs keys put state' rest := by
  rw [foldPairs]
  simp only [hk, hp]

/-- A field with its default value may be left out: putting it in changes nothing. -/
theorem foldPairs_optional {isWritten : Bool} {state state' : σ} {name : String}
    {value : Value} {k : κ} (hk : keyIn keys (.ofAscii name) = some k)
    (hp : isWritten = true → put state k value = .ok state')
    (hd : isWritten = false → state' = state) :
    foldPairs keys put state (optionalPair isWritten name value) = .ok state' := by
  unfold optionalPair
  split
  · next h => exact foldPairs_cons hk (hp h)
  · next h => rw [foldPairs, hd (by simpa using h)]

theorem foldPairs_unknown {extra : List (Value × Value)}
    (h : ∀ pair ∈ extra, keyIn keys pair.1 = none) (state : σ) :
    foldPairs keys put state extra = .ok state := by
  induction extra with
  | nil => rfl
  | cons pair rest ih =>
    obtain ⟨hp, hr⟩ := List.forall_mem_cons.mp h
    rw [foldPairs, hp]
    exact ih hr

theorem known_optionalPair {isWritten : Bool} {name : String} {value : Value} {k : κ}
    (hk : keyIn keys (.ofAscii name) = some k) :
    ∀ pair ∈ optionalPair isWritten name value, keyIn keys pair.1 ≠ none := by
  intro pair hp
  unfold optionalPair at hp
  split at hp
  · rw [List.mem_singleton.mp hp, hk]
    exact Option.some_ne_none k
  · cases hp

theorem unknownPairs_append {fields extra : List (Value × Value)}
    (hf : ∀ pair ∈ fields, keyIn keys pair.1 ≠ none)
    (he : ∀ pair ∈ extra, keyIn keys pair.1 = none) :
    unknownPairs keys (fields ++ extra) = extra := by
  have hfields : fields.filter (fun pair => (keyIn keys pair.1).isNone) = [] :=
    List.filter_eq_nil_iff.mpr fun pair hp h => hf pair hp (Option.isNone_iff_eq_none.mp h)
  have hextra : extra.filter (fun pair => (keyIn keys pair.1).isNone) = extra :=
    List.filter_eq_self.mpr fun pair hp => Option.isNone_iff_eq_none.mpr (he pair hp)
  rw [unknownPairs, List.filter_append, hfields, hextra, List.nil_append]

/-- What holds at first and after every pair that is put in holds at the end. -/
theorem foldPairs_invariant {P : σ → Prop} {pairs : List (Value × Value)} {state final : σ}
    (hput : ∀ {s s' k v key}, (key, v) ∈ pairs → keyIn keys key = some k → P s →
      put s k v = .ok s' → P s')
    (hs : P state) (h : foldPairs keys put state pairs = .ok final) : P final := by
  induction pairs generalizing state with
  | nil => exact Except.ok.inj h ▸ hs
  | cons pair rest ih =>
    obtain ⟨key, value⟩ := pair
    have hrest {s s' k v key} (hm : (key, v) ∈ rest) (hk : keyIn keys key = some k) :=
      @hput s s' k v key (List.mem_cons_of_mem _ hm) hk
    rw [foldPairs] at h
    split at h
    · exact ih hrest hs h
    · next k hk =>
      split at h
      · next s' hp => exact ih hrest (hput List.mem_cons_self hk hs hp) h
      · cases h

/-- The fields for which there are pairs, as often as there are. -/
def knownKeys (keys : List (String × κ)) (pairs : List (Value × Value)) : List κ :=
  pairs.filterMap fun pair => keyIn keys pair.1

theorem mem_knownKeys {key value : Value} {k : κ} {pairs : List (Value × Value)}
    (hm : (key, value) ∈ pairs) (hk : keyIn keys key = some k) : k ∈ knownKeys keys pairs :=
  List.mem_filterMap.mpr ⟨(key, value), hm, hk⟩

theorem exists_key_of_keyIn {key : Value} {k : κ} (h : keyIn keys key = some k) :
    ∃ name, (name, k) ∈ keys := by
  obtain ⟨bytes, -, hb⟩ := Option.bind_eq_some_iff.mp h
  obtain ⟨found, hfind, rfl⟩ := Option.map_eq_some_iff.mp hb
  exact ⟨found.1, List.mem_of_find?_eq_some hfind⟩

theorem mem_of_mem_knownKeys {k : κ} {pairs : List (Value × Value)} (h : k ∈ knownKeys keys pairs) :
    k ∈ keys.map Prod.snd := by
  obtain ⟨pair, -, hk⟩ := List.mem_filterMap.mp h
  obtain ⟨name, hm⟩ := exists_key_of_keyIn hk
  exact List.mem_map.mpr ⟨_, hm, rfl⟩

theorem length_knownKeys (keys : List (String × κ)) (pairs : List (Value × Value)) :
    (knownKeys keys pairs).length + (unknownPairs keys pairs).length = pairs.length := by
  induction pairs with
  | nil => rfl
  | cons pair rest ih =>
    unfold knownKeys unknownPairs at ih ⊢
    cases hk : keyIn keys pair.1 with
    | none => simp [hk]; omega
    | some k => simp [hk]; omega

/-- Different fields, each of which stood in the map, and the additional pairs
are no more than the pairs of the map. -/
theorem length_fields_le {written : List κ} {pairs : List (Value × Value)} (hn : written.Nodup)
    (hw : ∀ k ∈ written, k ∈ knownKeys keys pairs) :
    written.length + (unknownPairs keys pairs).length ≤ pairs.length := by
  have hl := (List.subperm_of_subset hn hw).length_le
  have hp := length_knownKeys keys pairs
  omega

theorem length_optionalPair (isWritten : Bool) (name : String) (value : Value) :
    (optionalPair isWritten name value).length = isWritten.toNat := by
  cases isWritten <;> rfl

theorem lineNumber_ne_zero {v : Value} {lnum : UInt64} (h : lineNumber v = .ok lnum) :
    lnum ≠ 0 := by
  unfold lineNumber at h
  split at h
  · split at h
    · split at h
      · cases h
      · next hz => exact Except.ok.inj h ▸ hz
    · cases h
  · cases h

end SessionStore.Schema
