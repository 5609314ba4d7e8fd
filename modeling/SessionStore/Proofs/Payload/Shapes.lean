import Mathlib.Data.List.Nodup
import SessionStore.Proofs.Payload.Fields

/-! The shapes of payload values: what stands for a text, a number or a
character, and which of the pairs of a map stand for a field. -/
namespace SessionStore

namespace Msgpack.Value

inductive IsText : Value → Bytes → Prop
  | str (bytes : Bytes) : IsText (.str bytes) bytes
  | bin (bytes : Bytes) : IsText (.bin bytes) bytes

def IsInteger (v : Value) (n : Int) : Prop := ∃ i : Integer, v = .int i ∧ i.toInt = n

def IsFlag (v : Value) (b : Bool) : Prop := v = .bool b

def IsUnsigned (v : Value) (n : UInt64) : Prop := v.IsInteger n.toNat

def IsSigned (v : Value) (n : Int64) : Prop := v.IsInteger n.toInt

def IsLine (v : Value) (n : UInt64) : Prop := v.IsUnsigned n ∧ 1 ≤ n

def IsCharacter (v : Value) (c : Char) : Prop := v.IsInteger c.toNat

def IsTexts (v : Value) (lines : List Bytes) : Prop :=
  ∃ items, v = .array items ∧ List.Forall₂ IsText items lines

theorem isText_iff {v : Value} {bytes : Bytes} : v.IsText bytes ↔ v.bytes? = some bytes := by
  constructor
  · rintro ⟨⟩ <;> rfl
  · intro h
    cases v <;> cases h
    · exact .str bytes
    · exact .bin bytes

instance (v : Value) (bytes : Bytes) : Decidable (v.IsText bytes) := decidable_of_iff' _ isText_iff

end Msgpack.Value

namespace Msgpack.Integer

theorem toUInt64?_eq_some_iff {i : Integer} {n : UInt64} :
    i.toUInt64? = some n ↔ i.toInt = n.toNat := by
  have hupper := i.upper
  have hn := n.toNat_lt
  unfold toUInt64?
  constructor
  · intro h
    split at h
    · next hlower =>
      rw [← Option.some.inj h, UInt64.toNat_ofNat', Nat.mod_eq_of_lt (by omega)]
      omega
    · cases h
  · intro h
    rw [if_pos (by omega), h, Int.toNat_natCast, UInt64.ofNat_toNat]

theorem toInt64?_eq_some_iff {i : Integer} {n : Int64} :
    i.toInt64? = some n ↔ i.toInt = n.toInt := by
  have hlower := i.lower
  have hn := n.toInt_lt
  unfold toInt64?
  constructor
  · intro h
    split at h
    · next hupper =>
      rw [← Option.some.inj h, Int64.toInt_ofInt_of_le (by omega) (by omega)]
    · cases h
  · intro h
    rw [if_pos (by omega), h, Int64.ofInt_toInt]

end Msgpack.Integer

open Msgpack (Value)

namespace Schema

section Values

variable {field : String} {v : Value}

theorem string_eq_ok_iff {bytes : Bytes} : string field v = .ok bytes ↔ v.IsText bytes := by
  rw [Value.isText_iff, string]
  cases v.bytes? with
  | none => simp
  | some found => simp

theorem boolean_eq_ok_iff {b : Bool} : boolean field v = .ok b ↔ v.IsFlag b := by
  unfold Value.IsFlag
  cases v <;> simp [boolean, Value.bool?]

theorem unsigned_eq_ok_iff {n : UInt64} : unsigned field v = .ok n ↔ v.IsUnsigned n := by
  unfold unsigned Value.IsUnsigned Value.IsInteger
  cases v with
  | int i =>
    rw [Value.uint64?]
    cases h : i.toUInt64? <;> simp [← Msgpack.Integer.toUInt64?_eq_some_iff, h]
  | _ => simp [Value.uint64?]

theorem signed_eq_ok_iff {n : Int64} : signed field v = .ok n ↔ v.IsSigned n := by
  unfold signed Value.IsSigned Value.IsInteger
  cases v with
  | int i =>
    rw [Value.int64?]
    cases h : i.toInt64? <;> simp [← Msgpack.Integer.toInt64?_eq_some_iff, h]
  | _ => simp [Value.int64?]

theorem column_eq_ok_iff {n : UInt64} : column v = .ok n ↔ v.IsUnsigned n := by
  unfold column Value.IsUnsigned Value.IsInteger
  cases v with
  | int i => cases h : i.toUInt64? <;> simp [← Msgpack.Integer.toUInt64?_eq_some_iff, h]
  | _ => simp

theorem lineNumber_eq_ok_iff {n : UInt64} : lineNumber v = .ok n ↔ v.IsLine n := by
  have hpos {lnum : UInt64} : 1 ≤ lnum ↔ lnum ≠ 0 := by
    rw [UInt64.le_iff_toNat_le, ne_eq, ← UInt64.toNat_inj]
    exact Nat.one_le_iff_ne_zero
  unfold lineNumber Value.IsLine Value.IsUnsigned Value.IsInteger
  cases v with
  | int i =>
    cases h : i.toUInt64? with
    | none => simp [← Msgpack.Integer.toUInt64?_eq_some_iff, h]
    | some lnum =>
      simp only [← Msgpack.Integer.toUInt64?_eq_some_iff, Value.int.injEq, exists_eq_left', h,
        Option.some.injEq, hpos]
      constructor
      · intro he
        split at he
        · cases he
        · next hz => exact ⟨Except.ok.inj he, Except.ok.inj he ▸ hz⟩
      · rintro ⟨rfl, hz⟩
        exact if_neg hz
  | _ => simp

theorem character_eq_ok_iff {c : Char} : character field v = .ok c ↔ v.IsCharacter c := by
  constructor
  · intro h
    obtain ⟨code, hcode, h⟩ := Results.bind_eq_ok_iff.mp h
    split at h
    · next hvalid =>
      have hnat : (Char.ofNat code.toNat).toNat = code.toNat := by
        rw [Char.ofNat, dif_pos hvalid]
        rfl
      rw [← Except.ok.inj h, Value.IsCharacter, hnat]
      exact unsigned_eq_ok_iff.mp hcode
    · cases h
  · intro h
    refine character_of_unsigned (unsigned_eq_ok_iff.mpr ?_)
    rw [Value.IsUnsigned, toNat_codePoint]
    exact h

theorem mapM_string_eq_ok_iff {values : List Value} {lines : List Bytes} :
    values.mapM (string field) = .ok lines ↔ List.Forall₂ Value.IsText values lines := by
  rw [Results.mapM_eq_ok_iff]
  exact ⟨List.Forall₂.imp fun _ _ => string_eq_ok_iff.mp, List.Forall₂.imp fun _ _ =>
    string_eq_ok_iff.mpr⟩

theorem pairs_eq_ok_iff {found : List (Value × Value)} :
    pairs field v = .ok found ↔ v = .map found := by
  cases v <;> simp [pairs]

theorem items_eq_ok_iff {found : List Value} : items field v = .ok found ↔ v = .array found := by
  cases v <;> simp [items]

end Values

/-- What is read by one computation is the only thing that can be read. -/
theorem rightUnique_of_eq_ok_iff {α : Type} {read : Value → Reading α} {Is : Value → α → Prop}
    (h : ∀ {v a}, read v = .ok a ↔ Is v a) : Relator.RightUnique Is :=
  fun _ _ _ ha hb => Except.ok.inj ((h.mpr ha).symm.trans (h.mpr hb))

theorem rightUnique_isText : Relator.RightUnique Value.IsText :=
  @rightUnique_of_eq_ok_iff _ (string "") _ string_eq_ok_iff

theorem rightUnique_isFlag : Relator.RightUnique Value.IsFlag :=
  @rightUnique_of_eq_ok_iff _ (boolean "") _ boolean_eq_ok_iff

theorem rightUnique_isUnsigned : Relator.RightUnique Value.IsUnsigned :=
  @rightUnique_of_eq_ok_iff _ (unsigned "") _ unsigned_eq_ok_iff

theorem rightUnique_isSigned : Relator.RightUnique Value.IsSigned :=
  @rightUnique_of_eq_ok_iff _ (signed "") _ signed_eq_ok_iff

theorem rightUnique_isLine : Relator.RightUnique Value.IsLine :=
  rightUnique_of_eq_ok_iff lineNumber_eq_ok_iff

theorem rightUnique_isCharacter : Relator.RightUnique Value.IsCharacter :=
  @rightUnique_of_eq_ok_iff _ (character "") _ character_eq_ok_iff

theorem rightUnique_isTexts : Relator.RightUnique Value.IsTexts := by
  rintro v lines lines' ⟨items, rfl, h⟩ ⟨items', he, h'⟩
  cases he
  exact rightUnique_isText.forall₂ h h'

section Pairs

variable {name : String} {pair : Value × Value} {rest pairs : List (Value × Value)}

def HasKey (name : String) (pair : Value × Value) : Prop := pair.1.IsText (Bytes.ofAscii name)

instance (name : String) (pair : Value × Value) : Decidable (HasKey name pair) :=
  inferInstanceAs (Decidable (pair.1.IsText _))

def valuesAt (name : String) (pairs : List (Value × Value)) : List Value :=
  (pairs.filter fun pair => HasKey name pair).map Prod.snd

/-- The last value under a key counts, and where there is none the default does. -/
def Latest {α : Type} (Is : Value → α → Prop) (name : String) (default : α)
    (pairs : List (Value × Value)) (a : α) : Prop :=
  match (valuesAt name pairs).getLast? with
  | some v => Is v a
  | none => a = default

theorem mem_valuesAt {v : Value} :
    v ∈ valuesAt name pairs ↔ ∃ pair ∈ pairs, HasKey name pair ∧ pair.2 = v := by
  simp [valuesAt]

theorem valuesAt_cons_of_hasKey (h : HasKey name pair) :
    valuesAt name (pair :: rest) = pair.2 :: valuesAt name rest := by
  simp [valuesAt, h]

theorem valuesAt_cons_of_not_hasKey (h : ¬HasKey name pair) :
    valuesAt name (pair :: rest) = valuesAt name rest := by
  simp [valuesAt, h]

theorem Latest.cons_of_hasKey {α : Type} {Is : Value → α → Prop} {default a b : α}
    (hk : HasKey name pair) (hb : Is pair.2 b) (h : Latest Is name b rest a) :
    Latest Is name default (pair :: rest) a := by
  unfold Latest at h ⊢
  rw [valuesAt_cons_of_hasKey hk, List.getLast?_cons]
  cases hlast : (valuesAt name rest).getLast? with
  | none =>
    rw [hlast] at h
    exact h ▸ hb
  | some v =>
    rw [hlast] at h
    exact h

theorem Latest.cons_of_not_hasKey {α : Type} {Is : Value → α → Prop} {default a : α}
    (hk : ¬HasKey name pair) (h : Latest Is name default rest a) :
    Latest Is name default (pair :: rest) a := by
  unfold Latest at h ⊢
  rw [valuesAt_cons_of_not_hasKey hk]
  exact h

/-- There is one thing that counts. -/
theorem Latest.unique {α : Type} {Is : Value → α → Prop} (hi : Relator.RightUnique Is)
    {default a b : α} (ha : Latest Is name default pairs a)
    (hb : Latest Is name default pairs b) : a = b := by
  unfold Latest at ha hb
  cases hlast : (valuesAt name pairs).getLast? with
  | none =>
    rw [hlast] at ha hb
    exact ha.trans hb.symm
  | some v =>
    rw [hlast] at ha hb
    exact hi ha hb

/-- The last value under a key that has to be there. -/
def LastIs {α : Type} (Is : Value → α → Prop) (name : String) (pairs : List (Value × Value))
    (a : α) : Prop :=
  ∃ v, (valuesAt name pairs).getLast? = some v ∧ Is v a

theorem LastIs.valuesAt_ne_nil {α : Type} {Is : Value → α → Prop} {a : α}
    (h : LastIs Is name pairs a) : valuesAt name pairs ≠ [] := by
  obtain ⟨v, hv, -⟩ := h
  intro he
  rw [he] at hv
  cases hv

theorem LastIs.unique {α : Type} {Is : Value → α → Prop} (hi : Relator.RightUnique Is) {a b : α}
    (ha : LastIs Is name pairs a) (hb : LastIs Is name pairs b) : a = b := by
  obtain ⟨v, hv, ha⟩ := ha
  obtain ⟨w, hw, hb⟩ := hb
  cases hv.symm.trans hw
  exact hi ha hb

theorem Latest.imp {α : Type} {Is Is' : Value → α → Prop} {default a : α}
    (hi : ∀ v a, Is v a → Is' v a) (h : Latest Is name default pairs a) :
    Latest Is' name default pairs a := by
  unfold Latest at h ⊢
  cases hlast : (valuesAt name pairs).getLast? with
  | none =>
    rw [hlast] at h
    exact h
  | some v =>
    rw [hlast] at h
    exact hi v a h

/-- What has been seen of a field, if there is a value for it. -/
def Seen {α : Type} (Is : Value → α → Prop) (v : Value) (seen : Option α) : Prop :=
  ∃ a, Is v a ∧ some a = seen

theorem Latest.lastIs {α : Type} {Is : Value → α → Prop} {a : α}
    (h : Latest (Seen Is) name none pairs (some a)) : LastIs Is name pairs a := by
  unfold Latest at h
  cases hlast : (valuesAt name pairs).getLast? with
  | none =>
    rw [hlast] at h
    cases h
  | some v =>
    rw [hlast] at h
    obtain ⟨b, hv, hb⟩ := h
    cases hb
    exact ⟨v, hlast, hv⟩

theorem Latest.valuesAt_eq_nil {α : Type} {Is : Value → α → Prop}
    (h : Latest (Seen Is) name none pairs none) : valuesAt name pairs = [] := by
  unfold Latest at h
  cases hlast : (valuesAt name pairs).getLast? with
  | none => exact List.getLast?_eq_none_iff.mp hlast
  | some v =>
    rw [hlast] at h
    obtain ⟨b, -, hb⟩ := h
    cases hb

/-- The known keys of a map, each with what its values have to be. -/
abbrev Requirements := List (String × (Value → Prop))

namespace Requirements

/-- Every value under a known key is what it has to be. -/
def Met (known : Requirements) (pairs : List (Value × Value)) : Prop :=
  ∀ key ∈ known, ∀ v ∈ valuesAt key.1 pairs, key.2 v

def others (known : Requirements) (pairs : List (Value × Value)) : ExtraPairs :=
  pairs.filter fun pair => ∀ key ∈ known, ¬HasKey key.1 pair

end Requirements

end Pairs

section Keys

variable {κ σ : Type} {Holds : κ → Type} {Is : (k : κ) → Value → Holds k → Prop}
  {set : σ → (k : κ) → Holds k → σ} {keys : List (String × κ)} {put : σ → κ → Value → Reading σ}
  {pairs : List (Value × Value)} {pair : Value × Value}

theorem keyIn_eq_none_iff : keyIn keys pair.1 = none ↔ ∀ key ∈ keys, ¬HasKey key.1 pair := by
  unfold keyIn HasKey
  simp only [Value.isText_iff]
  cases pair.1.bytes? with
  | none => simp
  | some bytes =>
    simp only [Option.bind_some, Option.map_eq_none_iff, List.find?_eq_none, decide_eq_true_eq,
      Option.some.injEq]
    exact forall₂_congr fun _ _ => not_congr eq_comm

/-- Fields that are taken in from the pairs of a map: their keys differ, and
putting in a value sets a field to what the value is. -/
structure Takes (keys : List (String × κ)) (put : σ → κ → Value → Reading σ)
    (Is : (k : κ) → Value → Holds k → Prop) (set : σ → (k : κ) → Holds k → σ) : Prop where
  names : (keys.map fun key => Bytes.ofAscii key.1).Nodup
  fields : (keys.map Prod.snd).Nodup
  put_eq_ok_iff : ∀ {state next k v}, put state k v = .ok next ↔ ∃ a, Is k v a ∧
    set state k a = next

/-- A part that one field sets and no other changes. -/
structure Part {α : Type} (set : σ → (k : κ) → Holds k → σ) (k : κ) (get : σ → α)
    (wrap : Holds k → α) : Prop where
  self : ∀ state a, get (set state k a) = wrap a
  other : ∀ {state j} (a : Holds j), j ≠ k → get (set state j a) = get state

def requirements (keys : List (String × κ)) (Is : (k : κ) → Value → Holds k → Prop) :
    Requirements :=
  keys.map fun key => (key.1, fun v => ∃ a, Is key.2 v a)

theorem others_requirements : (requirements keys Is).others pairs = unknownPairs keys pairs := by
  unfold Requirements.others unknownPairs requirements
  refine List.filter_congr fun pair _ => ?_
  rw [Bool.eq_iff_iff, decide_eq_true_iff, Option.isNone_iff_eq_none, keyIn_eq_none_iff,
    List.forall_mem_map]

namespace Takes

variable (h : Takes keys put Is set)
include h

theorem keyIn_eq_some_iff {k : κ} {name : String} (hm : (name, k) ∈ keys) :
    keyIn keys pair.1 = some k ↔ HasKey name pair := by
  unfold keyIn HasKey
  rw [Value.isText_iff]
  constructor
  · intro hk
    obtain ⟨bytes, hb, hk⟩ := Option.bind_eq_some_iff.mp hk
    obtain ⟨key, hfind, hkey⟩ := Option.map_eq_some_iff.mp hk
    have hname : key = (name, k) :=
      List.inj_on_of_nodup_map h.fields (List.mem_of_find?_eq_some hfind) hm hkey
    have hbytes : Bytes.ofAscii key.1 = bytes := of_decide_eq_true (List.find?_some hfind :)
    rw [hb, ← hbytes, hname]
  · intro hb
    have hsome : (keys.find? fun key => Bytes.ofAscii key.1 = Bytes.ofAscii name).isSome :=
      List.find?_isSome.mpr ⟨_, hm, decide_eq_true rfl⟩
    obtain ⟨key, hfind⟩ := Option.isSome_iff_exists.mp hsome
    have hbytes : Bytes.ofAscii key.1 = Bytes.ofAscii name :=
      of_decide_eq_true (List.find?_some hfind :)
    have hname : key = (name, k) :=
      List.inj_on_of_nodup_map h.names (List.mem_of_find?_eq_some hfind) hm hbytes
    rw [hb, Option.bind_some, hfind, hname]
    rfl

/-- All pairs are taken in exactly if those with known keys have values that are
what they have to be. -/
theorem exists_foldPairs (state : σ) (pairs : List (Value × Value)) :
    (∃ final, foldPairs keys put state pairs = .ok final) ↔
      ∀ pair ∈ pairs, ∀ k, keyIn keys pair.1 = some k → ∃ a, Is k pair.2 a := by
  induction pairs generalizing state with
  | nil => simp [foldPairs]
  | cons pair rest ih =>
    rw [foldPairs, List.forall_mem_cons]
    cases hk : keyIn keys pair.1 with
    | none => simp [ih]
    | some k =>
      cases hp : put state k pair.2 with
      | error e =>
        have hno : ¬∃ a, Is k pair.2 a := by
          rintro ⟨a, ha⟩
          cases hp.symm.trans (h.put_eq_ok_iff.mpr ⟨a, ha, rfl⟩)
        simp [hp, hno]
      | ok next =>
        obtain ⟨a, ha, -⟩ := h.put_eq_ok_iff.mp hp
        have hsome : ∃ a, Is k pair.2 a := ⟨a, ha⟩
        simp [hp, hsome, ih]

theorem met_iff :
    (requirements keys Is).Met pairs ↔ ∀ pair ∈ pairs, ∀ k, keyIn keys pair.1 = some k →
      ∃ a, Is k pair.2 a := by
  unfold Requirements.Met requirements
  rw [List.forall_mem_map]
  constructor
  · intro hmet pair hp k hk
    obtain ⟨name, hm⟩ := exists_key_of_keyIn hk
    exact hmet _ hm _ (mem_valuesAt.mpr ⟨pair, hp, (h.keyIn_eq_some_iff hm).mp hk, rfl⟩)
  · intro hall key hm v hv
    obtain ⟨pair, hp, hkey, rfl⟩ := mem_valuesAt.mp hv
    exact hall pair hp key.2 ((h.keyIn_eq_some_iff hm).mpr hkey)

section Field

variable {α : Type} {k : κ} {get : σ → α} {wrap : Holds k → α} (hp : Part set k get wrap)
  {state final : σ} (hf : foldPairs keys put state pairs = .ok final)
include hp hf

theorem get_foldPairs (hk : k ∉ keys.map Prod.snd) : get final = get state := by
  refine foldPairs_invariant (P := fun s => get s = get state) (fun hm hj hs hput => ?_) rfl hf
  obtain ⟨a, -, rfl⟩ := h.put_eq_ok_iff.mp hput
  exact (hp.other a fun he => hk (he ▸ mem_of_mem_knownKeys (mem_knownKeys hm hj))).trans hs

/-- Of the values that are taken in for a field the last one counts. -/
private theorem latest_of_foldPairs {name : String} (hm : (name, k) ∈ keys) :
    Latest (fun v b => ∃ a, Is k v a ∧ wrap a = b) name (get state) pairs (get final) := by
  induction pairs generalizing state with
  | nil => exact congrArg get (Except.ok.inj hf).symm
  | cons pair rest ih =>
    rw [foldPairs] at hf
    have hkey : keyIn keys pair.1 = some k ↔ HasKey name pair := h.keyIn_eq_some_iff hm
    split at hf
    · next hk => exact (ih hf).cons_of_not_hasKey fun hh => by rw [hkey.mpr hh] at hk; cases hk
    · next j hk =>
      split at hf
      · next next hput =>
        obtain ⟨a, ha, rfl⟩ := h.put_eq_ok_iff.mp hput
        by_cases hj : j = k
        · subst hj
          exact (ih hf).cons_of_hasKey (hkey.mp hk) ⟨a, ha, (hp.self _ a).symm⟩
        · have hno : ¬HasKey name pair :=
            fun hh => hj (Option.some.inj (hk.symm.trans (hkey.mpr hh)))
          have hrest := ih hf
          rw [hp.other a hj] at hrest
          exact hrest.cons_of_not_hasKey hno
      · cases hf

end Field

/-- The last value of a field counts, and without any the field stays as it is. -/
theorem latest {k : κ} {get : σ → Holds k} (hp : Part set k get id) (name : String)
    (hm : (name, k) ∈ keys) {state final : σ} (hf : foldPairs keys put state pairs = .ok final) :
    Latest (Is k) name (get state) pairs (get final) :=
  (h.latest_of_foldPairs hp hf hm).imp fun _ _ ⟨_, ha, he⟩ => he ▸ ha

section Mandatory

variable {k : κ} {get : σ → Option (Holds k)} (hp : Part set k get some) (name : String)
  (hm : (name, k) ∈ keys) {state final : σ} (h₀ : get state = none)
include hp hm h₀

theorem seen (hf : foldPairs keys put state pairs = .ok final) :
    Latest (Seen (Is k)) name none pairs (get final) :=
  h₀ ▸ h.latest_of_foldPairs hp hf hm

/-- What has been seen of a field is the last value under its key. -/
theorem lastIs (hf : foldPairs keys put state pairs = .ok final) {a : Holds k}
    (ha : get final = some a) : LastIs (Is k) name pairs a :=
  Latest.lastIs (ha ▸ h.seen hp name hm h₀ hf)

/-- All pairs are taken in, and a field with them, exactly if all values are
what they have to be and one of them is for the field. -/
theorem exists_seen_iff :
    (∃ final a, foldPairs keys put state pairs = .ok final ∧ get final = some a) ↔
      (requirements keys Is).Met pairs ∧ valuesAt name pairs ≠ [] := by
  rw [h.met_iff, ← h.exists_foldPairs state pairs]
  constructor
  · rintro ⟨final, a, hf, ha⟩
    exact ⟨⟨final, hf⟩, (h.lastIs hp name hm h₀ hf ha).valuesAt_ne_nil⟩
  · rintro ⟨⟨final, hf⟩, hne⟩
    cases hget : get final with
    | none => exact absurd (Latest.valuesAt_eq_nil (hget ▸ h.seen hp name hm h₀ hf)) hne
    | some a => exact ⟨final, a, hf, hget⟩

end Mandatory

end Takes

end Keys

end Schema

end SessionStore
