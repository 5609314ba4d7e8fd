import SessionStore.Proofs.Newest
import SessionStore.Proofs.Turns

/-! However many sessions take turns on a file, none of its slots loses an update. -/
namespace SessionStore

open Entry (newest? firstNewest inSlot)
open Msgpack (Value)

namespace Entry

theorem firstNewest_toList (held : Option Entry) : firstNewest held.toList = held := by
  cases held <;> rfl

theorem inSlot_map_stored (slot : Slot) (entries : List Entry) :
    inSlot slot (entries.map stored) = (inSlot slot entries).map stored := by
  unfold inSlot
  rw [List.filter_map]
  refine congrArg (List.map stored) (List.filter_congr fun entry _ => ?_)
  obtain ⟨timestamp, content⟩ := entry
  cases content <;> rfl

/-- What a file holds of the newest of all: this entry if there is room for all
its pairs, and nothing newer. -/
structure Tracks (held newest : Option Entry) : Prop where
  noNewer : ∀ entry ∈ held, ∃ other ∈ newest, entry.timestamp ≤ other.timestamp
  same : (∀ entry ∈ newest, entry.content.HasRoom) → held.map stored = newest.map stored

theorem Tracks.refl (held : Option Entry) : Tracks held held :=
  ⟨fun entry he => ⟨entry, he, UInt64.le_refl _⟩, fun _ => rfl⟩

theorem Tracks.takeOver {held newest : Option Entry} (h : Tracks held newest) (entry : Entry) :
    Tracks (takeOver held entry) (takeOver newest entry) := by
  by_cases hn : newest.all (·.timestamp ≤ entry.timestamp) = true
  · have hh : held.all (·.timestamp ≤ entry.timestamp) = true := by
      rw [Option.all_eq_true] at hn ⊢
      intro old ho
      obtain ⟨other, hother, hle⟩ := h.noNewer old ho
      exact decide_eq_true (UInt64.le_trans hle (of_decide_eq_true (hn other hother)))
    rw [Entry.takeOver, Entry.takeOver, if_pos hn, if_pos hh]
    exact .refl _
  · refine ⟨fun old ho => ?_, fun hroom => ?_⟩
    · rw [Entry.takeOver, if_neg hn]
      unfold Entry.takeOver at ho
      split at ho
      · cases Option.some.inj ho
        cases newest with
        | none => exact absurd rfl hn
        | some other =>
          exact ⟨other, rfl, UInt64.le_of_lt (UInt64.not_le.mp fun hle => hn (decide_eq_true hle))⟩
      · exact h.noNewer old ho
    · refine map_stored_takeOver (h.same ?_) entry
      rwa [Entry.takeOver, if_neg hn] at hroom

/-- Nothing is lost by leaving out what cannot be written. -/
theorem Tracks.filter {settings : Settings} {held newest : Option Entry} (h : Tracks held newest)
    (hw : ∀ entry ∈ held, entry.content.HasRoom → settings.writes entry = true) :
    Tracks ((held.filter settings.writes).map stored) newest := by
  refine ⟨fun entry he => ?_, fun hroom => ?_⟩
  · obtain ⟨original, ho, rfl⟩ := Option.mem_map.mp he
    exact h.noNewer original (Option.mem_filter_iff.mp ho).1
  · have hsame := h.same hroom
    have hwritten : ∀ entry ∈ held, settings.writes entry = true := by
      intro entry he
      refine hw entry he (Content.hasRoom_stored.mp ?_)
      have hstored : entry.stored ∈ newest.map stored := hsame ▸ Option.mem_map_of_mem _ he
      obtain ⟨other, hother, heq⟩ := Option.mem_map.mp hstored
      have hcontent : other.content.stored = entry.content.stored := congrArg Entry.content heq
      exact hcontent ▸ Content.hasRoom_stored.mpr (hroom other hother)
    have hall : held.filter settings.writes = held := by
      cases held with
      | none => rfl
      | some entry => exact Option.filter_some_pos (hwritten entry rfl)
    rw [hall, map_stored_map_stored, hsame]

end Entry

namespace Session

variable {settings : Settings} {session : Session}

/-- A merge starts each slot with what the session has and takes what is newer from the file. -/
theorem held?_merged_eq_foldl (hr : settings.removable = []) (hk : session.KeyedByName)
    (occasion : Occasion) (file : Stream) :
    (session.merged settings occasion file).SlotsFit ∧ ∀ slot, slot.IsValid → slot.IsKept settings →
      (session.merged settings occasion file).held? slot =
        (inSlot slot file.entries).foldl Entry.keepNewer (session.held? slot) := by
  obtain ⟨hseed, hstart⟩ := Merge.slotsFit_seed occasion.now hr hk
  obtain ⟨hfit, hslot⟩ := hseed.foldl_absorb hr file.entries
  refine ⟨⟨hfit.registers, hfit.globalMarks⟩, fun slot hv hon => ?_⟩
  have hhistory : (session.merged settings occasion file).held? slot =
      (file.entries.foldl (Merge.absorb settings)
        ((Merge.start settings).seed settings occasion.now session)).held? slot := by
    rcases slot with (_ | _) | _ | _ | _ <;> rfl
  rw [hhistory, hslot slot hv hon, hstart slot hv hon]

section Turn

variable (hl : settings.registerLines = 0) (hg : settings.globalMarks = true)
  (hr : settings.removable = [])
include hg hr

/-- A merge keeps of each slot the newer one of the file's and the session's. -/
theorem held?_merged (hk : session.KeyedByName) (occasion : Occasion) (file : Stream) :
    (session.merged settings occasion file).SlotsFit ∧ ∀ slot, slot.IsValid →
      (session.merged settings occasion file).held? slot =
        newest? (inSlot slot file.entries) (session.held? slot).toList := by
  obtain ⟨hfit, hslot⟩ := held?_merged_eq_foldl hr hk occasion file
  refine ⟨hfit, fun slot hv => ?_⟩
  rw [hslot slot hv (slot.isKept hg)]
  cases session.held? slot with
  | none => rfl
  | some entry => exact Entry.foldl_keepNewer_some _ entry

include hl

/-- A turn keeps the newer one as well, if it can be written. -/
theorem inSlot_saved (hs : session.Survives settings) (hk : session.KeyedByName) {file : Stream}
    (hf : file.Sound) (occasion : Occasion) {slot : Slot} (hv : slot.IsValid) :
    let newer := newest? (inSlot slot file.entries) (session.held? slot).toList
    inSlot slot (session.saved settings occasion file).entries =
        ((newer.filter settings.writes).map Entry.stored).toList ∧
      ∀ entry ∈ newer, entry.content.HasRoom → settings.writes entry = true := by
  intro newer
  obtain ⟨hfit, hslot⟩ := held?_merged hg hr hk occasion file
  have hheld : inSlot slot ((session.merged settings occasion file).entries settings
      occasion session) = newer.toList := by
    rw [Merge.inSlot_entries hfit (kind_unknown_merged occasion session file) occasion slot,
      hslot slot hv]
  constructor
  · rw [(entries_saved hs hf occasion).2, Entry.inSlot_map_stored, inSlot, List.filter_comm]
    change ((inSlot slot _).filter settings.writes).map Entry.stored = _
    rw [hheld, ← Option.toList_filter, ← Option.toList_map]
  · intro entry he hroom
    have hmem : entry ∈ inSlot slot
        ((session.merged settings occasion file).entries settings occasion session) := by
      rw [hheld]
      exact Option.mem_toList.mpr he
    have hsound := sound_merged hs hf occasion entry (List.mem_of_mem_filter hmem)
    obtain ⟨payload, hp, -⟩ := Content.decode_encode (hsound.storable hroom)
    exact writes_of_encode hl ⟨payload, hp, hsound.size payload hp⟩

end Turn

def offeredFor (slot : Slot) (turns : List (Occasion × Session)) : List Entry :=
  turns.filterMap fun turn => turn.2.held? slot

/-- What a file that sessions saved to has in a slot: the newest of all if it
can be written, and nothing else, provided that there were any sessions. -/
structure HoldsNewest (slot : Slot) (file : Stream) (before : List (Occasion × Session))
    (s : Stream) : Prop where
  tracks : Entry.Tracks (firstNewest (inSlot slot s.entries))
    (newest? (inSlot slot file.entries) (offeredFor slot before))
  only : before ≠ [] →
    inSlot slot s.entries = ((firstNewest (inSlot slot s.entries)).map Entry.stored).toList

theorem HoldsNewest.next (hl : settings.registerLines = 0) (hg : settings.globalMarks = true)
    (hr : settings.removable = []) {slot : Slot} (hv : slot.IsValid) {file s : Stream}
    {before : List (Occasion × Session)} (h : HoldsNewest slot file before s)
    {turn : Occasion × Session} (hs : turn.2.Survives settings) (hk : turn.2.KeyedByName)
    (hf : s.Sound) :
    HoldsNewest slot file (before ++ [turn]) (turn.2.saved settings turn.1 s) := by
  obtain ⟨hsaved, hwrites⟩ := inSlot_saved hl hg hr hs hk hf turn.1 hv
  have htracks : Entry.Tracks (newest? (inSlot slot s.entries) (turn.2.held? slot).toList)
      (newest? (inSlot slot file.entries) (offeredFor slot (before ++ [turn]))) := by
    unfold offeredFor
    rw [List.filterMap_append]
    cases he : turn.2.held? slot with
    | none =>
      have hnone : [turn].filterMap (fun turn => turn.2.held? slot) = [] := by simp [he]
      rw [hnone, List.append_nil]
      exact h.tracks
    | some entry =>
      have hlast : [turn].filterMap (fun turn => turn.2.held? slot) = [entry] := by simp [he]
      rw [hlast, Entry.newest?_append]
      exact h.tracks.takeOver entry
  have hwritten := htracks.filter hwrites
  rw [← Entry.firstNewest_toList (Option.map _ _), ← hsaved] at hwritten
  refine ⟨hwritten, fun _ => ?_⟩
  rw [hsaved, Entry.firstNewest_toList, Entry.map_stored_map_stored]

/-- Whoever takes turns on a file, each slot has in the end the newest of all that the
file and the sessions had for it, and nothing only if none of them had anything. An
exception is a register of the file in a map of so many pairs that there is no room for
its name, which is not written again. The payloads are as long as a memory can hold. -/
theorem turns_lose_no_update (hm : settings.maxKbyte = 0) (hl : settings.registerLines = 0)
    (hg : settings.globalMarks = true) (hr : settings.removable = []) {file : Stream}
    (hf : file.IsReadable) (hp : file.PayloadsBelow (2 ^ 56)) {turns : List (Occasion × Session)}
    (hn : turns ≠ []) (hs : ∀ turn ∈ turns, turn.2.Survives settings)
    (hk : ∀ turn ∈ turns, turn.2.KeyedByName) :
    ∃ final, saveInTurn settings file turns = .ok final ∧ ∀ slot, slot.IsValid →
      ∃ held, Entry.Newest (inSlot slot file.entries) (offeredFor slot turns) held ∧
        ((∀ entry ∈ held, entry.content.HasRoom) →
          inSlot slot final.entries = (held.map Entry.stored).toList) := by
  have hsound := Stream.sound_of_isCountable hf hp.isCountable
  have hstart (slot : Slot) : HoldsNewest slot file [] file := ⟨.refl _, fun h => absurd rfl h⟩
  obtain ⟨final, hfinal, hholds⟩ := saveInTurn_induction
    (P := fun before s => ∀ slot : Slot, slot.IsValid → HoldsNewest slot file before s)
      hm hsound [] hs
    (fun slot _ => hstart slot) fun before turn s ht hsound hbefore slot hv =>
      (hbefore slot hv).next hl hg hr hv (hs turn ht) (hk turn ht) hsound
  refine ⟨final, hfinal, fun slot hv => ⟨_, Entry.newest_newest? _ _, fun hroom => ?_⟩⟩
  rw [(hholds slot hv).only hn, (hholds slot hv).tracks.same hroom]
  rfl

/-- A broken file has a register "a", and then two sessions have it as well, the
first one as new as the file. -/
theorem turns_lose_no_update_register :
    let settings : Settings := { maxKbyte := 0, registerLines := 0 }
    let file : Stream :=
      ⟨[5, 3, 10, 0x82, 0xA2, 0x72, 0x63, 0x91, 0xA1, 0x78, 0xA1, 0x6E, 0x61, 0], false⟩
    let session (time : Timestamp) (text : UInt8) : Session :=
      ({} : Session).setRegister ⟨time, { name := 'a', contents := [[text]] }⟩
    let turns : List (Occasion × Session) := [(⟨9, 1⟩, session 3 0x79), (⟨9, 2⟩, session 2 0x7A)]
    ∃ final, saveInTurn settings file turns = .ok final ∧ ∀ slot, slot.IsValid →
      ∃ held, Entry.Newest (inSlot slot file.entries) (offeredFor slot turns) held ∧
        ((∀ entry ∈ held, entry.content.HasRoom) →
          inSlot slot final.entries = (held.map Entry.stored).toList) := by
  intro settings file session turns
  have hencode (text : UInt8) : Content.encode (.register { name := 'a', contents := [[text]] }) =
      .ok [0x82, 0xA2, 0x72, 0x63, 0x91, 0xA1, text, 0xA1, 0x6E, 0x61] := rfl
  have hregister (text : UInt8) :
      Content.Survives (.register { name := 'a', contents := [[text]] }) := by
    refine ⟨⟨by simp, by simp, by simp, ⟨?_, by simp, by simp, by simp⟩⟩, fun payload hp => ?_⟩
    · show 2 < 2 ^ 32
      decide
    · cases (hencode text).symm.trans hp
      simp
  have hsession (time : Timestamp) (text : UInt8) : (session time text).Survives settings := by
    intro now entry ho
    cases ho with
    | register h =>
      cases List.mem_singleton.mp h
      exact hregister text
    | buffers h | globalVariable h | replacement h | jump h | globalMark h => cases h
    | @pattern substitute p h => cases substitute <;> cases h
    | localMark h | change h => cases h
    | @history type item h => cases type <;> cases h
  have hkeys (time : Timestamp) (text : UInt8) : (session time text).KeyedByName :=
    ⟨List.forall_mem_singleton.mpr rfl, fun e he => by cases he⟩
  have hread : file.read =
      ⟨[⟨5, 3, [0x82, 0xA2, 0x72, 0x63, 0x91, 0xA1, 0x78, 0xA1, 0x6E, 0x61], 0⟩],
        some (.format 13 .reservedKind), 14⟩ := by
    have hframe : file.cursor.frame =
        .ok (⟨5, 3, [0x82, 0xA2, 0x72, 0x63, 0x91, 0xA1, 0x78, 0xA1, 0x6E, 0x61], 0⟩,
          ⟨[0], 13, false⟩) := rfl
    have hdamage : Cursor.frame ⟨[0], 13, false⟩ = .error ⟨.format 13 .reservedKind, 14⟩ := rfl
    rw [Stream.read, Cursor.frames_of_ok hframe, Cursor.frames_of_error (by simp) hdamage]
  refine turns_lose_no_update rfl rfl rfl rfl (fun attempt he => ?_) ?_ (by simp [turns]) ?_ ?_
  · rw [hread] at he
    cases he
  · rw [Stream.PayloadsBelow, hread]
    exact List.forall_mem_singleton.mpr (by simp)
  · exact List.forall_mem_cons.mpr ⟨hsession 3 0x79,
      List.forall_mem_singleton.mpr (hsession 2 0x7A)⟩
  · exact List.forall_mem_cons.mpr ⟨hkeys 3 0x79, List.forall_mem_singleton.mpr (hkeys 2 0x7A)⟩

end Session

/-! The largest register that can be read. -/

namespace Register

/-- The payload of a register of one line. No pair of it is the name, the others
are pairs of nothing. -/
def nameless (pairs : Nat) : Value :=
  .map ((.ofAscii "rc", .array [.ofAscii "x"]) :: List.replicate pairs (.nil, .nil))

def ofNameless (pairs : Nat) : Register where
  contents := [Bytes.ofAscii "x"]
  additional := List.replicate pairs (.nil, .nil)

theorem forall_mem_nameless {P : Value → Prop}
    (hfield : P (.ofAscii "rc") ∧ P (.array [.ofAscii "x"])) (hnil : P .nil) (pairs : Nat) :
    ∀ pair ∈ (Value.ofAscii "rc", Value.array [.ofAscii "x"]) :: List.replicate pairs (.nil, .nil),
      P pair.1 ∧ P pair.2 := by
  refine List.forall_mem_cons.mpr ⟨hfield, fun pair hp => ?_⟩
  rw [List.eq_of_mem_replicate hp]
  exact ⟨hnil, hnil⟩

theorem fits_nameless {pairs : Nat} (h : pairs + 1 < 2 ^ 32) :
    (nameless pairs).Fits Value.depthBudget := by
  have hline : (Value.array [.ofAscii "x"]).Fits partDepth :=
    .array (by decide) (List.forall_mem_singleton.mpr (.text (by decide)))
  have hparts :=
    forall_mem_nameless (P := Value.Fits partDepth) ⟨.text (by decide), hline⟩ .nil pairs
  exact .map (by rwa [List.length_cons, List.length_replicate]) (fun pair hp => (hparts pair hp).1)
    fun pair hp => (hparts pair hp).2

theorem stored_nameless (pairs : Nat) : (nameless pairs).stored = nameless pairs := by
  have hline : (Value.array [.ofAscii "x"]).Clean :=
    .array (List.forall_mem_singleton.mpr (.text (by decide)))
  have hparts := forall_mem_nameless (P := Value.Clean) ⟨.text (by decide), hline⟩ .nil pairs
  exact Value.Clean.stored_eq (.map (fun pair hp => (hparts pair hp).1) fun pair hp =>
    (hparts pair hp).2)

theorem length_encode_nameless_le (pairs : Nat) :
    (nameless pairs).encode.length ≤ 18 * pairs + 100 := by
  have hlength := (nameless pairs).length_encode_le
  have hspan : Value.spanPairs (List.replicate pairs (.nil, .nil)) = 2 * pairs := by
    rw [Value.spanPairs_eq_sum, List.map_replicate, List.sum_replicate_nat, Nat.mul_comm]
    rfl
  rw [nameless, Value.span, Value.spanPairs, hspan] at hlength
  have hfield : (Value.ofAscii "rc").span + (Value.array [.ofAscii "x"]).span = 6 := by decide
  unfold nameless
  omega

theorem ofValue_nameless (pairs : Nat) : ofValue (nameless pairs) = .ok (ofNameless pairs) := by
  have hunknown : ∀ pair ∈ List.replicate pairs (Value.nil, Value.nil),
      Schema.keyIn keys pair.1 = none := by
    intro pair hp
    rw [List.eq_of_mem_replicate hp]
    rfl
  refine ofValue_map_eq_ok_iff.mpr ⟨{ contents := some [Bytes.ofAscii "x"] }, _, ?_, rfl,
    List.cons_ne_nil _ _, ?_⟩
  · rw [Schema.foldPairs_cons (k := .contents) (by rfl) (by rfl)]
    exact Schema.foldPairs_unknown hunknown _
  · have hknown : ∀ pair ∈ [(Value.ofAscii "rc", Value.array [.ofAscii "x"])],
        Schema.keyIn keys pair.1 ≠ none := by decide
    have hadditional := Schema.unknownPairs_append hknown hunknown
    rw [List.singleton_append] at hadditional
    rw [hadditional]
    rfl

end Register

def Stream.nameless (timestamp : Timestamp) (pairs : Nat) : Stream where
  bytes := Frame.encode { kind := 5, timestamp, payload := (Register.nameless pairs).encode }

/-- The file is whole, and has nothing but this register. -/
theorem Stream.read_nameless (timestamp : Timestamp) (pairs : Nat) (h : pairs + 1 < 2 ^ 32) :
    (nameless timestamp pairs).Sound ∧
      (nameless timestamp pairs).entries = [⟨timestamp, .register (.ofNameless pairs)⟩] := by
  have hlength := Register.length_encode_nameless_le pairs
  have hframe :
      Frame.Readable { kind := 5, timestamp, payload := (Register.nameless pairs).encode } :=
    ⟨show (5 : UInt64) ≠ 0 by decide, by dsimp only; omega⟩
  have hread := Stream.read_encode (List.forall_mem_singleton.mpr hframe)
  rw [List.flatMap_singleton] at hread
  have hpayload : Schema.payloadValue (Register.nameless pairs).encode =
      .ok (Register.nameless pairs) := by
    have hvalue := Value.reads_encode (Register.fits_nameless h) []
    rw [List.append_nil, Register.stored_nameless] at hvalue
    rw [Schema.payloadValue, hvalue]
  have hdecode : Frame.decode ⟨5, timestamp, (Register.nameless pairs).encode, 0⟩ =
      .ok ⟨timestamp, .register (.ofNameless pairs)⟩ := by
    have hkind : (Kind.ofId 5).getD .unknown = .register := rfl
    have hcontent : Content.ofValue .register (Register.nameless pairs) =
        .ok (.register (.ofNameless pairs)) := by
      rw [Content.ofValue, Register.ofValue_nameless]
      rfl
    unfold Frame.decode
    simp only [hkind, hpayload, Results.ok_bind, hcontent]
  have hbelow : (nameless timestamp pairs).PayloadsBelow (2 ^ 56) := by
    rw [PayloadsBelow, nameless, hread]
    refine List.forall_mem_singleton.mpr ?_
    dsimp only
    omega
  constructor
  · refine sound_of_isCountable (isReadable_of_error_eq_none ?_) hbelow.isCountable
    rw [nameless, hread]
  · rw [entries, nameless, hread, Reading.decoded, Frame.placed, Frame.placed,
      List.map_singleton, hdecode]
    rfl

/-- With its name, the largest register has one pair more than a map can have. -/
theorem Register.writes_ofNameless (settings : Settings) (timestamp : Timestamp) (pairs : Nat)
    (h : 2 ^ 32 ≤ pairs + 2) :
    settings.writes ⟨timestamp, .register (.ofNameless pairs)⟩ = false := by
  have hnone : (Entry.mk timestamp (.register (.ofNameless pairs))).frame? = none := by
    unfold Entry.frame?
    cases hp : (Content.register (.ofNameless pairs)).encode with
    | error e => rfl
    | ok payload =>
      have hroom : 2 + (List.replicate pairs (Value.nil, Value.nil)).length < 2 ^ 32 :=
        Content.hasRoom_of_encode hp
      rw [List.length_replicate] at hroom
      omega
  rw [Settings.writes, hnone]
  exact Bool.and_false _

namespace Session

/-- A session of nothing is merged with a file of the largest register, which has no
name, and the register is lost. A pattern that a session has in the slot for searches
is written as one of a search, although it says that it is one of a substitution. -/
theorem turns_lose_largest_register :
    let settings : Settings := { maxKbyte := 0, registerLines := 0 }
    let file : Stream := .nameless 3 (2 ^ 32 - 2)
    let pattern : Timed SearchPattern := ⟨5, { pattern := [0x78], isSubstitute := true }⟩
    let session : Session := ({} : Session).setPattern false pattern
    (file.IsReadable ∧ ({} : Session).Survives settings ∧ ({} : Session).KeyedByName ∧
      ∃ final, saveInTurn settings file [(⟨9, 1⟩, {})] = .ok final ∧
        inSlot (.register '"') file.entries ≠ [] ∧ inSlot (.register '"') final.entries = []) ∧
      session.Survives settings ∧ session.KeyedByName ∧
        ∃ final, saveInTurn settings .empty [(⟨9, 1⟩, session)] = .ok final ∧
          ∀ entry ∈ final.entries, entry.content ≠ .searchPattern pattern.value := by
  intro settings file pattern session
  have hkeys (held : Option (Timed SearchPattern)) :
      ({ searchPattern := held } : Session).KeyedByName :=
    ⟨List.forall_mem_nil _, List.forall_mem_nil _⟩
  have hsurvives (held : Option (Timed SearchPattern))
      (h : ∀ p ∈ held, (Content.searchPattern { p.value with isSubstitute := false }).Survives) :
      ({ searchPattern := held } : Session).Survives settings := by
    intro now entry ho
    cases ho with
    | @pattern substitute p hp =>
      cases substitute with
      | false => exact h p hp
      | true => cases hp
    | @history type item h => cases type <;> cases h
    | buffers h | globalVariable h | replacement h | jump h | globalMark h | register h => cases h
    | localMark h | change h => cases h
  have hempty := hsurvives none (by simp)
  have hpattern : session.Survives settings := by
    refine hsurvives (some pattern) fun p hp => ?_
    cases Option.some.inj hp
    have hencode : Content.encode (.searchPattern { pattern := [0x78] }) =
        .ok [0x81, 0xA2, 0x73, 0x70, 0xA1, 0x78] := rfl
    refine ⟨⟨by simp [pattern], ⟨?_, by simp [pattern], by simp [pattern], by simp [pattern]⟩⟩,
      fun payload hp => ?_⟩
    · show 1 < 2 ^ 32
      decide
    · cases hencode.symm.trans hp
      simp
  have hvalid : (Slot.register '"').IsValid := rfl
  have hsubstitute : (Slot.pattern true).IsValid := trivial
  obtain ⟨hsound, hentries⟩ := Stream.read_nameless 3 (2 ^ 32 - 2) (by decide)
  constructor
  · refine ⟨hsound.isReadable, hempty, hkeys none, _,
      saveInTurn_cons rfl hsound.isReadable (⟨9, 1⟩, {}) [], ?_, ?_⟩
    · rw [hentries]
      exact List.cons_ne_nil _ _
    · rw [(inSlot_saved rfl rfl rfl hempty (hkeys none) hsound ⟨9, 1⟩ hvalid).1, hentries]
      have hnewest (pairs : Nat) :
          newest? (inSlot (.register '"') [⟨3, .register (.ofNameless pairs)⟩]) [] =
          some ⟨3, .register (.ofNameless pairs)⟩ := rfl
      have hheld : ({} : Session).held? (.register '"') = none := rfl
      have hleftOut := Register.writes_ofNameless settings 3 (2 ^ 32 - 2) (by decide)
      rw [hheld, Option.toList_none, hnewest, Option.filter_some_neg (by rw [hleftOut])]
      rfl
  · refine ⟨hpattern, hkeys (some pattern), _,
      saveInTurn_cons rfl Stream.sound_empty.isReadable (⟨9, 1⟩, session) [], ?_⟩
    intro entry he hcontent
    have hslot : entry ∈ inSlot (.pattern true) (session.saved settings ⟨9, 1⟩ .empty).entries :=
      List.mem_filter.mpr ⟨he, by rw [hcontent]; rfl⟩
    have hsaved := inSlot_saved rfl rfl rfl hpattern (hkeys (some pattern)) Stream.sound_empty
      ⟨9, 1⟩ hsubstitute
    rw [hsaved.1, Stream.entries_empty] at hslot
    cases hslot

end Session

end SessionStore
