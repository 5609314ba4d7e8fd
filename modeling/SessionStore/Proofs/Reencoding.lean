import SessionStore.Proofs.Payload.RoundTrip
import SessionStore.Proofs.Payload.Sizes
import SessionStore.Proofs.Payload.Stability

/-! What is written is read back, and whatever a payload is understood as can be written again.
What is written then may differ from the payload, but from then on it stays as it is. -/
namespace SessionStore

open Msgpack (Value)
open Schema

theorem Kind.id?_of_ofId {id : UInt64} {kind : Kind} (h : ofId id = some kind)
    (hk : kind ≠ .unknown) : kind.id? = some id := by
  unfold ofId at h
  split at h <;> cases h
  case h_13 => exact absurd rfl hk
  all_goals
    next hid => exact congrArg some (UInt64.toNat_inj.mp hid.symm)

namespace Content

theorem kind_of_ofValue {kind : Kind} {v : Value} {content : Content}
    (h : ofValue kind v = .ok content) : content.kind = kind := by
  cases kind with
  | bufferList =>
    obtain ⟨found, -, h⟩ := Results.bind_eq_ok_iff.mp h
    obtain ⟨buffers, -, h⟩ := Results.bind_eq_ok_iff.mp h
    cases Except.ok.inj h
    rfl
  | unknown => cases h
  | _ =>
    obtain ⟨_, -, rfl⟩ := Results.map_eq_ok_iff.mp h
    rfl

theorem id_eq {content : Content} (h : content.kind ≠ .unknown) :
    content.id = content.kind.id?.getD 0 := by
  cases content with
  | unknown => exact absurd rfl h
  | _ => rfl

end Content

namespace Entry

/-- Reading undoes writing: an entry that can be stored, and whose carried values have
no strings but text, is given back by its own payload, wherever the frame begins. -/
theorem encode_decodes_back {entry : Entry} (hs : entry.content.Storable)
    (hc : entry.content.Clean) : ∃ payload, entry.encode = .ok payload ∧
      ∀ offset, Frame.decode ⟨entry.kindId, entry.timestamp, payload, offset⟩ = .ok entry := by
  obtain ⟨payload, he, hd⟩ := Content.decode_encode hs
  refine ⟨payload, by rw [Entry.encode, he], fun offset => ?_⟩
  have hback := hd entry.timestamp offset
  rw [hc.stored_eq] at hback
  exact hback

/-- A jump to the last line of a file whose path is not text. Its additional key
names marks of other kinds. -/
theorem encode_decodes_back_jump :
    let extra : ExtraPairs :=
      [(.ofAscii "n", .array [.bin [0xFF], .map [(.nil, .int (.ofInt64 (-1)))]])]
    let jump : Mark := { file := ⟨[0xFF]⟩, lnum := 18446744073709551615, additional := extra }
    let entry : Entry := ⟨0, .jump jump⟩
    (entry.content.Storable ∧ entry.content.Clean) ∧ ∃ payload, entry.encode = .ok payload ∧
      ∀ offset, Frame.decode ⟨entry.kindId, entry.timestamp, payload, offset⟩ = .ok entry := by
  intro extra jump entry
  have hfit : extra.Fit (Mark.keys false) partDepth (jump.fields false).length := by
    refine ⟨by decide, List.forall_mem_singleton.mpr rfl,
      List.forall_mem_singleton.mpr (.text (by decide)), ?_⟩
    have hmap : (Value.map [(.nil, .int (.ofInt64 (-1)))]).Fits (partDepth - 2) :=
      .map (by decide) (List.forall_mem_singleton.mpr .nil) (List.forall_mem_singleton.mpr (.int _))
    have hitems : ∀ item ∈ [Value.bin [0xFF], .map [(.nil, .int (.ofInt64 (-1)))]],
        item.Fits (partDepth - 2) :=
      List.forall_mem_cons.mpr ⟨.bin (by decide), List.forall_mem_singleton.mpr hmap⟩
    exact List.forall_mem_singleton.mpr (.array (by decide) hitems)
  have hs : entry.content.Storable := ⟨by decide, by decide, fun _ => rfl, hfit⟩
  have hc : entry.content.Clean := by
    have hmap : (Value.map [(.nil, .int (.ofInt64 (-1)))]).Clean :=
      .map (List.forall_mem_singleton.mpr .nil) (List.forall_mem_singleton.mpr (.int _))
    have hitems : ∀ item ∈ [Value.bin [0xFF], .map [(.nil, .int (.ofInt64 (-1)))]], item.Clean :=
      List.forall_mem_cons.mpr ⟨.bin _, List.forall_mem_singleton.mpr hmap⟩
    exact List.forall_mem_singleton.mpr ⟨.text (by decide), .array hitems⟩
  exact ⟨⟨hs, hc⟩, encode_decodes_back hs hc⟩

end Entry

theorem Schema.payloadValue_ok {payload : Bytes} {v : Value} (h : payloadValue payload = .ok v) :
    v.Fits Value.depthBudget ∧ v.span ≤ payload.length := by
  unfold payloadValue at h
  split at h
  · cases h
  · next hr =>
    cases Except.ok.inj h
    exact Value.read_ok hr
  · cases h

namespace Frame

/-- What a frame is understood as belongs under its kind and can be stored, but for a
register that has no room for its name; there is none in a payload of less than 4 GiB. -/
theorem decode_ok {frame : Frame} {entry : Entry} (h : frame.decode = .ok entry) :
    entry.timestamp = frame.timestamp ∧ entry.content.id = frame.kind ∧
      (entry.content.HasRoom → entry.content.Storable) ∧
      (frame.payload.length < 2 ^ 32 → entry.content.HasRoom) := by
  unfold decode at h
  split at h
  · next hk =>
    cases Except.ok.inj h
    exact ⟨rfl, rfl, fun _ => hk, fun _ => trivial⟩
  · next hu =>
    split at h
    · next content hv =>
      cases Except.ok.inj h
      obtain ⟨v, hp, hv⟩ := Results.bind_eq_ok_iff.mp hv
      obtain ⟨hfits, hspan⟩ := payloadValue_ok hp
      refine ⟨rfl, ?_, Content.storable_of_ofValue hfits hv, fun hl => ?_⟩
      · have hkind := Content.kind_of_ofValue hv
        cases hid : Kind.ofId frame.kind with
        | none => exact (hu (by rw [hid]; rfl)).elim
        | some kind =>
          rw [hid, Option.getD_some] at hu hkind
          rw [Content.id_eq (hkind ▸ hu), hkind, Kind.id?_of_ofId hid hu, Option.getD_some]
      · have hwidth := v.width_lt_span
        exact Content.hasRoom_of_ofValue hfits hv (by omega)
    · cases h

/-- Written again, an entry takes few bytes for each of its payload. -/
theorem atMost_of_decode {frame : Frame} {entry : Entry} (h : frame.decode = .ok entry) :
    Encoding.AtMost (200 * frame.payload.length) entry.content.encode := by
  unfold decode at h
  split at h
  · cases Except.ok.inj h
    exact Encoding.atMost_ok (by omega)
  · split at h
    · next content hv =>
      cases Except.ok.inj h
      obtain ⟨v, hp, hv⟩ := Results.bind_eq_ok_iff.mp hv
      obtain ⟨-, hspan⟩ := payloadValue_ok hp
      exact (Content.atMost_of_ofValue hv).mono (Nat.mul_le_mul_left 200 hspan)
    · cases h

/-- Writing what was understood succeeds; reading it gives the same entry with its strings
that are not text turned into binary data, and writing that one gives the same bytes. -/
theorem reencode {frame : Frame} {entry : Entry} (hl : frame.payload.length < 2 ^ 32)
    (h : frame.decode = .ok entry) :
    ∃ payload, entry.encode = .ok payload ∧ { frame with payload }.decode = .ok entry.stored ∧
      entry.stored.encode = .ok payload := by
  obtain ⟨ht, hid, hs, hroom⟩ := decode_ok h
  obtain ⟨payload, he, hd⟩ := Content.decode_encode (hs (hroom hl))
  have hentry : entry.encode = .ok payload := by rw [Entry.encode, he]
  have hstored : entry.stored.encode = .ok payload := by
    rw [Entry.encode, Entry.stored, Content.encode_stored, he]
  refine ⟨payload, hentry, ?_, hstored⟩
  have hdecode := hd frame.timestamp frame.offset
  rw [hid] at hdecode
  rw [hdecode, Entry.stored, ht]

/-- The variable "g" with one byte that is not text. -/
theorem reencode_byte :
    let frame : Frame := { kind := 6, timestamp := 7, payload := [0x92, 0xA1, 0x67, 0xA1, 0xFF] }
    let entry : Entry := ⟨7, .variable { name := [0x67], value := .str [0xFF] }⟩
    frame.decode = .ok entry ∧
      ∃ payload, entry.encode = .ok payload ∧ { frame with payload }.decode = .ok entry.stored ∧
        entry.stored.encode = .ok payload :=
  ⟨rfl, reencode (by decide) rfl⟩

end Frame

end SessionStore
