import SessionStore.Proofs.Payload.Lists
import SessionStore.Proofs.Payload.Marks
import SessionStore.Proofs.Payload.Patterns
import SessionStore.Proofs.Payload.Registers

/-! Every storable entry is read back from its payload as what it is when stored. -/
namespace SessionStore

open Encoding
open Msgpack (Value Reads)
open Schema

namespace Content

def id (content : Content) : UInt64 := (Entry.mk 0 content).kindId

/-- The bytes of a value are a payload that is understood as the value is. -/
theorem decode_writes {content : Content} {v : Value} {kind : Kind}
    (hk : Kind.ofId content.id = some kind) (hu : kind ≠ .unknown)
    (hw : Writes Value.depthBudget content.encode v) :
    ∃ payload, content.encode = .ok payload ∧ ∀ timestamp offset,
      Frame.decode ⟨content.id, timestamp, payload, offset⟩ =
        match ofValue kind v with
        | .ok back => .ok ⟨timestamp, back⟩
        | .error cause => .error (.item offset kind cause) := by
  obtain ⟨payload, he, hr⟩ := hw
  refine ⟨payload, he, fun timestamp offset => ?_⟩
  have hp : payloadValue payload = .ok v := by
    have := hr []
    rw [List.append_nil] at this
    rw [payloadValue, this]
  unfold Frame.decode
  rw [hk, Option.getD_some]
  split
  · exact absurd rfl hu
  · cases hv : ofValue kind v <;> simp only [hp, Results.ok_bind, hv]

/-- What a payload must hold for the content to come back: its bytes, read as a
value of its kind. -/
theorem decode_of_writes {content back : Content} {v : Value} {kind : Kind}
    (hk : Kind.ofId content.id = some kind) (hu : kind ≠ .unknown)
    (hw : Writes Value.depthBudget content.encode v) (hv : ofValue kind v = .ok back) :
    ∃ payload, content.encode = .ok payload ∧ ∀ timestamp offset,
      Frame.decode ⟨content.id, timestamp, payload, offset⟩ = .ok ⟨timestamp, back⟩ := by
  obtain ⟨payload, he, hd⟩ := decode_writes hk hu hw
  rw [hv] at hd
  exact ⟨payload, he, hd⟩

theorem writes_bufferList {buffers : List Buffer} (hn : buffers.length < 2 ^ 32)
    (h : ∀ b ∈ buffers, b.Storable) :
    Writes Value.depthBudget (array (buffers.map Buffer.encode) [])
      (.array (buffers.map fun b => .map (b.mark.fields false ++ b.additional.stored))) := by
  have hw : List.Forall₂ (Writes partDepth) (buffers.map Buffer.encode)
      (buffers.map fun b => Value.map (b.mark.fields false ++ b.additional.stored)) := by
    rw [List.forall₂_map_left_iff, List.forall₂_map_right_iff, List.forall₂_same]
    exact fun b hb => Buffer.writes (h b hb)
  have he : ExtraItems.Fit partDepth (buffers.map fun b =>
      Value.map (b.mark.fields false ++ b.additional.stored)).length [] :=
    ⟨by simpa using hn, by simp⟩
  have h := writes_array partDepth hw he
  rwa [List.map_nil, List.append_nil] at h

theorem ofValue_bufferList {buffers : List Buffer} (h : ∀ b ∈ buffers, b.Storable) :
    ofValue .bufferList (.array (buffers.map fun b =>
      .map (b.mark.fields false ++ b.additional.stored))) =
      .ok (.bufferList (buffers.map Buffer.stored)) := by
  have hm : (buffers.map fun b => Value.map (b.mark.fields false ++ b.additional.stored)).mapM
      Buffer.ofValue = (.ok (buffers.map Buffer.stored) : Schema.Reading _) := by
    rw [Results.mapM_eq_ok_iff, List.forall₂_map_left_iff, List.forall₂_map_right_iff,
      List.forall₂_same]
    exact fun b hb => Buffer.ofValue_fields (h b hb)
  rw [ofValue, items, Results.ok_bind, hm]
  rfl

theorem decode_encode {content : Content} (h : content.Storable) :
    ∃ payload, content.encode = .ok payload ∧ ∀ timestamp offset,
      Frame.decode ⟨content.id, timestamp, payload, offset⟩ = .ok ⟨timestamp, content.stored⟩ := by
  cases content with
  | header header =>
    exact decode_of_writes rfl (by decide) (Header.writes h) rfl
  | searchPattern p =>
    refine decode_of_writes rfl (by decide) (SearchPattern.writes h) ?_
    rw [ofValue, SearchPattern.ofValue_fields h]
    rfl
  | replacement r =>
    exact decode_of_writes rfl (by decide) (Replacement.writes h) rfl
  | history item =>
    refine decode_of_writes rfl (by decide) (HistoryItem.writes h.text h.separator h.extra) ?_
    rw [ofValue, HistoryItem.ofValue_elements h]
    rfl
  | register r =>
    refine decode_of_writes rfl (by decide) (Register.writes h.size h.lines h.extra) ?_
    rw [ofValue, Register.ofValue_fields h]
    rfl
  | «variable» v =>
    exact decode_of_writes rfl (by decide) (Variable.writes h) rfl
  | globalMark mark =>
    refine decode_of_writes rfl (by decide) (Mark.writes 1019 h) ?_
    rw [ofValue, Mark.ofValue_fields h]
    rfl
  | jump mark =>
    refine decode_of_writes rfl (by decide) (Mark.writes 1019 h) ?_
    rw [ofValue, Mark.ofValue_fields h]
    rfl
  | bufferList buffers =>
    exact decode_of_writes rfl (by decide) (writes_bufferList h.1 h.2) (ofValue_bufferList h.2)
  | localMark mark =>
    refine decode_of_writes rfl (by decide) (Mark.writes 1019 h) ?_
    rw [ofValue, Mark.ofValue_fields h]
    rfl
  | change mark =>
    refine decode_of_writes rfl (by decide) (Mark.writes 1019 h) ?_
    rw [ofValue, Mark.ofValue_fields h]
    rfl
  | unknown id payload =>
    refine ⟨payload, rfl, fun timestamp offset => ?_⟩
    have hk : (Kind.ofId id).getD .unknown = .unknown := h
    unfold Frame.decode
    rw [show (Content.unknown id payload).id = id from rfl, hk]
    rfl

end Content

end SessionStore
