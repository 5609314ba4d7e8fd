import SessionStore.Frame
import SessionStore.Proofs.Results

/-! A stream of frames is read back frame by frame. -/
namespace SessionStore

namespace Cursor

theorem integer_counted {marker : UInt8} {width n : Nat}
    (hw : integerWidth? marker = some (width + 1)) (hn : n < 256 ^ (width + 1))
    (field : EnvelopeField) (rest : Bytes) (offset : Nat) (failing : Bool) :
    integer ⟨marker :: Bytes.bigEndian (width + 1) n ++ rest, offset, failing⟩ field =
      .ok (UInt64.ofNat n, ⟨rest, offset + (width + 2), failing⟩) := by
  have hs := Bytes.splitAt?_append (Bytes.bigEndian (width + 1) n) rest
  rw [Bytes.length_bigEndian] at hs
  unfold integer
  simp only [List.cons_append, hw, hs, Bytes.toNat_bigEndian hn]
  rw [Nat.add_assoc, Nat.add_comm 1]

theorem integer_encodeNat {n : Nat} (hn : n < 2 ^ 64) (field : EnvelopeField) (rest : Bytes)
    (offset : Nat) (failing : Bool) :
    integer ⟨Msgpack.encodeNat n ++ rest, offset, failing⟩ field =
      .ok (UInt64.ofNat n, ⟨rest, offset + (Msgpack.encodeNat n).length, failing⟩) := by
  unfold Msgpack.encodeNat
  split
  · next h =>
    have hb : (UInt8.ofNat n).toNat = n := by
      rw [UInt8.toNat_ofNat']
      exact Nat.mod_eq_of_lt (by omega)
    have hw : integerWidth? (UInt8.ofNat n) = some 0 := by
      rw [integerWidth?, if_pos (UInt8.lt_iff_toNat_lt.mpr (by rw [hb]; exact h))]
    have hv : (UInt8.ofNat n).toUInt64 = UInt64.ofNat n := by
      apply UInt64.toNat_inj.mp
      rw [UInt8.toNat_toUInt64, hb, UInt64.toNat_ofNat']
      exact (Nat.mod_eq_of_lt hn).symm
    unfold integer
    simp only [List.singleton_append, hw, hv, List.length_singleton]
  split
  · next h => exact integer_counted rfl h field rest offset failing
  split
  · next h => exact integer_counted rfl h field rest offset failing
  split
  · next h => exact integer_counted rfl h field rest offset failing
  · exact integer_counted rfl hn field rest offset failing

end Cursor

namespace Frame

/-- A frame that a reader takes for what it is: no reserved kind, and a length of 64 bits. -/
structure Readable (f : Frame) : Prop where
  kind : f.kind ≠ 0
  length : f.payload.length < 2 ^ 64

/-- The frames with the places at which they begin, the first one at `offset`. -/
def placed (offset : Nat) : List Frame → List Frame
  | [] => []
  | f :: rest => { f with offset } :: placed (offset + f.encode.length) rest

end Frame

namespace Cursor

theorem frame_encode {f : Frame} (h : f.Readable) (rest : Bytes) (offset : Nat) (failing : Bool) :
    frame ⟨f.encode ++ rest, offset, failing⟩ =
      .ok ({ f with offset }, ⟨rest, offset + f.encode.length, failing⟩) := by
  have hp := Bytes.splitAt?_append f.payload rest
  have hl : (UInt64.ofNat f.payload.length).toNat = f.payload.length := by
    rw [UInt64.toNat_ofNat']
    exact Nat.mod_eq_of_lt h.length
  unfold frame Frame.encode Frame.envelope
  simp only [List.append_assoc, integer_encodeNat f.kind.toNat_lt, Results.ok_bind, if_neg h.kind,
    integer_encodeNat f.timestamp.toNat_lt, integer_encodeNat h.length, payload, hl, hp,
    UInt64.ofNat_toNat, List.length_append, Nat.add_assoc, Results.pure_eq_ok]

theorem frames_of_error {c : Cursor} {stop : Stop} (hc : ¬(c.rest = [] ∧ c.failing = false))
    (h : c.frame = .error stop) : c.frames = ⟨[], some stop.error, stop.offset⟩ := by
  rw [frames, if_neg hc]
  split
  · next he =>
    cases Except.error.inj (h.symm.trans he)
    rfl
  · next he => cases h.symm.trans he

theorem frames_of_ok {c d : Cursor} {f : Frame} (h : c.frame = .ok (f, d)) :
    c.frames = { d.frames with frames := f :: d.frames.frames } := by
  have hc : ¬(c.rest = [] ∧ c.failing = false) := fun hc => by
    have hlt := length_frame h
    rw [hc.1] at hlt
    cases hlt
  rw [frames, if_neg hc]
  split
  · next he => cases h.symm.trans he
  · next he =>
    obtain ⟨rfl, rfl⟩ := Prod.mk.inj (Except.ok.inj (h.symm.trans he))
    rfl

theorem frames_encode {fs : List Frame} (h : ∀ f ∈ fs, f.Readable) (offset : Nat) :
    frames ⟨fs.flatMap Frame.encode, offset, false⟩ =
      ⟨Frame.placed offset fs, none, offset + (fs.flatMap Frame.encode).length⟩ := by
  induction fs generalizing offset with
  | nil =>
    rw [frames, if_pos ⟨rfl, rfl⟩]
    rfl
  | cons f rest ih =>
    obtain ⟨hf, hr⟩ := List.forall_mem_cons.mp h
    rw [List.flatMap_cons, frames_of_ok (frame_encode hf _ offset false), ih hr, List.length_append,
      Nat.add_assoc]
    rfl

end Cursor

theorem Stream.read_encode {fs : List Frame} (h : ∀ f ∈ fs, f.Readable) :
    (Stream.mk (fs.flatMap Frame.encode) false).read =
      ⟨Frame.placed 0 fs, none, (fs.flatMap Frame.encode).length⟩ := by
  rw [read, cursor, Cursor.frames_encode h, Nat.zero_add]

namespace Error

/-- An error that ends a stream: it is broken, or it could not be read, which
happens to failing ones only. -/
def Ends (failing : Bool) : Error → Prop
  | .format .. => True
  | .system _ => failing = true
  | _ => False

end Error

namespace Cursor

theorem shortage_ends (c : Cursor) (start : Nat) (fault : FormatFault) :
    (c.shortage start fault).Ends c.failing := by
  unfold shortage
  split
  · next hc => exact hc
  · trivial

theorem integer_error {c : Cursor} {field : EnvelopeField} {stop : Stop}
    (h : c.integer field = .error stop) : stop.error.Ends c.failing := by
  unfold integer at h
  split at h
  · cases Except.error.inj h
    exact shortage_ends ..
  · split at h
    · cases Except.error.inj h
      trivial
    · cases h
    · split at h
      · cases Except.error.inj h
        exact shortage_ends { c with rest := _, offset := c.offset + 1 } ..
      · cases h

theorem failing_integer {c d : Cursor} {field : EnvelopeField} {n : UInt64}
    (h : c.integer field = .ok (n, d)) : d.failing = c.failing := by
  unfold integer at h
  split at h
  · cases h
  · split at h
    · cases h
    · obtain ⟨-, rfl⟩ := Prod.mk.inj (Except.ok.inj h)
      rfl
    · split at h
      · cases h
      · obtain ⟨-, rfl⟩ := Prod.mk.inj (Except.ok.inj h)
        rfl

theorem payload_error {c : Cursor} {start length : Nat} {stop : Stop}
    (h : c.payload start length = .error stop) : stop.error.Ends c.failing := by
  unfold payload at h
  split at h
  · cases h
  · cases Except.error.inj h
    exact shortage_ends ..

theorem payload_ok {c d : Cursor} {start length : Nat} {bytes : Bytes}
    (h : c.payload start length = .ok (bytes, d)) :
    bytes.length + d.rest.length = c.rest.length ∧ d.failing = c.failing := by
  unfold payload at h
  split at h
  · next hs =>
    obtain ⟨rfl, rfl⟩ := Prod.mk.inj (Except.ok.inj h)
    rw [(Bytes.splitAt?_eq_some_iff.mp hs).2, List.length_append]
    exact ⟨rfl, rfl⟩
  · cases h

inductive FrameParts (c d : Cursor) : Frame → Prop
  | mk {kind timestamp length : UInt64} {payload : Bytes} {afterKind afterTime afterLength : Cursor}
    (hkind : c.integer .kind = .ok (kind, afterKind)) (hz : kind ≠ 0)
    (htime : afterKind.integer .timestamp = .ok (timestamp, afterTime))
    (hlength : afterTime.integer .length = .ok (length, afterLength))
    (hpayload : afterLength.payload c.offset length.toNat = .ok (payload, d)) :
    FrameParts c d { kind, timestamp, payload, offset := c.offset }

theorem frame_parts {c d : Cursor} {f : Frame} (h : c.frame = .ok (f, d)) : FrameParts c d f := by
  obtain ⟨⟨kind, afterKind⟩, hkind, h⟩ := Results.bind_eq_ok_iff.mp h
  dsimp only at h
  split at h
  · cases h
  next hz =>
  obtain ⟨⟨timestamp, afterTime⟩, htime, h⟩ := Results.bind_eq_ok_iff.mp h
  obtain ⟨⟨length, afterLength⟩, hlength, h⟩ := Results.bind_eq_ok_iff.mp h
  obtain ⟨⟨payload, rest⟩, hpayload, h⟩ := Results.bind_eq_ok_iff.mp h
  obtain ⟨rfl, rfl⟩ := Prod.mk.inj (Except.ok.inj h)
  exact .mk hkind hz htime hlength hpayload

/-- Where a frame breaks off: within one of its integers, at the reserved kind
or within the payload. -/
inductive FrameStops (c : Cursor) (stop : Stop) : Prop
  | inKind (h : c.integer .kind = .error stop)
  | atKind {afterKind : Cursor} (hkind : c.integer .kind = .ok (0, afterKind))
    (h : stop = ⟨.format c.offset .reservedKind, afterKind.offset⟩)
  | inTimestamp {kind : UInt64} {afterKind : Cursor}
    (hkind : c.integer .kind = .ok (kind, afterKind)) (hz : kind ≠ 0)
    (h : afterKind.integer .timestamp = .error stop)
  | inLength {kind timestamp : UInt64} {afterKind afterTime : Cursor}
    (hkind : c.integer .kind = .ok (kind, afterKind)) (hz : kind ≠ 0)
    (htime : afterKind.integer .timestamp = .ok (timestamp, afterTime))
    (h : afterTime.integer .length = .error stop)
  | inPayload {kind timestamp length : UInt64} {afterKind afterTime afterLength : Cursor}
    (hkind : c.integer .kind = .ok (kind, afterKind)) (hz : kind ≠ 0)
    (htime : afterKind.integer .timestamp = .ok (timestamp, afterTime))
    (hlength : afterTime.integer .length = .ok (length, afterLength))
    (h : afterLength.payload c.offset length.toNat = .error stop)

theorem frame_eq_error_iff {c : Cursor} {stop : Stop} :
    c.frame = .error stop ↔ FrameStops c stop := by
  constructor
  · intro h
    rcases Results.bind_eq_error_iff.mp h with h | ⟨⟨kind, afterKind⟩, hkind, h⟩
    · exact .inKind h
    dsimp only at h
    split at h
    · next hz =>
      cases Except.error.inj h
      exact .atKind (hz ▸ hkind) rfl
    next hz =>
    rcases Results.bind_eq_error_iff.mp h with h | ⟨⟨timestamp, afterTime⟩, htime, h⟩
    · exact .inTimestamp hkind hz h
    rcases Results.bind_eq_error_iff.mp h with h | ⟨⟨length, afterLength⟩, hlength, h⟩
    · exact .inLength hkind hz htime h
    rcases Results.bind_eq_error_iff.mp h with h | ⟨payload, -, h⟩
    · exact .inPayload hkind hz htime hlength h
    · cases h
  · intro h
    unfold frame
    cases h with
    | inKind h => rw [h, Results.error_bind]
    | atKind hkind h =>
      rw [hkind, Results.ok_bind, h]
      rfl
    | inTimestamp hkind hz h => simp only [hkind, Results.ok_bind, if_neg hz, h, Results.error_bind]
    | inLength hkind hz htime h =>
      simp only [hkind, Results.ok_bind, if_neg hz, htime, h, Results.error_bind]
    | inPayload hkind hz htime hlength h =>
      simp only [hkind, Results.ok_bind, if_neg hz, htime, hlength, h, Results.error_bind]

theorem frame_error {c : Cursor} {stop : Stop} (h : c.frame = .error stop) :
    stop.error.Ends c.failing := by
  cases frame_eq_error_iff.mp h with
  | inKind h => exact integer_error h
  | atKind hkind h =>
    cases h
    trivial
  | inTimestamp hkind hz h =>
    rw [← failing_integer hkind]
    exact integer_error h
  | inLength hkind hz htime h =>
    rw [← failing_integer hkind, ← failing_integer htime]
    exact integer_error h
  | inPayload hkind hz htime hlength h =>
    rw [← failing_integer hkind, ← failing_integer htime, ← failing_integer hlength]
    exact payload_error h

/-- A frame has a kind of its own, and its payload is no longer than what there was to read. -/
theorem frame_ok {c d : Cursor} {f : Frame} (h : c.frame = .ok (f, d)) :
    f.kind ≠ 0 ∧ f.payload.length + d.rest.length ≤ c.rest.length ∧ d.failing = c.failing := by
  obtain ⟨hkind, hz, htime, hlength, hpayload⟩ := frame_parts h
  obtain ⟨htaken, hfailing⟩ := payload_ok hpayload
  have h₁ := length_integer hkind
  have h₂ := length_integer htime
  have h₃ := length_integer hlength
  refine ⟨hz, by dsimp only; omega, ?_⟩
  exact hfailing.trans ((failing_integer hlength).trans
    ((failing_integer htime).trans (failing_integer hkind)))

/-- No frame that is read has the reserved kind or a payload longer than the
stream, and reading ends by an error of the stream or none. -/
theorem frames_sound (c : Cursor) :
    (∀ f ∈ c.frames.frames, f.kind ≠ 0 ∧ f.payload.length ≤ c.rest.length) ∧
      ∀ e ∈ c.frames.error, e.Ends c.failing := by
  induction c using frames.induct with
  | case1 c hend =>
    rw [frames, if_pos hend]
    exact ⟨by simp, by simp⟩
  | case2 c hend stop hstop =>
    rw [frames_of_error hend hstop]
    exact ⟨by simp, by simpa using frame_error hstop⟩
  | case3 c hend f rest hframe hlt ih =>
    obtain ⟨hkind, hlength, hfailing⟩ := frame_ok hframe
    obtain ⟨hframes, herror⟩ := ih
    rw [frames_of_ok hframe]
    refine ⟨List.forall_mem_cons.mpr ⟨⟨hkind, by omega⟩, fun other hm => ?_⟩, hfailing ▸ herror⟩
    obtain ⟨hother, hle⟩ := hframes other hm
    exact ⟨hother, by omega⟩

end Cursor

end SessionStore
