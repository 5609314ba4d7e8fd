import SessionStore.Entry.Encoding

/-! Streams of frames: kind, time and length in front of each payload. -/
namespace SessionStore

/-- Bytes that are followed by their end, or by a failure to read on. -/
structure Stream where
  bytes : Bytes
  failing : Bool := false

/-- What is left of a stream and how many bytes were read from it. -/
structure Cursor where
  rest : Bytes
  offset : Nat := 0
  failing : Bool := false

/-- An error and the number of bytes read when it showed. -/
structure Stop where
  error : Error
  offset : Nat

namespace Cursor

/-- The error where bytes are missing: a failing stream could not be read, another one is broken. -/
def shortage (c : Cursor) (start : Nat) (fault : FormatFault) : Error :=
  if c.failing then .system (.readAt c.offset) else .format start fault

/-- How many bytes follow the marker of a positive integer; none when the marker
is the number itself. -/
def integerWidth? (marker : UInt8) : Option Nat :=
  if marker < 0x80 then some 0
  else if marker = 0xCC then some 1
  else if marker = 0xCD then some 2
  else if marker = 0xCE then some 4
  else if marker = 0xCF then some 8
  else none

/-- Reads a positive integer in any of its forms, the smallest or not. -/
def integer (c : Cursor) (field : EnvelopeField) : Except Stop (UInt64 × Cursor) :=
  match c.rest with
  | [] => .error ⟨c.shortage c.offset (.endInField field), c.offset⟩
  | marker :: rest =>
    let marked : Cursor := { c with rest, offset := c.offset + 1 }
    match integerWidth? marker with
    | none => .error ⟨.format c.offset (.notAnInteger field marker), marked.offset⟩
    | some 0 => .ok (marker.toUInt64, marked)
    | some width =>
      match Bytes.splitAt? width rest with
      | none => .error ⟨marked.shortage c.offset (.endInField field), marked.offset⟩
      | some (digits, rest) =>
        .ok (UInt64.ofNat digits.toNat, { marked with rest, offset := marked.offset + width })

/-- Reads the payload of the frame that began at `start`. -/
def payload (c : Cursor) (start length : Nat) : Except Stop (Bytes × Cursor) :=
  match Bytes.splitAt? length c.rest with
  | some (payload, rest) => .ok (payload, { c with rest, offset := c.offset + length })
  | none =>
    let present := c.rest.length
    .error ⟨c.shortage start (.shortPayload length present),
      c.offset + if c.failing then 0 else present⟩

/-- Reads one frame. -/
def frame (c : Cursor) : Except Stop (Frame × Cursor) := do
  let (kind, afterKind) ← c.integer .kind
  if kind = 0 then throw ⟨.format c.offset .reservedKind, afterKind.offset⟩
  let (timestamp, afterTime) ← afterKind.integer .timestamp
  let (length, afterLength) ← afterTime.integer .length
  let (payload, rest) ← afterLength.payload c.offset length.toNat
  return ({ kind, timestamp, payload, offset := c.offset }, rest)

theorem length_integer {c d : Cursor} {field : EnvelopeField} {n : UInt64}
    (h : c.integer field = .ok (n, d)) : d.rest.length < c.rest.length := by
  unfold integer at h
  split at h
  · cases h
  · next marker rest hc =>
    rw [hc]
    split at h
    · cases h
    · obtain ⟨-, rfl⟩ := Prod.mk.inj (Except.ok.inj h)
      simp
    · split at h
      · cases h
      · next digits rest' hs =>
        obtain ⟨-, rfl⟩ := Prod.mk.inj (Except.ok.inj h)
        have hl : rest.length = digits.length + rest'.length := by
          rw [(Bytes.splitAt?_eq_some_iff.1 hs).2, List.length_append]
        simp only [List.length_cons]
        omega

theorem length_payload {c d : Cursor} {start length : Nat} {bytes : Bytes}
    (h : c.payload start length = .ok (bytes, d)) : d.rest.length ≤ c.rest.length := by
  unfold payload at h
  split at h
  · next taken rest hs =>
    obtain ⟨-, rfl⟩ := Prod.mk.inj (Except.ok.inj h)
    have hl : c.rest.length = taken.length + rest.length := by
      rw [(Bytes.splitAt?_eq_some_iff.1 hs).2, List.length_append]
    simp only [hl]
    omega
  · cases h

theorem length_frame {c d : Cursor} {f : Frame} (h : c.frame = .ok (f, d)) :
    d.rest.length < c.rest.length := by
  unfold frame at h
  cases hk : c.integer .kind with
  | error e => simp [hk, bind, Except.bind] at h
  | ok kind =>
    by_cases hz : kind.1 = 0
    · simp [hk, hz, bind, Except.bind, throw, throwThe, MonadExceptOf.throw] at h
    cases ht : kind.2.integer .timestamp with
    | error e => simp [hk, hz, ht, bind, Except.bind] at h
    | ok timestamp =>
      cases hl : timestamp.2.integer .length with
      | error e => simp [hk, hz, ht, hl, bind, Except.bind] at h
      | ok length =>
        cases hp : length.2.payload c.offset length.1.toNat with
        | error e => simp [hk, hz, ht, hl, hp, bind, Except.bind] at h
        | ok payload =>
          simp only [hk, hz, ht, hl, hp, bind, Except.bind, pure, Except.pure, if_false] at h
          obtain ⟨-, rfl⟩ := Prod.mk.inj (Except.ok.inj h)
          have h₁ := length_integer hk
          have h₂ := length_integer ht
          have h₃ := length_integer hl
          have h₄ := length_payload hp
          omega

end Cursor

/-- What reading a stream gave: its frames, the error that ended them, if any,
and the number of bytes read. -/
structure Reading where
  frames : List Frame
  error : Option Error
  offset : Nat

namespace Cursor

/-- Reads frames until the stream ends or a frame cannot be read. -/
def frames (c : Cursor) : Reading :=
  if c.rest = [] ∧ c.failing = false then ⟨[], none, c.offset⟩
  else
    match h : c.frame with
    | .error stop => ⟨[], some stop.error, stop.offset⟩
    | .ok (f, rest) =>
      have := length_frame h
      let more := rest.frames
      { more with frames := f :: more.frames }
termination_by c.rest.length

end Cursor

namespace Stream

def cursor (s : Stream) : Cursor := { rest := s.bytes, failing := s.failing }

def read (s : Stream) : Reading := s.cursor.frames

end Stream

namespace Reading

/-- The entries of the frames, or why they cannot be understood. -/
def decoded (r : Reading) : List (Except Error Entry) := r.frames.map Frame.decode

/-- All that comes out of a stream, its error last. -/
def results (r : Reading) : List (Except Error Entry) :=
  r.decoded ++ (r.error.map Except.error).toList

end Reading

namespace Frame

/-- The integers in front of a payload, each in its smallest form. -/
def envelope (kind : UInt64) (timestamp : Timestamp) (length : Nat) : Bytes :=
  Msgpack.encodeNat kind.toNat ++ Msgpack.encodeNat timestamp.toNat ++ Msgpack.encodeNat length

def encode (frame : Frame) : Bytes :=
  envelope frame.kind frame.timestamp frame.payload.length ++ frame.payload

end Frame

end SessionStore
