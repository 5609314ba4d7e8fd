import SessionStore.Proofs.Frames
import SessionStore.Proofs.Msgpack.Limits

/-! The grammar of streams. A frame is three positive integers, each in any of its forms,
and a payload; a stream is frames one behind the other. A reader takes exactly these. -/
namespace SessionStore

namespace Msgpack

-- Powers are those of numbers, whatever monoids are in scope.
attribute [local instance (high)] instPowNat

/-- The markers that stand in front of a positive integer, and how many bytes
the integer takes behind them. -/
def positiveMarkers : List (UInt8 × Nat) := [(0xCC, 1), (0xCD, 2), (0xCE, 4), (0xCF, 8)]

/-- The forms of a positive integer, the smallest or not: a small one may stand
alone, and any one stands behind a marker if there is room. -/
inductive PositiveForm (n : Nat) : Bytes → Prop where
  | alone (h : n < 128) : PositiveForm n [UInt8.ofNat n]
  | behind {marker : UInt8} {width : Nat} (hm : (marker, width) ∈ positiveMarkers)
    (h : n < 256 ^ width) : PositiveForm n (marker :: Bytes.bigEndian width n)

theorem bigEndian_toNat (digits : Bytes) :
    Bytes.bigEndian digits.length (Bytes.toNat digits) = digits := by
  induction digits using List.reverseRecOn with
  | nil => rfl
  | append_singleton digits digit ih =>
    have hd := digit.toNat_lt
    have hlow : UInt8.ofNat (Bytes.toNat digits * 256 + digit.toNat) = digit := by
      apply UInt8.toNat_inj.mp
      rw [UInt8.toNat_ofNat']
      omega
    have hhigh : (Bytes.toNat digits * 256 + digit.toNat) / 256 = Bytes.toNat digits := by omega
    rw [List.length_append, List.length_singleton, Bytes.toNat_append_singleton, Bytes.bigEndian,
      hlow, hhigh, ih]

namespace PositiveForm

variable {n : Nat} {form : Bytes}

theorem lt (h : PositiveForm n form) : n < 2 ^ 64 := by
  cases h with
  | alone h => omega
  | behind hm h =>
    simp only [positiveMarkers, List.mem_cons, Prod.mk.injEq, List.not_mem_nil, or_false] at hm
    rcases hm with ⟨-, rfl⟩ | ⟨-, rfl⟩ | ⟨-, rfl⟩ | ⟨-, rfl⟩ <;> omega

theorem length_pos (h : PositiveForm n form) : 0 < form.length := by
  cases h <;> exact Nat.zero_lt_succ _

theorem length_encodeNat_le (h : PositiveForm n form) :
    (Msgpack.encodeNat n).length ≤ form.length := by
  unfold Msgpack.encodeNat
  cases h with
  | alone h => exact Nat.le_of_eq (congrArg List.length (if_pos h))
  | behind hm h =>
    simp only [positiveMarkers, List.mem_cons, Prod.mk.injEq, List.not_mem_nil, or_false] at hm
    rw [List.length_cons, Bytes.length_bigEndian]
    split_ifs <;> rcases hm with ⟨-, rfl⟩ | ⟨-, rfl⟩ | ⟨-, rfl⟩ | ⟨-, rfl⟩ <;> simp <;> omega

end PositiveForm

end Msgpack

open Msgpack (PositiveForm positiveMarkers)

namespace Cursor

/-- The second cursor stands behind these bytes of the first one. -/
structure Passes (c : Cursor) (bytes : Bytes) (d : Cursor) : Prop where
  rest : c.rest = bytes ++ d.rest
  offset : d.offset = c.offset + bytes.length
  failing : d.failing = c.failing

theorem integerWidth?_eq_some_iff {marker : UInt8} {width : Nat} :
    integerWidth? marker = some width ↔ marker < 0x80 ∧ width = 0 ∨
      (marker, width) ∈ positiveMarkers := by
  unfold integerWidth? positiveMarkers
  by_cases hs : marker < 0x80
  · have hnot : ∀ other : UInt8, 0x80 ≤ other → marker ≠ other := fun other ho he => by
      rw [he] at hs
      exact absurd hs (UInt8.not_lt.mpr ho)
    simp [hs, hnot, eq_comm]
  · simp only [hs, if_false, false_and, false_or]
    split_ifs <;> simp_all [eq_comm]

theorem integer_form {n : Nat} {form : Bytes} (h : PositiveForm n form) (field : EnvelopeField)
    (rest : Bytes) (offset : Nat) (failing : Bool) :
    integer ⟨form ++ rest, offset, failing⟩ field =
      .ok (UInt64.ofNat n, ⟨rest, offset + form.length, failing⟩) := by
  cases h with
  | alone h =>
    have hn := integer_encodeNat (n := n) (by omega) field rest offset failing
    rwa [Msgpack.encodeNat, if_pos h] at hn
  | @behind marker width hm h =>
    have hw : integerWidth? marker = some width := integerWidth?_eq_some_iff.mpr (.inr hm)
    rw [List.length_cons, Bytes.length_bigEndian]
    cases width with
    | zero => simp [positiveMarkers] at hm
    | succ width => exact integer_counted hw h field rest offset failing

theorem integer_eq_ok_iff {c d : Cursor} {field : EnvelopeField} {n : UInt64} :
    c.integer field = .ok (n, d) ↔ ∃ form, PositiveForm n.toNat form ∧ c.Passes form d := by
  constructor
  · intro h
    unfold integer at h
    split at h
    · cases h
    next marker rest hrest =>
    split at h
    · cases h
    · next hw =>
      obtain ⟨rfl, rfl⟩ := Prod.mk.inj (Except.ok.inj h)
      have hm : marker < 0x80 := by simpa [positiveMarkers] using integerWidth?_eq_some_iff.mp hw
      have hform := PositiveForm.alone (n := marker.toUInt64.toNat) (by
        rw [UInt8.toNat_toUInt64]
        exact UInt8.lt_iff_toNat_lt.mp hm)
      rw [UInt8.toNat_toUInt64, UInt8.ofNat_toNat] at hform
      exact ⟨[marker], by rwa [UInt8.toNat_toUInt64], hrest, rfl, rfl⟩
    · next width hpos hw =>
      split at h
      · cases h
      next digits behind hs =>
      obtain ⟨rfl, rfl⟩ := Prod.mk.inj (Except.ok.inj h)
      obtain ⟨rfl, rfl⟩ := Bytes.splitAt?_eq_some_iff.mp hs
      have hm : (marker, digits.length) ∈ positiveMarkers := by
        rcases integerWidth?_eq_some_iff.mp hw with ⟨-, hzero⟩ | hm
        · exact absurd hzero hpos
        · exact hm
      have hform := PositiveForm.behind hm (Msgpack.toNat_lt digits)
      have hvalue : (UInt64.ofNat digits.toNat).toNat = digits.toNat := by
        rw [UInt64.toNat_ofNat']
        exact Nat.mod_eq_of_lt hform.lt
      rw [Msgpack.bigEndian_toNat] at hform
      refine ⟨marker :: digits, by rwa [hvalue], hrest, ?_, rfl⟩
      simp only [List.length_cons]
      omega
  · rintro ⟨form, hform, hrest, hoffset, hfailing⟩
    obtain ⟨rest, offset, failing⟩ := c
    obtain ⟨rest', offset', failing'⟩ := d
    dsimp only at hrest hoffset hfailing
    rw [hrest, hoffset, hfailing, integer_form hform, UInt64.ofNat_toNat]

end Cursor

namespace Frame

/-- The forms of a frame: its kind, its time and the length of its payload, and
the payload behind them. -/
inductive Form (f : Frame) : Bytes → Prop where
  | mk {kind timestamp length : Bytes} (hz : f.kind ≠ 0) (hk : PositiveForm f.kind.toNat kind)
    (ht : PositiveForm f.timestamp.toNat timestamp) (hl : PositiveForm f.payload.length length) :
    Form f (kind ++ (timestamp ++ (length ++ f.payload)))

/-- Frames in their forms stand one behind the other, the first one at `offset`,
and nothing stands between them. -/
inductive Tiled : Nat → List Frame → Bytes → Prop where
  | nil {offset : Nat} : Tiled offset [] []
  | cons {offset : Nat} {f : Frame} {form : Bytes} {fs : List Frame} {behind : Bytes}
    (hp : f.offset = offset) (hf : f.Form form) (ht : Tiled (offset + form.length) fs behind) :
    Tiled offset (f :: fs) (form ++ behind)

variable {f : Frame} {form : Bytes}

theorem Form.three_le_length (h : f.Form form) : 3 ≤ form.length := by
  obtain ⟨-, hk, ht, hl⟩ := h
  have h₁ := hk.length_pos
  have h₂ := ht.length_pos
  have h₃ := hl.length_pos
  simp only [List.length_append]
  omega

theorem Form.readable (h : f.Form form) : f.Readable := by
  obtain ⟨hz, -, -, hl⟩ := h
  exact ⟨hz, hl.lt⟩

theorem Tiled.three_mul_length_le {offset : Nat} {fs : List Frame} {bytes : Bytes}
    (h : Tiled offset fs bytes) : 3 * fs.length ≤ bytes.length := by
  induction h with
  | nil => exact Nat.le_refl 0
  | cons _ hf _ ih =>
    have hthree := hf.three_le_length
    rw [List.length_cons, List.length_append]
    omega

end Frame

theorem Error.Ends.isFormat {failing : Bool} {e : Error} (h : e.Ends failing)
    (hf : failing = false) : ∃ offset fault, e = .format offset fault := by
  cases e with
  | format offset fault => exact ⟨offset, fault, rfl⟩
  | system attempt => exact absurd (hf.symm.trans h) Bool.false_ne_true
  | _ => exact h.elim

namespace Cursor

theorem Passes.trans {c d e : Cursor} {first second : Bytes} (h : c.Passes first d)
    (h' : d.Passes second e) : c.Passes (first ++ second) e where
  rest := by rw [h.rest, h'.rest, List.append_assoc]
  offset := by rw [h'.offset, h.offset, List.length_append, Nat.add_assoc]
  failing := h'.failing.trans h.failing

theorem payload_passes {c d : Cursor} {start length : Nat} {bytes : Bytes}
    (h : c.payload start length = .ok (bytes, d)) : bytes.length = length ∧ c.Passes bytes d := by
  unfold payload at h
  split at h
  · next hs =>
    obtain ⟨rfl, rfl⟩ := Prod.mk.inj (Except.ok.inj h)
    obtain ⟨hlength, hrest⟩ := Bytes.splitAt?_eq_some_iff.mp hs
    exact ⟨hlength, hrest, by rw [hlength], rfl⟩
  · cases h

theorem frame_form {f : Frame} {form : Bytes} (h : f.Form form) (rest : Bytes) (offset : Nat)
    (failing : Bool) : frame ⟨form ++ rest, offset, failing⟩ =
      .ok ({ f with offset }, ⟨rest, offset + form.length, failing⟩) := by
  obtain ⟨hz, hk, ht, hl⟩ := h
  have hp := Bytes.splitAt?_append f.payload rest
  have hlength : (UInt64.ofNat f.payload.length).toNat = f.payload.length := by
    rw [UInt64.toNat_ofNat']
    exact Nat.mod_eq_of_lt hl.lt
  unfold frame
  simp only [List.append_assoc, integer_form hk, integer_form ht, integer_form hl,
    UInt64.ofNat_toNat, Results.ok_bind, if_neg hz, payload, hlength, hp, List.length_append,
      Nat.add_assoc, Results.pure_eq_ok]

/-- A frame is read exactly where one of its forms stands, and the reader stops right behind it. -/
theorem frame_eq_ok_iff {c d : Cursor} {f : Frame} :
    c.frame = .ok (f, d) ↔ f.offset = c.offset ∧ ∃ form, f.Form form ∧ c.Passes form d := by
  constructor
  · intro h
    obtain ⟨hkind, hz, htime, hlength, hpayload⟩ := frame_parts h
    obtain ⟨first, hfirst, hpasses⟩ := integer_eq_ok_iff.mp hkind
    obtain ⟨second, hsecond, hpasses'⟩ := integer_eq_ok_iff.mp htime
    obtain ⟨third, hthird, hpasses''⟩ := integer_eq_ok_iff.mp hlength
    obtain ⟨hbytes, hlast⟩ := payload_passes hpayload
    exact ⟨rfl, _, .mk hz hfirst hsecond (hbytes ▸ hthird),
      hpasses.trans (hpasses'.trans (hpasses''.trans hlast))⟩
  · rintro ⟨hplace, form, hform, hrest, hoffset, hfailing⟩
    obtain ⟨rest, offset, failing⟩ := c
    obtain ⟨rest', offset', failing'⟩ := d
    dsimp only at hplace hrest hoffset hfailing
    rw [hrest, hoffset, hfailing, frame_form hform, ← hplace]

def next (c : Cursor) : Except Stop (Option (Frame × Cursor)) :=
  if c.rest = [] ∧ c.failing = false then .ok none else c.frame.map some

/-- All frames of a stream are the next one each time, up to its end or an error. -/
theorem frames_eq_next (c : Cursor) :
    c.frames =
      match c.next with
      | .ok none => ⟨[], none, c.offset⟩
      | .ok (some (f, d)) => { d.frames with frames := f :: d.frames.frames }
      | .error stop => ⟨[], some stop.error, stop.offset⟩ := by
  unfold next
  by_cases hend : c.rest = [] ∧ c.failing = false
  · rw [frames, if_pos hend, if_pos hend]
  · rw [if_neg hend]
    cases hframe : c.frame with
    | error stop => exact frames_of_error hend hframe
    | ok read => exact frames_of_ok hframe

theorem next_eq_some_iff {c d : Cursor} {f : Frame} :
    c.next = .ok (some (f, d)) ↔ c.frame = .ok (f, d) := by
  unfold next
  constructor
  · intro h
    split at h
    · cases h
    · cases hframe : c.frame with
      | error stop => simp [hframe, Except.map] at h
      | ok read => simpa [hframe, Except.map] using h
  · intro h
    have hmore : ¬(c.rest = [] ∧ c.failing = false) := fun hend => by
      have hlt := length_frame h
      rw [hend.1] at hlt
      cases hlt
    rw [if_neg hmore, h]
    rfl

theorem next_eq_none_iff {c : Cursor} : c.next = .ok none ↔ c.rest = [] ∧ c.failing = false := by
  unfold next
  split
  · next hend => exact iff_of_true rfl hend
  · next hend =>
    refine iff_of_false (fun h => ?_) hend
    cases hframe : c.frame <;> simp [hframe, Except.map] at h

theorem frame_of_next_error {c : Cursor} {stop : Stop} (h : c.next = .error stop) :
    c.frame = .error stop := by
  unfold next at h
  split at h
  · cases h
  · cases hframe : c.frame with
    | error stop' => simpa [hframe, Except.map] using h
    | ok read => simp [hframe, Except.map] at h

theorem integer_error_offset {c : Cursor} {field : EnvelopeField} {stop : Stop} {offset : Nat}
    {fault : FormatFault} (h : c.integer field = .error stop)
    (he : stop.error = .format offset fault) : offset = c.offset := by
  unfold integer shortage at h
  split at h
  · cases Except.error.inj h
    split at he <;> cases he
    rfl
  · split at h
    · cases Except.error.inj h
      cases he
      rfl
    · cases h
    · split at h
      · cases Except.error.inj h
        split at he <;> cases he
        rfl
      · cases h

theorem Passes.total {c d : Cursor} {bytes : Bytes} (h : c.Passes bytes d) :
    c.offset ≤ d.offset ∧ d.offset + d.rest.length = c.offset + c.rest.length := by
  rw [h.rest, h.offset, List.length_append]
  omega

theorem total_integer {c d : Cursor} {field : EnvelopeField} {n : UInt64}
    (h : c.integer field = .ok (n, d)) :
    c.offset ≤ d.offset ∧ d.offset + d.rest.length = c.offset + c.rest.length := by
  obtain ⟨form, -, hpasses⟩ := integer_eq_ok_iff.mp h
  exact hpasses.total

theorem payload_error_offset {c : Cursor} {start length : Nat} {stop : Stop} {offset : Nat}
    {fault : FormatFault} (h : c.payload start length = .error stop)
    (he : stop.error = .format offset fault) : offset = start := by
  unfold payload shortage at h
  split at h
  · cases h
  · cases Except.error.inj h
    split at he <;> cases he
    rfl

/-- A broken frame is told of where it begins or of a place in it. -/
theorem frame_error_offset {c : Cursor} {stop : Stop} {offset : Nat} {fault : FormatFault}
    (h : c.frame = .error stop) (he : stop.error = .format offset fault) :
    c.offset ≤ offset ∧ offset ≤ c.offset + c.rest.length := by
  cases frame_eq_error_iff.mp h with
  | inKind h =>
    have := integer_error_offset h he
    omega
  | atKind hkind h =>
    cases h
    cases he
    omega
  | inTimestamp hkind hz h =>
    have := total_integer hkind
    have := integer_error_offset h he
    omega
  | inLength hkind hz htime h =>
    have := total_integer hkind
    have := total_integer htime
    have := integer_error_offset h he
    omega
  | inPayload hkind hz htime hlength h =>
    have := payload_error_offset h he
    omega

theorem Passes.eq {c d : Cursor} {bytes : Bytes} (h : c.Passes bytes d) :
    d = ⟨d.rest, c.offset + bytes.length, c.failing⟩ := by
  rw [← h.offset, ← h.failing]

/-- What is read are frames one behind the other, and what is next behind them ended the reading. -/
theorem frames_tiled (c : Cursor) :
    ∃ whole behind, c.Passes whole behind ∧ Frame.Tiled c.offset c.frames.frames whole ∧
    match behind.next with
    | .ok none => c.frames.error = none ∧ c.frames.offset = behind.offset
    | .ok (some _) => False
    | .error stop => c.frames.error = some stop.error ∧ c.frames.offset = stop.offset := by
  induction c using frames.induct with
  | case1 c hend =>
    refine ⟨[], c, ⟨rfl, rfl, rfl⟩, ?_⟩
    rw [frames_eq_next, next_eq_none_iff.mpr hend]
    exact ⟨.nil, rfl, rfl⟩
  | case2 c hend stop hstop =>
    have hnext : c.next = .error stop := by
      unfold next
      rw [if_neg hend, hstop]
      rfl
    refine ⟨[], c, ⟨rfl, rfl, rfl⟩, ?_⟩
    rw [frames_eq_next, hnext]
    exact ⟨.nil, rfl, rfl⟩
  | case3 c hend f d hframe hlt ih =>
    obtain ⟨whole, behind, hpasses, htiled, hbehind⟩ := ih
    obtain ⟨hplace, form, hform, hfirst⟩ := frame_eq_ok_iff.mp hframe
    rw [hfirst.offset] at htiled
    rw [frames_of_ok hframe]
    exact ⟨form ++ whole, behind, hfirst.trans hpasses, .cons hplace hform htiled, hbehind⟩

end Cursor

namespace Stream

theorem tiled_of_error_eq_none {stream : Stream} (h : stream.read.error = none) :
    Frame.Tiled 0 stream.read.frames stream.bytes ∧ stream.read.offset = stream.bytes.length := by
  obtain ⟨whole, behind, hpasses, htiled, hbehind⟩ := stream.cursor.frames_tiled
  cases hnext : behind.next with
  | error stop =>
    rw [hnext] at hbehind
    exact absurd (h.symm.trans hbehind.1) (Option.some_ne_none _).symm
  | ok read =>
    rw [hnext] at hbehind
    cases read with
    | some found => exact hbehind.elim
    | none =>
      have hbytes : stream.bytes = whole := by
        have hrest := hpasses.rest
        rwa [(Cursor.next_eq_none_iff.mp hnext).1, List.append_nil] at hrest
      rw [hbytes]
      exact ⟨htiled, hbehind.2.trans (hpasses.offset.trans (Nat.zero_add _))⟩

/-- From wherever a reader stands in a stream, it takes a frame if and only if a
form of one follows, and stops right behind it; it sees the end if and only if
nothing follows; otherwise it tells a place between where it stands and the end of
the stream. Read frame by frame, as far as there is a next one, a stream begins with
these frames one behind the other; there is at most one for every three bytes. -/
theorem read_grammar (front rest : Bytes) :
    let stream : Stream := ⟨front ++ rest, false⟩
    let here : Cursor := ⟨rest, front.length, false⟩
    (∀ f there, here.next = .ok (some (f, there)) ↔
      f.offset = front.length ∧ ∃ form, f.Form form ∧ here.Passes form there) ∧
    (here.next = .ok none ↔ rest = []) ∧
    (∀ stop, here.next = .error stop →
      ∃ offset fault, stop.error = .format offset fault ∧ front.length ≤ offset ∧
      offset ≤ stream.bytes.length) ∧
    3 * stream.read.frames.length ≤ stream.bytes.length ∧
    ∃ whole tail, stream.bytes = whole ++ tail ∧ Frame.Tiled 0 stream.read.frames whole ∧
      match Cursor.next ⟨tail, whole.length, false⟩ with
      | .ok none => stream.read.error = none ∧ stream.read.offset = stream.bytes.length
      | .ok (some _) => False
      | .error stop => stream.read.error = some stop.error ∧ stream.read.offset = stop.offset := by
  intro stream here
  refine ⟨fun f there => ?_, ?_, fun stop hstop => ?_, ?_⟩
  · rw [Cursor.next_eq_some_iff, Cursor.frame_eq_ok_iff]
  · rw [Cursor.next_eq_none_iff]
    exact and_iff_left rfl
  · have hframe := Cursor.frame_of_next_error hstop
    obtain ⟨offset, fault, herror⟩ := (Cursor.frame_error hframe).isFormat rfl
    obtain ⟨hfirst, hlast⟩ := Cursor.frame_error_offset hframe herror
    refine ⟨offset, fault, herror, hfirst, ?_⟩
    rw [List.length_append]
    exact hlast
  · obtain ⟨whole, behind, hpasses, htiled, hbehind⟩ := stream.cursor.frames_tiled
    have hbytes : stream.bytes = whole ++ behind.rest := hpasses.rest
    have hthree := htiled.three_mul_length_le
    have hlength : whole.length ≤ stream.bytes.length := by
      rw [hbytes, List.length_append]
      omega
    have hplace : behind = ⟨behind.rest, whole.length, false⟩ := by
      rw [hpasses.eq]
      exact congrArg (Cursor.mk _ · _) (Nat.zero_add _)
    refine ⟨Nat.le_trans hthree hlength, whole, behind.rest, hbytes, htiled, ?_⟩
    rw [← hplace]
    cases hnext : behind.next with
    | error stop =>
      rw [hnext] at hbehind
      exact hbehind
    | ok read =>
      rw [hnext] at hbehind
      cases read with
      | some found => exact hbehind
      | none =>
        obtain ⟨hrest, -⟩ := Cursor.next_eq_none_iff.mp hnext
        refine ⟨hbehind.1, hbehind.2.trans ?_⟩
        rw [hplace, hbytes, hrest, List.append_nil]

end Stream

end SessionStore
