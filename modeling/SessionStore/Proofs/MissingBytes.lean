import SessionStore.Proofs.FailingStreams

/-! A stream that ends, and one that fails there instead: where bytes are missing
the second one could not be read, and where they are wrong both are broken alike. -/
namespace SessionStore

/-- Whether a frame is broken for want of bytes, and not by those that are there. -/
def FormatFault.isShortage : FormatFault → Bool
  | .endInField _ | .shortPayload .. => true
  | .notAnInteger .. | .reservedKind => false

theorem Bytes.length_lt_of_splitAt? {n : Nat} {bytes : Bytes} (h : splitAt? n bytes = none) :
    bytes.length < n := by
  unfold splitAt? at h
  dsimp only at h
  split at h
  · cases h
  · next hlength =>
    rw [List.length_take] at hlength
    omega

open Msgpack (PositiveForm positiveMarkers)

namespace Cursor

/-- What a reader gives where the stream ends, and what it gives where the
stream fails there instead. -/
inductive Parallel {α : Type} : Except Stop (α × Cursor) → Except Stop (α × Cursor) → Prop
  | taken (a : α) (rest : Bytes) (offset : Nat) :
    Parallel (.ok (a, ⟨rest, offset, false⟩)) (.ok (a, ⟨rest, offset, true⟩))
  | broken {start offset : Nat} {fault : FormatFault} (h : fault.isShortage = false) :
    Parallel (.error ⟨.format start fault, offset⟩) (.error ⟨.format start fault, offset⟩)
  | short {start offset place : Nat} {fault : FormatFault} (h : fault.isShortage = true) :
    Parallel (.error ⟨.format start fault, offset⟩) (.error ⟨.system (.readAt place), place⟩)

theorem Parallel.bind {α β : Type} {first second : Except Stop (α × Cursor)}
    {next next' : α × Cursor → Except Stop (β × Cursor)} (h : Parallel first second)
    (hn : ∀ a rest offset, Parallel (next (a, ⟨rest, offset, false⟩))
      (next' (a, ⟨rest, offset, true⟩))) :
    Parallel (first >>= next) (second >>= next') := by
  cases h with
  | taken a rest offset => exact hn a rest offset
  | broken h => exact .broken h
  | short h => exact .short h

theorem integer_parallel (rest : Bytes) (offset : Nat) (field : EnvelopeField) :
    Parallel (integer ⟨rest, offset, false⟩ field) (integer ⟨rest, offset, true⟩ field) := by
  unfold integer
  cases rest with
  | nil => exact .short rfl
  | cons marker rest =>
    dsimp only
    split
    · exact .broken rfl
    · exact .taken ..
    · split
      · exact .short rfl
      · exact .taken ..

theorem payload_parallel (rest : Bytes) (offset start length : Nat) :
    Parallel (payload ⟨rest, offset, false⟩ start length)
      (payload ⟨rest, offset, true⟩ start length) := by
  unfold payload
  dsimp only
  split
  · exact .taken ..
  · exact .short rfl

theorem frame_parallel (rest : Bytes) (offset : Nat) :
    Parallel (frame ⟨rest, offset, false⟩) (frame ⟨rest, offset, true⟩) := by
  unfold frame
  refine (integer_parallel ..).bind fun kind afterKind place => ?_
  dsimp only
  split
  · exact .broken rfl
  refine (integer_parallel ..).bind fun timestamp afterTime place => ?_
  refine (integer_parallel ..).bind fun length afterLength place => ?_
  exact (payload_parallel ..).bind fun payload behind place => .taken ..

/-- Bytes that end and bytes that fail give the same frames; what ends them is told apart. -/
theorem frames_parallel (rest : Bytes) (offset : Nat) :
    let ended := frames ⟨rest, offset, false⟩
    let failed := frames ⟨rest, offset, true⟩
    failed.frames = ended.frames ∧
      match ended.error with
      | none => failed.error = some (.system (.readAt failed.offset))
      | some (.format start fault) =>
        failed.error =
          some (if fault.isShortage then .system (.readAt failed.offset) else .format start fault)
      | some _ => False := by
  generalize hc : (⟨rest, offset, false⟩ : Cursor) = c
  induction c using frames.induct generalizing rest offset with
  | case1 c hend =>
    subst hc
    obtain ⟨rfl, -⟩ : rest = [] ∧ _ := hend
    have hfailed : frame ⟨[], offset, true⟩ = .error ⟨.system (.readAt offset), offset⟩ := rfl
    rw [frames, if_pos ⟨rfl, rfl⟩, frames_of_error (by simp) hfailed]
    exact ⟨rfl, rfl⟩
  | case2 c hend stop hstop =>
    subst hc
    have hparallel := frame_parallel rest offset
    rw [frames_of_error hend hstop]
    rw [hstop] at hparallel
    generalize hfailed : frame ⟨rest, offset, true⟩ = failed at hparallel
    cases hparallel with
    | broken h =>
      rw [frames_of_error (by simp) hfailed]
      dsimp only
      rw [h]
      exact ⟨rfl, rfl⟩
    | short h =>
      rw [frames_of_error (by simp) hfailed]
      dsimp only
      rw [if_pos h]
      exact ⟨rfl, rfl⟩
  | case3 c hend f d hframe hlt ih =>
    subst hc
    have hparallel := frame_parallel rest offset
    rw [frames_of_ok hframe]
    rw [hframe] at hparallel
    generalize hfailed : frame ⟨rest, offset, true⟩ = failed at hparallel
    cases hparallel with
    | taken _ rest' offset' =>
      obtain ⟨hframes, herror⟩ := ih rest' offset' rfl
      rw [frames_of_ok hfailed]
      exact ⟨congrArg (f :: ·) hframes, herror⟩

/-- An integer that wants bytes is the beginning of one that is not zero. -/
theorem exists_form_of_integer {c : Cursor} {field : EnvelopeField} {stop : Stop} {start : Nat}
    {fault : FormatFault} (h : c.integer field = .error stop)
    (he : stop.error = .format start fault) (hf : fault.isShortage = true) :
    ∃ (n : UInt64) (more : Bytes), n ≠ 0 ∧ PositiveForm n.toNat (c.rest ++ more) := by
  unfold integer at h
  split at h
  · next hrest =>
    have hform : PositiveForm 1 [1] := .alone (by decide : 1 < 128)
    refine ⟨1, [1], by decide, ?_⟩
    rw [hrest]
    exact hform
  next marker rest hrest =>
  split at h
  · cases Except.error.inj h
    cases he
    cases hf
  · cases h
  next width hpos hw =>
  split at h
  · next hs =>
    obtain ⟨wanting, rfl⟩ := Nat.exists_eq_add_of_lt (Bytes.length_lt_of_splitAt? hs)
    let more : Bytes := List.replicate wanting 1 ++ [1]
    have hlength : (rest ++ more).length = rest.length + wanting + 1 := by
      simp [more, Nat.add_assoc]
    have hm : (marker, (rest ++ more).length) ∈ positiveMarkers := by
      rw [hlength]
      exact (integerWidth?_eq_some_iff.mp hw).resolve_left fun hsmall => absurd hsmall.2 hpos
    have hform := PositiveForm.behind hm (Msgpack.toNat_lt (rest ++ more))
    have hvalue : (UInt64.ofNat (Bytes.toNat (rest ++ more))).toNat =
        Bytes.toNat (rest ++ more) := by
      rw [UInt64.toNat_ofNat']
      exact Nat.mod_eq_of_lt hform.lt
    have hn : Bytes.toNat (rest ++ more) ≠ 0 := by
      rw [← List.append_assoc, Bytes.toNat_append_singleton]
      exact Nat.succ_ne_zero _
    rw [Msgpack.bigEndian_toNat, ← hvalue] at hform
    refine ⟨UInt64.ofNat (Bytes.toNat (rest ++ more)), more, fun hz => hn ?_, hrest ▸ hform⟩
    rw [← hvalue, hz]
    rfl
  · cases h

theorem exists_payload_of_error {c : Cursor} {start length : Nat} {stop : Stop}
    (h : c.payload start length = .error stop) : ∃ more, (c.rest ++ more).length = length := by
  unfold payload at h
  split at h
  · cases h
  · next hs =>
    obtain ⟨wanting, hn⟩ := Nat.exists_eq_add_of_le (Nat.le_of_lt (Bytes.length_lt_of_splitAt? hs))
    exact ⟨List.replicate wanting 0, by rw [List.length_append, List.length_replicate, ← hn]⟩

theorem exists_form_of_frame {c : Cursor} {stop : Stop} {start : Nat} {fault : FormatFault}
    (h : c.frame = .error stop) (he : stop.error = .format start fault)
    (hf : fault.isShortage = true) :
    ∃ (f : Frame) (more : Bytes), f.Form (c.rest ++ more) := by
  have hzero : PositiveForm 0 [0] := .alone (by decide : 0 < 128)
  cases frame_eq_error_iff.mp h with
  | inKind h =>
    obtain ⟨n, more, hn, hform⟩ := exists_form_of_integer h he hf
    have hframe := Frame.Form.mk (f := ⟨n, 0, [], 0⟩) hn hform hzero hzero
    exact ⟨_, more ++ _, by simpa only [List.append_assoc] using hframe⟩
  | atKind hkind h =>
    cases h
    cases he
    cases hf
  | @inTimestamp kind _ hkind hz h =>
    obtain ⟨first, hfirst, hpasses⟩ := integer_eq_ok_iff.mp hkind
    obtain ⟨n, more, -, hform⟩ := exists_form_of_integer h he hf
    have hframe := Frame.Form.mk (f := ⟨kind, n, [], 0⟩) hz hfirst hform hzero
    exact ⟨_, more ++ _, by simpa only [hpasses.rest, List.append_assoc] using hframe⟩
  | @inLength kind timestamp _ _ hkind hz htime h =>
    obtain ⟨first, hfirst, hpasses⟩ := integer_eq_ok_iff.mp hkind
    obtain ⟨second, hsecond, hpasses'⟩ := integer_eq_ok_iff.mp htime
    obtain ⟨n, more, -, hform⟩ := exists_form_of_integer h he hf
    rw [← List.length_replicate (n := n.toNat) (a := (0 : UInt8))] at hform
    have hframe :=
      Frame.Form.mk (f := ⟨kind, timestamp, List.replicate n.toNat 0, 0⟩) hz hfirst hsecond hform
    exact ⟨_, more ++ _,
      by simpa only [hpasses.rest, hpasses'.rest, List.append_assoc] using hframe⟩
  | @inPayload kind timestamp _ _ _ _ hkind hz htime hlength h =>
    obtain ⟨first, hfirst, hpasses⟩ := integer_eq_ok_iff.mp hkind
    obtain ⟨second, hsecond, hpasses'⟩ := integer_eq_ok_iff.mp htime
    obtain ⟨third, hthird, hpasses''⟩ := integer_eq_ok_iff.mp hlength
    obtain ⟨more, hpayload⟩ := exists_payload_of_error h
    rw [← hpayload] at hthird
    have hframe := Frame.Form.mk (f := ⟨kind, timestamp, _, 0⟩) hz hfirst hsecond hthird
    exact ⟨_, more,
      by simpa only [hpasses.rest, hpasses'.rest, hpasses''.rest, List.append_assoc] using hframe⟩

/-- A frame wants bytes exactly if what is there of it is the beginning of one. -/
theorem isShortage_iff {c : Cursor} (hc : c.failing = false) {stop : Stop} {start : Nat}
    {fault : FormatFault} (h : c.frame = .error stop) (he : stop.error = .format start fault) :
    fault.isShortage = true ↔ ∃ (f : Frame) (more : Bytes), f.Form (c.rest ++ more) := by
  refine ⟨exists_form_of_frame h he, ?_⟩
  rintro ⟨f, more, hform⟩
  by_contra hbroken
  obtain ⟨rest, offset, failing⟩ := c
  cases hc
  -- Broken bytes are seen to be broken whatever follows, although a frame would follow here.
  have hparallel := frame_parallel rest offset
  rw [h] at hparallel
  generalize hfailed : frame ⟨rest, offset, true⟩ = failed at hparallel
  cases hparallel with
  | short hshort =>
    cases he
    exact hbroken hshort
  | broken =>
    rcases frame_error_of_failing rfl hfailed with ⟨attempt, hsystem⟩ | hstays
    · cases hsystem
    · have hagain := hstays more false
      have hread := frame_form hform [] offset false
      rw [List.append_nil] at hread
      cases hagain.symm.trans hread

end Cursor

namespace Stream

/-- What stands behind the last whole frame. -/
def torn (s : Stream) : Bytes := s.cursor.behindFrames.rest

/-- Where a stream fails at its end instead of ending there, the same frames are read. If it had
ended well, or for want of bytes, it could not be read on; if it had ended broken by the bytes that
are there, it ends broken in the same way. It is the want of bytes if and only if what stands
behind the last whole frame is the beginning of a frame. So a stream that fails never ends well. -/
theorem read_failing (bytes : Bytes) :
    let ended := (Stream.mk bytes false).read
    let failed := (Stream.mk bytes true).read
    failed.frames = ended.frames ∧ failed.error ≠ none ∧
      match ended.error with
      | none => failed.error = some (.system (.readAt failed.offset))
      | some (.format start fault) =>
        failed.error = some (if fault.isShortage then .system (.readAt failed.offset) else .format
          start fault) ∧ (fault.isShortage = true ↔
            ∃ (f : Frame) (more : Bytes), f.Form ((Stream.mk bytes false).torn ++ more))
      | some _ => False := by
  intro ended failed
  obtain ⟨hframes, herror⟩ := Cursor.frames_parallel bytes 0
  refine ⟨hframes, ?_⟩
  cases hended : ended.error with
  | none =>
    rw [show (Cursor.frames ⟨bytes, 0, false⟩).error = none from hended] at herror
    have hsystem : failed.error = _ := herror
    exact ⟨hsystem ▸ Option.some_ne_none _, hsystem⟩
  | some e =>
    rw [show (Cursor.frames ⟨bytes, 0, false⟩).error = some e from hended] at herror
    cases e with
    | format start fault =>
      have htold : failed.error = _ := herror
      obtain ⟨stop, hstop, he⟩ := Cursor.frame_behindFrames hended
      exact ⟨htold ▸ Option.some_ne_none _, htold,
        Cursor.isShortage_iff (Cursor.failing_behindFrames _) hstop he⟩
    | _ => exact herror.elim

end Stream

end SessionStore
