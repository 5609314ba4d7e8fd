import SessionStore.Proofs.Damage

/-! A stream that fails before its end: what is read from it does not depend on
what could not be read. -/
namespace SessionStore

namespace Cursor

theorem shortage_of_failing {c : Cursor} (hf : c.failing = true) (start : Nat)
    (fault : FormatFault) : c.shortage start fault = .system (.readAt c.offset) := by
  rw [shortage, if_pos hf]

/-- An integer of a failing stream could not be read, or it is broken whatever follows. -/
theorem integer_error_of_failing {c : Cursor} (hf : c.failing = true)
    {field : EnvelopeField} {stop : Stop} (h : c.integer field = .error stop) :
    (∃ attempt, stop.error = .system attempt) ∨
      ∀ more failing, integer ⟨c.rest ++ more, c.offset, failing⟩ field = .error stop := by
  unfold integer at h
  split at h
  · cases Except.error.inj h
    exact .inl ⟨_, shortage_of_failing hf _ _⟩
  next marker rest hrest =>
  split at h
  · next hw =>
    refine .inr fun more failing => ?_
    unfold integer
    simp only [hrest, List.cons_append, hw]
    exact h
  · cases h
  · split at h
    · cases Except.error.inj h
      exact .inl ⟨_, shortage_of_failing (c := { c with rest, offset := c.offset + 1 }) hf _ _⟩
    · cases h

/-- A payload is broken only by what is missing, and what is missing of a
failing stream could not be read. -/
theorem payload_error_of_failing {c : Cursor} (hf : c.failing = true)
    {start length : Nat} {stop : Stop} (h : c.payload start length = .error stop) :
    ∃ attempt, stop.error = .system attempt := by
  unfold payload at h
  split at h
  · cases h
  · cases Except.error.inj h
    exact ⟨_, shortage_of_failing hf _ _⟩

theorem Takes.append {α : Type} {read : Cursor → Except Stop (α × Cursor)} {c d : Cursor} {a : α}
    {taken : Bytes} (h : Takes read c d a taken) (more : Bytes) (failing : Bool) :
    read ⟨c.rest ++ more, c.offset, failing⟩ = .ok (a, ⟨d.rest ++ more, d.offset, failing⟩) := by
  rw [h.rest, List.append_assoc, h.again]

theorem integer_append {c d : Cursor} {field : EnvelopeField} {n : UInt64}
    (h : c.integer field = .ok (n, d)) (more : Bytes) (failing : Bool) :
    integer ⟨c.rest ++ more, c.offset, failing⟩ field =
      .ok (n, ⟨d.rest ++ more, d.offset, failing⟩) := by
  obtain ⟨taken, htaken⟩ := takes_integer h
  exact htaken.append more failing

/-- A frame of a failing stream could not be read, or it is broken whatever follows. -/
theorem frame_error_of_failing {c : Cursor} (hf : c.failing = true) {stop : Stop}
    (h : c.frame = .error stop) : (∃ attempt, stop.error = .system attempt) ∨
      ∀ more failing, frame ⟨c.rest ++ more, c.offset, failing⟩ = .error stop := by
  simp only [frame_eq_error_iff]
  cases frame_eq_error_iff.mp h with
  | inKind h =>
    exact (integer_error_of_failing hf h).imp_right fun hstays more failing =>
      .inKind (hstays more failing)
  | atKind hkind h => exact .inr fun more failing => .atKind (integer_append hkind more failing) h
  | inTimestamp hkind hz h =>
    rw [← failing_integer hkind] at hf
    refine (integer_error_of_failing hf h).imp_right fun hstays more failing => ?_
    exact .inTimestamp (integer_append hkind more failing) hz (hstays more failing)
  | inLength hkind hz htime h =>
    rw [← failing_integer hkind, ← failing_integer htime] at hf
    refine (integer_error_of_failing hf h).imp_right fun hstays more failing => ?_
    exact .inLength (integer_append hkind more failing) hz (integer_append htime more failing)
      (hstays more failing)
  | inPayload hkind hz htime hlength h =>
    rw [← failing_integer hkind, ← failing_integer htime, ← failing_integer hlength] at hf
    exact .inl (payload_error_of_failing hf h)

/-- Where a failing stream is found to be damaged, it is so whatever follows. -/
theorem frames_append_of_failing {c : Cursor} (hf : c.failing = true)
    (h : ∀ attempt, c.frames.error ≠ some (.system attempt)) (more : Bytes) (failing : Bool) :
    frames ⟨c.rest ++ more, c.offset, failing⟩ = c.frames := by
  induction c using frames.induct with
  | case1 c hend => exact absurd (hend.2.symm.trans hf) Bool.false_ne_true
  | case2 c hend stop hstop =>
    rw [frames_of_error hend hstop] at h ⊢
    rcases frame_error_of_failing hf hstop with ⟨attempt, he⟩ | hstays
    · exact absurd (congrArg some he) (h attempt)
    · refine frames_of_error ?_ (hstays more failing)
      rintro ⟨hnil, -⟩
      -- Where nothing stands, it depends on the stream what ends the frames.
      have hempty : c.rest = [] := (List.append_eq_nil_iff.mp hnil).1
      have hsame := (hstays [] true).trans (hstays [] false).symm
      rw [hempty] at hsame
      cases congrArg (Except.mapError Stop.error) hsame
  | case3 c hend f d hframe hlt ih =>
    obtain ⟨taken, htaken⟩ := takes_frame hframe
    rw [frames_of_ok hframe] at h ⊢
    rw [frames_of_ok (htaken.append more failing), ih ((frame_ok hframe).2.2.trans hf) h]

end Cursor

end SessionStore
