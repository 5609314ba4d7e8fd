import SessionStore.Proofs.Damage
import SessionStore.Proofs.Places
import SessionStore.Proofs.RestoreCounts
import SessionStore.Proofs.Restoring

/-! Frames that cannot be understood: what is restored and what is saved is the
same without them. -/
namespace SessionStore

def Frame.isInvalid (f : Frame) : Bool :=
  match f.decode with
  | .error (.item ..) => true
  | _ => false

theorem Frame.decode_eq (f : Frame) :
    if f.isInvalid then ∃ kind cause, f.decode = .error (.item f.offset kind cause)
    else ∃ entry, f.decode = .ok entry := by
  unfold isInvalid
  cases hd : f.decode with
  | ok entry => exact ⟨entry, rfl⟩
  | error e =>
    unfold decode at hd
    split at hd
    · cases hd
    · split at hd
      · cases hd
      · cases Except.error.inj hd
        exact ⟨_, _, rfl⟩

namespace Cursor

theorem frames_eq_nil {c : Cursor} {stop : Stop} (h : c.frame = .error stop) :
    c.frames.frames = [] := by
  rw [frames]
  split
  · rfl
  · split
    · rfl
    · next he => cases h.symm.trans he

/-- The frames that can be read, each with the bytes that it is read from. -/
def pieces (c : Cursor) : List (Frame × Bytes) :=
  match h : c.frame with
  | .error _ => []
  | .ok (f, rest) =>
    have := length_frame h
    (f, c.rest.take (rest.offset - c.offset)) :: rest.pieces
termination_by c.rest.length

theorem pieces_of_error {c : Cursor} {stop : Stop} (h : c.frame = .error stop) : c.pieces = [] := by
  rw [pieces]
  split
  · rfl
  · next he => cases h.symm.trans he

theorem pieces_of_ok {c d : Cursor} {f : Frame} {taken : Bytes} (h : c.frame = .ok (f, d))
    (ht : Takes frame c d f taken) : c.pieces = (f, taken) :: d.pieces := by
  rw [pieces]
  split
  · next he => cases h.symm.trans he
  · next he =>
    obtain ⟨rfl, rfl⟩ := Prod.mk.inj (Except.ok.inj (h.symm.trans he))
    have htaken : c.rest.take (d.offset - c.offset) = taken := by
      rw [ht.offset, ht.rest, Nat.add_sub_cancel_left, List.take_left]
    rw [htaken]

/-- The bytes of a stream are those of its frames, one after the other, and those behind them. -/
theorem pieces_spec (c : Cursor) :
    c.pieces.map Prod.fst = c.frames.frames ∧ c.rest = c.pieces.flatMap Prod.snd ++
      c.behindFrames.rest := by
  induction c using behindFrames.induct with
  | case1 c stop hstop =>
    rw [pieces_of_error hstop, behindFrames_of_error hstop, frames_eq_nil hstop]
    exact ⟨rfl, rfl⟩
  | case2 c f rest hframe hlt ih =>
    obtain ⟨hfst, hsnd⟩ := ih
    obtain ⟨taken, htaken⟩ := takes_frame hframe
    rw [pieces_of_ok hframe htaken, frames_of_ok hframe, behindFrames_of_ok hframe, htaken.rest,
      List.map_cons, hfst, List.flatMap_cons, List.append_assoc, ← hsnd]
    exact ⟨rfl, rfl⟩

def valid (c : Cursor) : Bytes :=
  (c.pieces.filter fun piece => !piece.1.isInvalid).flatMap Prod.snd ++ c.behindFrames.rest

def invalid (c : Cursor) : Bytes := (c.pieces.filter (·.1.isInvalid)).flatMap Prod.snd

/-- Without the frames that are no entries the same entries are read, and the
same error ends them, only further to the front. -/
theorem frames_valid (c : Cursor) :
    (frames ⟨c.valid, c.offset, c.failing⟩).decoded =
      (c.frames.decoded.filterMap Except.toOption).map .ok ∧
      c.frames.error = (frames ⟨c.valid, c.offset, c.failing⟩).error.map
        (Error.moved c.invalid.length) := by
  induction c using behindFrames.induct with
  | case1 c stop hstop =>
    have hvalid : c.valid = c.rest := by
      rw [valid, pieces_of_error hstop, behindFrames_of_error hstop]
      rfl
    have hinvalid : c.invalid = [] := by
      rw [invalid, pieces_of_error hstop]
      rfl
    have hsame : Error.moved 0 = id := funext Error.moved_zero
    rw [hvalid, hinvalid, List.length_nil, hsame, Option.map_id_fun]
    refine ⟨?_, rfl⟩
    show c.frames.frames.map Frame.decode =
      ((c.frames.frames.map Frame.decode).filterMap Except.toOption).map Except.ok
    rw [frames_eq_nil hstop]
    rfl
  | case2 c f rest hframe hlt ih =>
    obtain ⟨hdecoded, herror⟩ := ih
    obtain ⟨taken, htaken⟩ := takes_frame hframe
    have hfailing : rest.failing = c.failing := (frame_ok hframe).2.2
    have hdecode := f.decode_eq
    rw [hfailing] at hdecoded herror
    by_cases hf : f.isInvalid = true
    · rw [if_pos hf] at hdecode
      obtain ⟨kind, cause, hinvalid⟩ := hdecode
      have hvalid : c.valid = rest.valid := by
        simp [valid, pieces_of_ok hframe htaken, behindFrames_of_ok hframe, hf]
      have hlength : c.invalid.length = taken.length + rest.invalid.length := by
        simp [invalid, pieces_of_ok hframe htaken, hf]
      -- Without the bytes of the frame the others stand further to the front.
      have hmoved := frames_moved ⟨rest.valid, c.offset, c.failing⟩ taken.length
      unfold moved at hmoved
      dsimp only at hmoved
      rw [htaken.offset, hmoved] at hdecoded herror
      rw [hvalid, hlength, frames_of_ok hframe]
      refine ⟨?_, ?_⟩
      · show _ = ((f.decode :: rest.frames.decoded).filterMap Except.toOption).map Except.ok
        rw [Reading.decoded_of_moved hdecoded, hinvalid]
        rfl
      · refine herror.trans ?_
        show (Option.map _ (Option.map _ _)) = _
        rw [Option.map_map]
        congr 1
        funext e
        exact e.moved_moved _ _
    · rw [if_neg hf] at hdecode
      obtain ⟨entry, hentry⟩ := hdecode
      have hvalid : c.valid = taken ++ rest.valid := by
        simp [valid, pieces_of_ok hframe htaken, behindFrames_of_ok hframe, hf]
      have hinvalid : c.invalid = rest.invalid := by
        simp [invalid, pieces_of_ok hframe htaken, hf]
      rw [hvalid, hinvalid, frames_of_ok (htaken.again rest.valid c.failing), frames_of_ok hframe]
      refine ⟨?_, herror⟩
      show f.decode :: (frames ⟨rest.valid, rest.offset, c.failing⟩).decoded =
        ((f.decode :: rest.frames.decoded).filterMap Except.toOption).map Except.ok
      rw [hentry, hdecoded]
      rfl

end Cursor

namespace Stream

variable (s : Stream)

/-- The stream without the frames that are no entries. -/
def withoutInvalid : Stream := ⟨s.cursor.valid, s.failing⟩

theorem decoded_withoutInvalid : s.withoutInvalid.read.decoded = s.entries.map .ok :=
  s.cursor.frames_valid.1

theorem entries_withoutInvalid : s.withoutInvalid.entries = s.entries := by
  rw [entries, decoded_withoutInvalid, List.filterMap_map]
  exact List.filterMap_some

theorem countP_decoded :
    s.read.decoded.countP (·.toOption.isNone) = s.read.frames.countP Frame.isInvalid := by
  rw [Reading.decoded, List.countP_map]
  refine List.countP_congr fun f _ => ?_
  have hdecode := f.decode_eq
  by_cases hf : f.isInvalid = true
  · rw [if_pos hf] at hdecode
    obtain ⟨kind, cause, he⟩ := hdecode
    simp [hf, he, Except.toOption]
  · rw [if_neg hf] at hdecode
    obtain ⟨entry, he⟩ := hdecode
    simp [hf, he, Except.toOption]

/-- The end of a stream, or the error that ends it, stays but for its place. -/
theorem error_withoutInvalid :
    s.read.error = s.withoutInvalid.read.error.map (Error.moved s.cursor.invalid.length) :=
  s.cursor.frames_valid.2

end Stream

namespace Restore

variable (settings : Settings) (options : RestoreOptions)

theorem invalid_foldl_apply (entries : List Entry) (r : Restore) :
    (entries.foldl (apply settings options) r).report.invalid = r.report.invalid := by
  induction entries generalizing r with
  | nil => rfl
  | cons entry rest ih =>
    rw [List.foldl_cons, ih, report_apply]
    cases entry.content <;> dsimp only <;> split <;> rfl

/-- What cannot be understood is only counted. -/
theorem foldl_take_eq (results : List (Except Error Entry)) (r : Restore) :
    results.foldl (take settings options) r =
      ((results.filterMap Except.toOption).foldl (apply settings options) r).plus
        { invalid := results.countP (·.toOption.isNone) } := by
  induction results generalizing r with
  | nil => rfl
  | cons result rest ih =>
    rw [List.foldl_cons, ih]
    cases result with
    | ok entry => rfl
    | error e =>
      have hone : r.take settings options (.error e) = r.plus { invalid := 1 } := rfl
      rw [hone, foldl_apply_plus, List.filterMap_cons_none rfl,
        List.countP_cons_of_pos rfl, Nat.add_comm]
      unfold plus
      simp only [Nat.add_zero, Nat.add_assoc]

end Restore

/-- The same account, told of a place that many bytes further on. -/
def MergeStatus.moved (n : Nat) : MergeStatus → MergeStatus
  | .recovered offset fault entries => .recovered (offset + n) fault entries
  | status => status

namespace EntryWriter

theorem writeAll_error {settings : Settings} {w w' : EntryWriter} {entries : List Entry} {e : Error}
    (h : w.writeAll settings entries = (w', some e)) : e = .system .writeEntry := by
  induction entries generalizing w with
  | nil => cases h
  | cons entry rest ih =>
    unfold writeAll at h
    split at h
    · exact ih h
    · split at h
      · exact ih h
      · next hwrite =>
        have hstep := w.write_step entry
        rw [hwrite] at hstep
        cases h
        cases hstep
        rfl

end EntryWriter

namespace Session

variable (settings : Settings) (options : RestoreOptions) (occasion : Occasion) (session : Session)
  (stream : Stream)

theorem restore_withoutInvalid :
    session.restore settings options stream =
      ((session.restore settings options stream.withoutInvalid).1,
        ((session.restore settings options stream.withoutInvalid).2.map fun report =>
          { report with invalid := stream.read.frames.countP Frame.isInvalid }).mapError
          (Error.moved stream.cursor.invalid.length)) := by
  have hnone : (stream.entries.foldl (Restore.apply settings options) { session }).report.invalid =
      0 :=
    Restore.invalid_foldl_apply settings options stream.entries { session }
  have hrun : stream.read.decoded.foldl (Restore.take settings options) { session } =
      (stream.entries.foldl (Restore.apply settings options) { session }).plus
        { invalid := stream.read.frames.countP Frame.isInvalid } := by
    rw [← stream.countP_decoded]
    exact Restore.foldl_take_eq ..
  have hrun' : stream.withoutInvalid.read.decoded.foldl
      (Restore.take settings options) { session } =
      stream.entries.foldl (Restore.apply settings options) { session } := by
    rw [stream.decoded_withoutInvalid, List.foldl_map]
    rfl
  unfold restore
  dsimp only
  rw [hrun', hrun, stream.error_withoutInvalid]
  generalize stream.entries.foldl (Restore.apply settings options) { session } = r at hnone
  generalize stream.read.frames.countP Frame.isInvalid = n
  have hreport : (r.plus { invalid := n }).report = { r.report with invalid := n } := by
    unfold Restore.plus
    simp only [hnone, Nat.zero_add, Nat.add_zero]
  cases stream.withoutInvalid.read.error with
  | some e => rfl
  | none =>
    show (_, Except.ok (r.plus { invalid := n }).report) = _
    rw [hreport]
    rfl

theorem merge_withoutInvalid :
    session.merge settings occasion (some stream) =
      ((session.merge settings occasion (some stream.withoutInvalid)).map fun merge =>
        (merge.1, merge.2.moved stream.cursor.invalid.length)).mapError
          (Error.moved stream.cursor.invalid.length) := by
  unfold merge Merge.absorbStream
  dsimp only
  rw [show stream.read.decoded.filterMap Except.toOption = stream.entries from rfl,
    show stream.withoutInvalid.read.decoded.filterMap Except.toOption =
      stream.withoutInvalid.entries from rfl,
    stream.entries_withoutInvalid, stream.error_withoutInvalid]
  cases stream.withoutInvalid.read.error with
  | none => rfl
  | some e =>
    cases e with
    | system attempt => cases attempt <;> rfl
    | _ => rfl

theorem save_withoutInvalid (sink : Sink) :
    session.save settings occasion (some stream) sink =
      ((session.save settings occasion (some stream.withoutInvalid) sink).1,
        ((session.save settings occasion (some stream.withoutInvalid) sink).2.map fun report =>
          { report with merge := report.merge.moved stream.cursor.invalid.length }).mapError
          (Error.moved stream.cursor.invalid.length)) := by
  have hmerge := session.merge_withoutInvalid settings occasion stream
  unfold save
  rw [hmerge]
  cases session.merge settings occasion (some stream.withoutInvalid) with
  | error e => rfl
  | ok merged =>
    obtain ⟨merged, status⟩ := merged
    dsimp only [Except.map, Except.mapError]
    split
    · next hwrite =>
      cases EntryWriter.writeAll_error hwrite
      rfl
    · rfl

/-- Neither a restore nor a save makes anything of frames that are no entries. Cut out
of the bytes of a stream, they leave the session that is restored, what is written and
all counts as they are, but for that of the frames themselves. What ends the stream
then stands as many bytes further to the front as were cut out, and is told so. -/
theorem same_withoutInvalid (sink : Sink) :
    let cut := stream.cursor.invalid.length
    (stream.cursor.pieces.map Prod.fst = stream.read.frames ∧
      stream.bytes = stream.cursor.pieces.flatMap Prod.snd ++ stream.cursor.behindFrames.rest ∧
      stream.withoutInvalid =
      ⟨(stream.cursor.pieces.filter fun piece => !piece.1.isInvalid).flatMap Prod.snd ++
        stream.cursor.behindFrames.rest, stream.failing⟩) ∧
    session.restore settings options stream =
      ((session.restore settings options stream.withoutInvalid).1,
        ((session.restore settings options stream.withoutInvalid).2.map fun report =>
          { report with invalid := stream.read.frames.countP Frame.isInvalid }).mapError
            (Error.moved cut)) ∧
    session.save settings occasion (some stream) sink =
      ((session.save settings occasion (some stream.withoutInvalid) sink).1,
        ((session.save settings occasion (some stream.withoutInvalid) sink).2.map fun report =>
          { report with merge := report.merge.moved cut }).mapError (Error.moved cut)) := by
  obtain ⟨hframes, hbytes⟩ := stream.cursor.pieces_spec
  exact ⟨⟨hframes, hbytes, rfl⟩, session.restore_withoutInvalid settings options stream,
    session.save_withoutInvalid settings occasion stream sink⟩

end Session

end SessionStore
