import SessionStore.Proofs.FrameGrammar
import SessionStore.Proofs.Saving

/-! Saving over a damaged file: only what stands behind the last whole frame is lost. -/
namespace SessionStore

namespace Cursor

/-- What a reader took from a cursor. It takes the same from there whatever stands behind. -/
structure Takes {α : Type} (read : Cursor → Except Stop (α × Cursor)) (c d : Cursor) (a : α)
    (taken : Bytes) : Prop where
  rest : c.rest = taken ++ d.rest
  offset : d.offset = c.offset + taken.length
  again : ∀ rest failing, read ⟨taken ++ rest, c.offset, failing⟩ =
    .ok (a, ⟨rest, d.offset, failing⟩)

theorem takes_integer {c d : Cursor} {field : EnvelopeField} {n : UInt64}
    (h : c.integer field = .ok (n, d)) : ∃ taken, Takes (·.integer field) c d n taken := by
  obtain ⟨form, hform, hpasses⟩ := integer_eq_ok_iff.mp h
  refine ⟨form, hpasses.rest, hpasses.offset, fun rest failing => ?_⟩
  rw [integer_form hform, UInt64.ofNat_toNat, hpasses.offset]

theorem takes_frame {c d : Cursor} {f : Frame} (h : c.frame = .ok (f, d)) :
    ∃ taken, Takes frame c d f taken := by
  obtain ⟨hplace, form, hform, hpasses⟩ := frame_eq_ok_iff.mp h
  refine ⟨form, hpasses.rest, hpasses.offset, fun rest failing => ?_⟩
  rw [frame_form hform, hpasses.offset, ← hplace]

def behindFrames (c : Cursor) : Cursor :=
  match h : c.frame with
  | .error _ => c
  | .ok (_, rest) =>
    have := length_frame h
    rest.behindFrames
termination_by c.rest.length

theorem behindFrames_of_error {c : Cursor} {stop : Stop} (h : c.frame = .error stop) :
    c.behindFrames = c := by
  rw [behindFrames]
  split
  · rfl
  · next he => cases h.symm.trans he

theorem behindFrames_of_ok {c d : Cursor} {f : Frame} (h : c.frame = .ok (f, d)) :
    c.behindFrames = d.behindFrames := by
  rw [behindFrames]
  split
  · next he => cases h.symm.trans he
  · next he =>
    obtain ⟨rfl, rfl⟩ := Prod.mk.inj (Except.ok.inj (h.symm.trans he))
    rfl

/-- The bytes of the frames that can be read give these frames again, and nothing is behind them. -/
theorem frames_intact (c : Cursor) :
    ∃ taken, c.rest = taken ++ c.behindFrames.rest ∧ c.behindFrames.offset = c.offset +
      taken.length ∧ frames ⟨taken, c.offset, false⟩ =
      ⟨c.frames.frames, none, c.behindFrames.offset⟩ := by
  have hnone (offset : Nat) : frames ⟨[], offset, false⟩ = ⟨[], none, offset⟩ := by
    rw [frames, if_pos ⟨rfl, rfl⟩]
  induction c using frames.induct with
  | case1 c hend =>
    have hstop : c.frame = .error ⟨c.shortage c.offset (.endInField .kind), c.offset⟩ := by
      unfold frame integer
      rw [hend.1]
      rfl
    rw [behindFrames_of_error hstop, frames, if_pos hend]
    exact ⟨[], rfl, rfl, hnone _⟩
  | case2 c hend stop hstop =>
    rw [behindFrames_of_error hstop, frames_of_error hend hstop]
    exact ⟨[], rfl, rfl, hnone _⟩
  | case3 c hend f rest hframe hlt ih =>
    obtain ⟨more, hmore, hoffset, hframes⟩ := ih
    obtain ⟨taken, htaken⟩ := takes_frame hframe
    -- The frame is read from its own bytes, so what stands behind them can be cut as the rest of
    -- the frames allow.
    rw [behindFrames_of_ok hframe, frames_of_ok hframe]
    refine ⟨taken ++ more, ?_, ?_, ?_⟩
    · rw [List.append_assoc, ← hmore]
      exact htaken.rest
    · rw [hoffset, htaken.offset, List.length_append, Nat.add_assoc]
    · rw [frames_of_ok (htaken.again more false), hframes]

theorem failing_behindFrames (c : Cursor) : c.behindFrames.failing = c.failing := by
  induction c using behindFrames.induct with
  | case1 c stop hstop => rw [behindFrames_of_error hstop]
  | case2 c f rest hframe hlt ih => rw [behindFrames_of_ok hframe, ih, (frame_ok hframe).2.2]

/-- Whatever ends the frames shows where the last whole one ends. -/
theorem frame_behindFrames {c : Cursor} {e : Error} (h : c.frames.error = some e) :
    ∃ stop, c.behindFrames.frame = .error stop ∧ stop.error = e := by
  induction c using frames.induct with
  | case1 c hend =>
    rw [frames, if_pos hend] at h
    cases h
  | case2 c hend stop hstop =>
    rw [frames_of_error hend hstop] at h
    rw [behindFrames_of_error hstop]
    exact ⟨stop, hstop, Option.some.inj h⟩
  | case3 c hend f rest hframe hlt ih =>
    rw [frames_of_ok hframe] at h
    rw [behindFrames_of_ok hframe]
    exact ih h

end Cursor

namespace Stream

/-- The stream as far as its last whole frame. -/
def intact (s : Stream) : Stream := ⟨s.bytes.take s.cursor.behindFrames.offset, false⟩

/-- Cut behind its last whole frame, a stream has the same frames and a clean end. -/
theorem read_intact (s : Stream) :
    s.intact.read = ⟨s.read.frames, none, s.intact.bytes.length⟩ := by
  obtain ⟨taken, hrest, hoffset, hframes⟩ := s.cursor.frames_intact
  have hlength : s.cursor.behindFrames.offset = taken.length := hoffset.trans (Nat.zero_add _)
  have hbytes : s.intact.bytes = taken := by
    show s.bytes.take _ = taken
    rw [show s.bytes = _ from hrest, hlength, List.take_left]
  have hintact : s.intact = ⟨taken, false⟩ := by rw [← hbytes]; rfl
  rw [hbytes, hintact, ← hlength]
  exact hframes

theorem entries_intact (s : Stream) : s.intact.entries = s.entries := by
  unfold entries Reading.decoded
  rw [read_intact]

end Stream

namespace Session

variable {settings : Settings} {occasion : Occasion} {session : Session} {file : Stream}

theorem merged_intact (settings : Settings) (occasion : Occasion) (session : Session)
    (file : Stream) :
    session.merged settings occasion file.intact = session.merged settings occasion file := by
  unfold merged
  rw [Stream.entries_intact]

theorem merge_clean (h : file.read.error = none) :
    session.merge settings occasion (some file) =
      .ok (session.merged settings occasion file, .clean) := by
  unfold merge Merge.absorbStream
  simp only [h]
  rfl

theorem merge_damaged {offset : Nat} {fault : FormatFault}
    (h : file.read.error = some (.format offset fault)) :
    session.merge settings occasion (some file) =
      .ok (session.merged settings occasion file, .recovered offset fault file.entries.length) := by
  unfold merge Merge.absorbStream
  simp only [h]
  rfl

/-- Where the merge is the same, so is the save, but for what it tells of the previous file. -/
theorem save_congr {previous other : Option Stream} {merged : Merge} {status status' : MergeStatus}
    (h : session.merge settings occasion previous = .ok (merged, status))
    (h' : session.merge settings occasion other = .ok (merged, status')) (sink : Sink) :
    session.save settings occasion previous sink =
      ((session.save settings occasion other sink).1,
        (session.save settings occasion other sink).2.map fun report =>
          { report with merge := status }) := by
  unfold save
  rw [h, h']
  dsimp only
  split <;> rfl

/-- A save over a file that is read to its end says that the file was merged as
a whole. Over a damaged one it does what it does over the frames in front of the
damage, and tells the damage and how many entries it had read by then. Over one
that cannot be read it ends in the error of reading, and writes nothing. -/
theorem save_over_damage (settings : Settings) (occasion : Occasion) (session : Session)
    (file : Stream) : match file.read.error with
    | none => ∃ saved report, session.save settings occasion (some file) {} = (saved, .ok report) ∧
        report.merge = .clean
    | some (.format offset fault) =>
      file.intact.read = ⟨file.read.frames, none, file.intact.bytes.length⟩ ∧
        (∃ saved report, session.save settings occasion (some file) {} = (saved, .ok report)) ∧
        ∀ sink, session.save settings occasion (some file) sink =
          ((session.save settings occasion (some file.intact) sink).1,
            (session.save settings occasion (some file.intact) sink).2.map fun report =>
              { report with merge := .recovered offset fault file.entries.length })
    | some e => (∃ attempt, e = .system attempt) ∧
        ∀ sink, session.save settings occasion (some file) sink = (sink, .error e) := by
  have hends : ∀ e ∈ file.read.error, e.Ends file.failing := file.cursor.frames_sound.2
  split
  · next herror =>
    obtain ⟨skipped, hsave⟩ := save_of_merge_kept (merge_clean herror)
    exact ⟨_, _, hsave, rfl⟩
  · next offset fault herror =>
    have hintact : file.intact.read.error = none := by rw [Stream.read_intact]
    have hclean : session.merge settings occasion (some file.intact) =
        .ok (session.merged settings occasion file, .clean) := by
      rw [merge_clean hintact, merged_intact]
    obtain ⟨skipped, hsave⟩ := save_of_merge_kept (merge_damaged herror)
    exact ⟨file.read_intact, ⟨_, _, hsave⟩, save_congr (merge_damaged herror) hclean⟩
  · next e hformat herror =>
    have he := hends e herror
    cases e with
    | format offset fault => exact (hformat offset fault rfl).elim
    | system attempt =>
      refine ⟨⟨attempt, rfl⟩, fun sink => ?_⟩
      unfold save merge Merge.absorbStream
      simp only [herror]
      rfl
    | _ => exact he.elim

end Session

end SessionStore
