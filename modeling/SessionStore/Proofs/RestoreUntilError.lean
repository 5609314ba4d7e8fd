import SessionStore.Proofs.Damage
import SessionStore.Restore

/-! Restoring a stream that ends in an error: what stands in front of the error
is restored as if it were all. -/
namespace SessionStore

namespace Stream

/-- A stream is its whole frames and what no other one can be read from. -/
theorem behindFrames_eq (s : Stream) : ∃ tail, s.bytes = s.intact.bytes ++ tail ∧
    s.cursor.behindFrames = ⟨tail, s.intact.bytes.length, s.failing⟩ := by
  obtain ⟨taken, hrest, hoffset, -⟩ := s.cursor.frames_intact
  have hlength : s.cursor.behindFrames.offset = taken.length := hoffset.trans (Nat.zero_add _)
  have hbytes : s.intact.bytes = taken := by
    show s.bytes.take _ = taken
    rw [show s.bytes = _ from hrest, hlength, List.take_left]
  refine ⟨s.cursor.behindFrames.rest, hbytes ▸ hrest, ?_⟩
  rw [hbytes, ← hlength, show s.failing = s.cursor.failing from rfl,
    ← s.cursor.failing_behindFrames]

end Stream

namespace Session

variable (settings : Settings) (options : RestoreOptions) (session : Session)

/-- A restore of a stream that ends in an error, be the stream broken or be it that
it cannot be read on, answers that error. In the session it leaves what it leaves for
the whole frames in front of the error alone, of which it has nothing to complain. -/
theorem restore_until_error {stream : Stream} {e : Error} (h : stream.read.error = some e) :
    stream.intact.read = ⟨stream.read.frames, none, stream.intact.bytes.length⟩ ∧
    (∃ tail stop, stream.bytes = stream.intact.bytes ++ tail ∧
      Cursor.frame ⟨tail, stream.intact.bytes.length, stream.failing⟩ = .error stop ∧
      stop.error = e) ∧
    ∃ restored report, session.restore settings options stream = (restored, .error e) ∧
      session.restore settings options stream.intact = (restored, .ok report) := by
  obtain ⟨tail, hbytes, hbehind⟩ := stream.behindFrames_eq
  obtain ⟨stop, hstop, he⟩ := Cursor.frame_behindFrames h
  rw [hbehind] at hstop
  refine ⟨stream.read_intact, ⟨tail, stop, hbytes, hstop, he⟩, ?_⟩
  have hdecoded : stream.intact.read.decoded = stream.read.decoded := by
    unfold Reading.decoded
    rw [stream.read_intact]
  have herror : stream.intact.read.error = none := by rw [stream.read_intact]
  unfold restore
  dsimp only
  rw [h, herror, hdecoded]
  exact ⟨_, _, rfl, rfl⟩

/-- The stream cannot be read on behind the kind and the time of its third frame. The jumps of the
two whole frames are restored, of which the second one is older than all that there is room for. -/
theorem restore_until_error_failing :
    let a : Path := .ofAscii "a"
    let b : Path := .ofAscii "b"
    let settings : Settings := { jumps := 2 }
    let options : RestoreOptions := { info := true, marks := true }
    let session : Session := { jumps := [⟨2, { file := a }⟩, ⟨3, { file := b }⟩] }
    let stream : Stream :=
      ⟨[8, 5, 5, 0x81, 0xA1, 0x66, 0xA1, 0x61, 8, 1, 5, 0x81, 0xA1, 0x66, 0xA1, 0x63, 8, 9], true⟩
    stream.read.error = some (.system (.readAt 18)) ∧
      (∃ restored report, session.restore settings options stream =
        (restored, .error (.system (.readAt 18))) ∧
        session.restore settings options stream.intact = (restored, .ok report)) ∧
      (session.restore settings options stream).1.jumps =
      [⟨5, { file := a }⟩, ⟨3, { file := b }⟩] := by
  intro a b settings options session stream
  have herror : stream.read.error = some (.system (.readAt 18)) := by with_unfolding_all rfl
  refine ⟨herror, (restore_until_error settings options session herror).2.2, ?_⟩
  show (session.restore settings options stream).1.jumps = _
  decide +kernel

end Session

end SessionStore
