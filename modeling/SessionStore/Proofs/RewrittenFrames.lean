import SessionStore.Proofs.FrameGrammar
import SessionStore.Proofs.UnknownKinds

/-! Frames that are written one after the other are read back, and a stream
whose frames are written anew is no longer than it was. -/
namespace SessionStore

namespace Frame

theorem Form.length_encode_le {f : Frame} {form : Bytes} (h : f.Form form) :
    f.encode.length ≤ form.length := by
  obtain ⟨-, hk, ht, hl⟩ := h
  have hkind := hk.length_encodeNat_le
  have htime := ht.length_encodeNat_le
  have hlength := hl.length_encodeNat_le
  simp only [encode, envelope, List.length_append]
  omega

variable {offset : Nat} {fs : List Frame} {bytes : Bytes}

theorem Tiled.readable (h : Tiled offset fs bytes) : ∀ f ∈ fs, f.Readable := by
  induction h with
  | nil => exact List.forall_mem_nil _
  | cons _ hf _ ih => exact List.forall_mem_cons.mpr ⟨hf.readable, ih⟩

theorem Tiled.length_encode_le (h : Tiled offset fs bytes) :
    (fs.flatMap encode).length ≤ bytes.length := by
  induction h with
  | nil => exact Nat.le_refl 0
  | cons _ hf _ ih =>
    have hfirst := hf.length_encode_le
    rw [List.flatMap_cons, List.length_append, List.length_append]
    omega

theorem map_offset_placed (offset : Nat) (fs : List Frame) :
    (placed offset fs).map Frame.offset =
      (List.range fs.length).map fun i => offset + ((fs.take i).flatMap encode).length := by
  induction fs generalizing offset with
  | nil => rfl
  | cons f rest ih =>
    rw [placed, List.map_cons, ih, List.length_cons, List.range_succ_eq_map,
      List.map_cons, List.map_map]
    refine congrArg₂ _ rfl (List.map_congr_left fun i _ => ?_)
    simp only [Function.comp_apply, List.take_succ_cons, List.flatMap_cons, List.length_append]
    omega

end Frame

namespace Stream

/-- Whatever frames are written are read back, each at the place behind those in
front of it, up to a clean end. The frames of any stream that has a clean end
take no more bytes when they are written anew, and are read back then. -/
theorem read_written {fs : List Frame} (h : ∀ f ∈ fs, f.Readable) {stream : Stream}
    (hs : stream.read.error = none) : (let written : Stream := ⟨fs.flatMap Frame.encode, false⟩
     written.read.frames.map Frame.unplaced = fs.map Frame.unplaced ∧
       written.read.frames.map Frame.offset =
         (List.range fs.length).map (fun i => ((fs.take i).flatMap Frame.encode).length) ∧
       written.read.error = none ∧ written.read.offset = written.bytes.length) ∧
    (let again : Stream := ⟨stream.read.frames.flatMap Frame.encode, false⟩
     again.bytes.length ≤ stream.bytes.length ∧
       again.read.frames.map Frame.unplaced = stream.read.frames.map Frame.unplaced ∧
       again.read.error = none) := by
  obtain ⟨htiled, -⟩ := tiled_of_error_eq_none hs
  have hwritten := read_encode h
  have hagain := read_encode htiled.readable
  constructor
  · dsimp only
    rw [hwritten]
    refine ⟨Frame.unplaced_placed 0 fs, ?_, rfl, rfl⟩
    simpa only [Nat.zero_add] using Frame.map_offset_placed 0 fs
  · dsimp only
    rw [hagain]
    exact ⟨htiled.length_encode_le, Frame.unplaced_placed 0 _, rfl⟩

/-- Two frames are written, of which the second one has no payload and the latest
time; a frame in longer forms than needed takes four bytes when it is written anew. -/
theorem read_written_longer :
    let fs : List Frame := [⟨8, 5, [0xC0], 0⟩, ⟨200, 0xFFFFFFFFFFFFFFFF, [], 0⟩]
    let stream : Stream := ⟨[0xCC, 8, 0xCD, 0, 5, 1, 0xC0], false⟩
    (Stream.mk (fs.flatMap Frame.encode) false).read.frames.map Frame.unplaced = fs ∧
      (Stream.mk (fs.flatMap Frame.encode) false).read.frames.map Frame.offset = [0, 4] ∧
      stream.read.frames.flatMap Frame.encode = [8, 5, 1, 0xC0] ∧
      (Stream.mk [8, 5, 1, 0xC0] false).read.frames.map Frame.unplaced =
      stream.read.frames.map Frame.unplaced := by
  intro fs stream
  have hs : stream.read.error = none := by decide +kernel
  have hframes : stream.read.frames.flatMap Frame.encode = [8, 5, 1, 0xC0] := by decide +kernel
  have hreadable : ∀ f ∈ fs, f.Readable := by
    intro f hf
    simp only [fs, List.mem_cons, List.not_mem_nil, or_false] at hf
    rcases hf with rfl | rfl
    · exact ⟨by decide, by decide⟩
    · exact ⟨by decide, by decide⟩
  obtain ⟨⟨hback, hplaces, -, -⟩, -, hagain, -⟩ := read_written hreadable hs
  rw [hframes] at hagain
  exact ⟨hback, hplaces.trans (by decide), hframes, hagain⟩

end Stream

end SessionStore
