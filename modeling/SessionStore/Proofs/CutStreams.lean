import SessionStore.Proofs.FrameGrammar

/-! A stream that is cut anywhere: the frames in front of the cut are read as
before, and the one that is cut is damage. -/
namespace SessionStore

namespace Reading

/-- The places where frames meet, the beginning and the end included. -/
def boundaries (r : Reading) : List Nat := r.frames.map Frame.offset ++ [r.offset]

def framesWithin (r : Reading) (k : Nat) : List Frame :=
  ((r.frames.zip r.boundaries.tail).filter fun framed => framed.2 ≤ k).map Prod.fst

theorem boundaries_cons (f : Frame) (fs : List Frame) (error : Option Error) (last : Nat) :
    boundaries ⟨f :: fs, error, last⟩ = f.offset :: boundaries ⟨fs, error, last⟩ := rfl

theorem framesWithin_cons {f : Frame} {fs : List Frame} {error : Option Error} {last first k : Nat}
    (h : (boundaries ⟨fs, error, last⟩).head? = some first) :
    framesWithin ⟨f :: fs, error, last⟩ k =
      if first ≤ k then f :: framesWithin ⟨fs, error, last⟩ k
      else framesWithin ⟨fs, error, last⟩ k := by
  obtain ⟨others, hb⟩ := List.head?_eq_some_iff.mp h
  have htail : (boundaries ⟨f :: fs, error, last⟩).tail = first :: others := hb
  unfold framesWithin
  rw [htail, hb]
  dsimp only [List.tail_cons]
  rw [List.zip_cons_cons, List.filter_cons]
  simp only [decide_eq_true_eq]
  split_ifs <;> rfl

end Reading

namespace Frame.Tiled

variable {offset : Nat} {fs : List Frame} {bytes : Bytes} {error : Option Error} {k : Nat}

theorem head?_boundaries (h : Tiled offset fs bytes) (error : Option Error) :
    (Reading.boundaries ⟨fs, error, offset + bytes.length⟩).head? = some offset := by
  cases h with
  | nil => rfl
  | cons hp _ _ => rw [Reading.boundaries_cons, List.head?_cons, hp]

theorem le_of_mem_boundaries (h : Tiled offset fs bytes) :
    ∀ place ∈ Reading.boundaries ⟨fs, error, offset + bytes.length⟩, offset ≤ place := by
  induction h with
  | nil => simp [Reading.boundaries]
  | cons hp _ _ ih =>
    intro place hplace
    rw [List.length_append, ← Nat.add_assoc, Reading.boundaries_cons] at hplace
    rcases List.mem_cons.mp hplace with rfl | hplace
    · exact Nat.le_of_eq hp.symm
    · exact Nat.le_trans (Nat.le_add_right ..) (ih place hplace)

theorem framesWithin_of_lt (h : Tiled offset fs bytes) (hk : k < offset) :
    Reading.framesWithin ⟨fs, error, offset + bytes.length⟩ k = [] := by
  rw [Reading.framesWithin, List.map_eq_nil_iff, List.filter_eq_nil_iff]
  intro framed hf
  have hle := h.le_of_mem_boundaries framed.2 (List.mem_of_mem_tail (List.of_mem_zip hf).2)
  have hlt : k < framed.2 := by omega
  simpa using hlt

/-- Up to a place in the first frame there is none; from its end on, it is there
with those of the others. -/
theorem framesWithin_cons {f : Frame} {form behind : Bytes}
    (h : Tiled (offset + form.length) fs behind) :
    Reading.framesWithin ⟨f :: fs, error, offset + (form ++ behind).length⟩ k =
      if offset + form.length ≤ k then
        f :: Reading.framesWithin ⟨fs, error, offset + form.length + behind.length⟩ k
      else [] := by
  rw [List.length_append, ← Nat.add_assoc, Reading.framesWithin_cons (h.head?_boundaries error)]
  split
  · rfl
  · next hk => exact h.framesWithin_of_lt (Nat.lt_of_not_le hk)

theorem framesWithin_prefix (h : Tiled offset fs bytes) (k : Nat) :
    Reading.framesWithin ⟨fs, error, offset + bytes.length⟩ k <+: fs := by
  induction h with
  | nil => exact List.prefix_rfl
  | cons _ _ ht ih =>
    rw [ht.framesWithin_cons]
    split
    · exact (List.prefix_cons_inj _).mpr ih
    · exact List.nil_prefix

/-- Where a form of a frame is cut, no frame can be read. -/
theorem frame_take_error {f : Frame} {form : Bytes} (h : f.Form form) (hk : k < form.length)
    (offset : Nat) : ∃ stop, Cursor.frame ⟨form.take k, offset, false⟩ = .error stop := by
  cases hframe : Cursor.frame ⟨form.take k, offset, false⟩ with
  | error stop => exact ⟨stop, rfl⟩
  | ok read =>
    -- A frame that is read from the first bytes is read from all of them too, and ends
    -- at the same place.
    obtain ⟨f', d⟩ := read
    obtain ⟨-, form', hform', hpasses⟩ := Cursor.frame_eq_ok_iff.mp hframe
    have htake : form.take k = form' ++ d.rest := hpasses.rest
    have hwhole : form = form' ++ (d.rest ++ form.drop k) := by
      rw [← List.append_assoc, ← htake, List.take_append_drop]
    have hfirst := Cursor.frame_form h [] offset false
    have hsecond := Cursor.frame_form hform' (d.rest ++ form.drop k) offset false
    rw [List.append_nil] at hfirst
    rw [← hwhole, hfirst] at hsecond
    obtain ⟨-, hcursor⟩ := Prod.mk.inj (Except.ok.inj hsecond)
    have hoffset : offset + form.length = offset + form'.length := congrArg Cursor.offset hcursor
    have hlength := congrArg List.length htake
    rw [List.length_take, List.length_append] at hlength
    omega

/-- What is there of a frame that is cut is neither a frame nor nothing. -/
theorem frames_take_form {f : Frame} {form : Bytes} (h : f.Form form) (hpos : 0 < k)
    (hk : k < form.length) (offset : Nat) : ∃ place fault read,
      Cursor.frames ⟨form.take k, offset, false⟩ = ⟨[], some (.format place fault), read⟩ := by
  obtain ⟨stop, hstop⟩ := frame_take_error h hk offset
  obtain ⟨place, fault, herror⟩ := (Cursor.frame_error hstop).isFormat rfl
  have hmore : ¬(form.take k = [] ∧ false = false) := by
    rintro ⟨hnil, -⟩
    have hlength := congrArg List.length hnil
    rw [List.length_take, List.length_nil] at hlength
    omega
  exact ⟨place, fault, stop.offset, by rw [Cursor.frames_of_error hmore hstop, herror]⟩

/-- Frames one behind the other are read up to the last one that is whole. What
is left of the next one is damage. -/
theorem frames_take (h : Tiled offset fs bytes) (hk : k ≤ bytes.length) :
    ∃ error read, Cursor.frames ⟨bytes.take k, offset, false⟩ =
        ⟨Reading.framesWithin ⟨fs, none, offset + bytes.length⟩ (offset + k), error, read⟩ ∧
      if offset + k ∈ Reading.boundaries ⟨fs, none, offset + bytes.length⟩ then error = none
      else ∃ place fault, error = some (.format place fault) := by
  have hnone (offset : Nat) : Cursor.frames ⟨[], offset, false⟩ = ⟨[], none, offset⟩ := by
    rw [Cursor.frames, if_pos ⟨rfl, rfl⟩]
  induction h generalizing k with
  | nil =>
    cases Nat.le_zero.mp hk
    exact ⟨none, _, hnone _, by simp [Reading.boundaries]⟩
  | @cons offset f form fs behind hp hf ht ih =>
    have hthree := hf.three_le_length
    have hboundaries : Reading.boundaries ⟨f :: fs, none, offset + (form ++ behind).length⟩ =
        offset :: Reading.boundaries ⟨fs, none, offset + form.length + behind.length⟩ := by
      rw [Reading.boundaries_cons, hp, List.length_append, Nat.add_assoc]
    rw [ht.framesWithin_cons, hboundaries]
    by_cases hwhole : form.length ≤ k
    · -- The first frame is whole, and the cut is in what is behind it.
      obtain ⟨rest, rfl⟩ := Nat.exists_eq_add_of_le hwhole
      have hplace : offset + form.length + rest = offset + (form.length + rest) := Nat.add_assoc ..
      have hf' : { f with offset } = f := by rw [← hp]
      rw [List.length_append] at hk
      obtain ⟨error, read, hframes, hend⟩ := ih (k := rest) (by omega)
      rw [hplace] at hframes hend
      refine ⟨error, read, ?_, ?_⟩
      · rw [if_pos (by omega), List.take_length_add_append,
          Cursor.frames_of_ok (Cursor.frame_form hf _ _ _), hframes, hf']
      · have hne : offset + (form.length + rest) ≠ offset := by omega
        simpa only [List.mem_cons, hne, false_or] using hend
    · rw [if_neg (by omega), List.take_append_of_le_length (by omega)]
      rcases Nat.eq_zero_or_pos k with rfl | hpos
      · exact ⟨none, _, hnone _, by simp⟩
      · obtain ⟨place, fault, read, hframes⟩ :=
          frames_take_form hf hpos (Nat.lt_of_not_le hwhole) offset
        have hnot : offset + k ∉ offset ::
            Reading.boundaries ⟨fs, none, offset + form.length + behind.length⟩ := by
          intro hmem
          rcases List.mem_cons.mp hmem with heq | hmem
          · omega
          · have hle := ht.le_of_mem_boundaries _ hmem
            omega
        refine ⟨_, read, hframes, ?_⟩
        rw [if_neg hnot]
        exact ⟨place, fault, rfl⟩

end Frame.Tiled

namespace Stream

/-- Of a stream that has a clean end, the first bytes give what it gives itself for the
frames that end within them. If they end where frames meet, they give nothing else;
otherwise the frame that is cut gives one error, that of damage, and nothing behind it. -/
theorem results_take {stream : Stream} (h : stream.read.error = none) {k : Nat}
    (hk : k ≤ stream.bytes.length) : let cut : Stream := ⟨stream.bytes.take k, false⟩
    let kept := (stream.read.framesWithin k).map Frame.decode
    kept <+: stream.read.results ∧
      if k ∈ stream.read.boundaries then cut.read.results = kept
      else ∃ offset fault, cut.read.results = kept ++ [.error (.format offset fault)] := by
  intro cut kept
  obtain ⟨htiled, hoffset⟩ := tiled_of_error_eq_none h
  have hread : stream.read = ⟨stream.read.frames, none, 0 + stream.bytes.length⟩ := by
    rw [Nat.zero_add, ← hoffset, ← h]
  have hresults : stream.read.results = stream.read.frames.map Frame.decode := by
    rw [Reading.results, h]
    exact List.append_nil _
  constructor
  · rw [hresults]
    refine List.IsPrefix.map _ ?_
    rw [hread]
    exact htiled.framesWithin_prefix k
  · obtain ⟨error, read, hframes, hend⟩ := htiled.frames_take hk
    rw [← hread, Nat.zero_add] at hframes hend
    have hcut : cut.read.results = kept ++ (error.map Except.error).toList := by
      show (Cursor.frames ⟨stream.bytes.take k, 0, false⟩).results = _
      rw [hframes]
      rfl
    rw [hcut]
    split_ifs at hend ⊢
    · rw [hend]
      exact List.append_nil _
    · obtain ⟨place, fault, rfl⟩ := hend
      exact ⟨place, fault, rfl⟩

/-- The payload of the first frame is no mark. A cut in the time of the second
frame leaves the error of the first one and damage; a cut between the frames
leaves the error of the first one alone. -/
theorem results_take_time :
    let stream : Stream := ⟨[7, 1, 1, 0xC0, 0xCC, 200, 0xCF, 0, 0, 0, 0, 0, 0, 0, 9, 1, 5], false⟩
    let invalid : Except Error Entry := Frame.decode ⟨7, 1, [0xC0], 0⟩
    (∃ kind cause, invalid = .error (.item 0 kind cause)) ∧
      (∃ offset fault, (Stream.mk (stream.bytes.take 12) false).read.results =
        [invalid, .error (.format offset fault)]) ∧
      (Stream.mk (stream.bytes.take 4) false).read.results = [invalid] := by
  intro stream invalid
  have herror : stream.read.error = none := by decide +kernel
  have hboundaries : stream.read.boundaries = [0, 4, 17] := by decide +kernel
  have hwithin (k : Nat) (hk : k = 4 ∨ k = 12) : stream.read.framesWithin k =
      [⟨7, 1, [0xC0], 0⟩] := by
    rcases hk with rfl | rfl <;> with_unfolding_all rfl
  obtain ⟨-, htime⟩ := results_take herror (k := 12) (by decide)
  obtain ⟨-, hmeet⟩ := results_take herror (k := 4) (by decide)
  rw [hboundaries, if_neg (by decide), hwithin 12 (.inr rfl)] at htime
  rw [hboundaries, if_pos (by decide), hwithin 4 (.inl rfl)] at hmeet
  have hinvalid : Frame.decode ⟨7, 1, [0xC0], 0⟩ =
      .error (.item 0 .globalMark (.wrongType "mark" "a map")) := by
    rfl
  exact ⟨⟨_, _, hinvalid⟩, htime, hmeet⟩

end Stream

end SessionStore
