import SessionStore.Entry.Encoding
import SessionStore.Save.Writer

/-! What writing one entry can do to a writer and its sink. -/
namespace SessionStore

namespace Sink

def hasRoom (sink : Sink) (n : Nat) : Bool := sink.limit.all (sink.bytes.length + n ≤ ·)

/-- The sink with more bytes, whether it would take them or not. -/
def append (sink : Sink) (bytes : Bytes) : Sink := { sink with bytes := sink.bytes ++ bytes }

theorem write?_eq (sink : Sink) (bytes : Bytes) :
    sink.write? bytes = if sink.hasRoom bytes.length then some (sink.append bytes) else none := by
  unfold write? hasRoom append
  cases sink.limit with
  | none => rfl
  | some limit =>
    by_cases h : limit < sink.bytes.length + bytes.length
    · simp [h, Nat.not_le.mpr h]
    · simp [h, Nat.not_lt.mp h]

theorem hasRoom_append (sink : Sink) (bytes : Bytes) (n : Nat) :
    (sink.append bytes).hasRoom n = sink.hasRoom (bytes.length + n) := by
  unfold hasRoom append
  rw [List.length_append, Nat.add_assoc]

theorem hasRoom_of_le {sink : Sink} {m n : Nat} (hle : m ≤ n) (h : sink.hasRoom n = true) :
    sink.hasRoom m = true := by
  unfold hasRoom at h ⊢
  rw [Option.all_eq_true] at h ⊢
  intro limit hl
  have := of_decide_eq_true (h limit hl)
  exact decide_eq_true (by omega)

theorem hasRoom_of_unlimited {sink : Sink} (h : sink.limit = none) {n : Nat} :
    sink.hasRoom n = true := by
  rw [hasRoom, h]
  rfl

end Sink

namespace Entry

def frame? (entry : Entry) : Option Frame :=
  match entry.content.encode with
  | .ok payload => some { kind := entry.kindId, timestamp := entry.timestamp, payload }
  | .error _ => none

/-- The frame of an entry that has a payload, if its kind is exempt from the
limit or the payload within it. -/
def frameWithin? (maxBytes : Option Nat) (entry : Entry) : Option Frame :=
  entry.frame?.filter fun f => entry.kind.isExemptFromLimit || maxBytes.all (f.payload.length ≤ ·)

theorem frameWithin?_of_error {entry : Entry} {cause : EncodingError}
    (h : entry.content.encode = .error cause) (maxBytes : Option Nat) :
    entry.frameWithin? maxBytes = none := by
  unfold frameWithin? frame?
  rw [h]
  rfl

theorem frameWithin?_of_ok {entry : Entry} {payload : Bytes}
    (h : entry.content.encode = .ok payload) (maxBytes : Option Nat) :
    entry.frameWithin? maxBytes =
      if entry.kind.isExemptFromLimit || maxBytes.all (payload.length ≤ ·) then
        some { kind := entry.kindId, timestamp := entry.timestamp, payload }
      else none := by
  unfold frameWithin? frame?
  rw [h]
  rfl

theorem frame?_of_frameWithin? {maxBytes : Option Nat} {entry : Entry} {f : Frame}
    (h : entry.frameWithin? maxBytes = some f) : entry.frame? = some f :=
  (Option.filter_eq_some_iff.mp h).1

end Entry

namespace EntryWriter

def add (w : EntryWriter) (f : Frame) : EntryWriter :=
  { w with sink := w.sink.append f.encode, written := w.written + 1 }

/-- What writing one entry can do: it is left out, its frame is written whole,
or the sink has no room for the frame and gets its integers or nothing. -/
inductive Step (w : EntryWriter) (entry : Entry) : EntryWriter × Option Error → Prop
  | leftOut (h : entry.frameWithin? w.maxBytes = none) : Step w entry (w.skip, none)
  | added {f : Frame} (h : entry.frameWithin? w.maxBytes = some f)
    (hr : w.sink.hasRoom f.encode.length = true) : Step w entry (w.add f, none)
  | refused {f : Frame} {left : Bytes} (h : entry.frameWithin? w.maxBytes = some f)
    (hr : w.sink.hasRoom f.encode.length = false)
    (hl : left = [] ∨ left = Frame.envelope f.kind f.timestamp f.payload.length) :
    Step w entry ({ w with sink := w.sink.append left }, some (.system .writeEntry))

/-- What is left out for its length is neither exempt nor within the limit. -/
theorem exceeds_eq_not (isExempt : Bool) (limit : Option Nat) (length : Nat) :
    (!isExempt && limit.any (· < length)) = !(isExempt || limit.all (length ≤ ·)) := by
  cases limit with
  | none => simp
  | some limit =>
    have hlimit : decide (limit < length) = !decide (length ≤ limit) := by
      rw [← decide_not]
      exact decide_eq_decide.mpr Nat.not_le.symm
    simp [hlimit]

theorem writeFrame_step (w : EntryWriter) {entry : Entry} {f : Frame}
    (h : entry.frameWithin? w.maxBytes = some f) :
    Step w entry (w.writeFrame f.kind f.timestamp f.payload) := by
  have hlength : f.encode.length = (Frame.envelope f.kind f.timestamp f.payload.length).length +
      f.payload.length :=
    List.length_append
  unfold writeFrame
  rw [Sink.write?_eq]
  by_cases henvelope :
      w.sink.hasRoom (Frame.envelope f.kind f.timestamp f.payload.length).length = true
  · rw [if_pos henvelope]
    dsimp only
    by_cases hnil : f.payload = []
    · have hencode : f.encode = Frame.envelope f.kind f.timestamp f.payload.length := by
        rw [Frame.encode, hnil, List.append_nil]
      rw [if_pos hnil, ← hencode]
      exact .added h (by rw [hencode]; exact henvelope)
    · rw [if_neg hnil, Sink.write?_eq, Sink.hasRoom_append, ← hlength]
      by_cases hroom : w.sink.hasRoom f.encode.length = true
      · rw [if_pos hroom]
        have hadd : (w.sink.append (Frame.envelope f.kind f.timestamp f.payload.length)).append
            f.payload = w.sink.append f.encode := by
          rw [Sink.append, Sink.append, Sink.append, List.append_assoc, Frame.encode]
        dsimp only
        rw [hadd]
        exact .added h hroom
      · rw [if_neg hroom]
        exact .refused h (Bool.eq_false_iff.mpr hroom) (.inr rfl)
  · have hroom : w.sink.hasRoom f.encode.length = false :=
      Bool.eq_false_iff.mpr fun hr => henvelope (Sink.hasRoom_of_le (by omega) hr)
    have hnone : w.sink.append [] = w.sink := by rw [Sink.append, List.append_nil]
    rw [if_neg henvelope]
    have hstep := Step.refused h hroom (.inl rfl)
    rwa [hnone] at hstep

theorem write_step (w : EntryWriter) (entry : Entry) : Step w entry (w.write entry) := by
  unfold write Entry.encode
  cases he : entry.content.encode with
  | error cause => exact .leftOut (Entry.frameWithin?_of_error he w.maxBytes)
  | ok payload =>
    have hframe := Entry.frameWithin?_of_ok he w.maxBytes
    dsimp only
    rw [exceeds_eq_not]
    by_cases hk : (entry.kind.isExemptFromLimit || w.maxBytes.all (payload.length ≤ ·)) = true
    · rw [hk, if_neg (by decide)]
      rw [hk, if_pos rfl] at hframe
      have hstep := w.writeFrame_step hframe
      exact hstep
    · rw [Bool.eq_false_iff.mpr hk, if_pos (by decide)]
      rw [if_neg hk] at hframe
      exact .leftOut hframe

variable {w : EntryWriter} {entry : Entry}

theorem write_of_leftOut (h : entry.frameWithin? w.maxBytes = none) :
    w.write entry = (w.skip, none) := by
  have hstep := w.write_step entry
  generalize w.write entry = result at hstep ⊢
  cases hstep with
  | leftOut => rfl
  | added hf | refused hf => cases h.symm.trans hf

theorem write_of_hasRoom {f : Frame} (h : entry.frameWithin? w.maxBytes = some f)
    (hr : w.sink.hasRoom f.encode.length = true) : w.write entry = (w.add f, none) := by
  have hstep := w.write_step entry
  generalize w.write entry = result at hstep ⊢
  cases hstep with
  | leftOut hf => cases h.symm.trans hf
  | added hf =>
    cases h.symm.trans hf
    rfl
  | refused hf hroom =>
    cases h.symm.trans hf
    rw [hr] at hroom
    cases hroom

end EntryWriter

end SessionStore
