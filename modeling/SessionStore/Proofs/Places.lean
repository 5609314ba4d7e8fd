import SessionStore.Proofs.Frames

/-! Where a stream begins only matters to the places that frames and errors tell. -/
namespace SessionStore

def Error.moved (n : Nat) : Error → Error
  | .format offset fault => .format (offset + n) fault
  | .item offset kind cause => .item (offset + n) kind cause
  | .system (.readAt offset) => .system (.readAt (offset + n))
  | e => e

def Stop.moved (n : Nat) (stop : Stop) : Stop := ⟨stop.error.moved n, stop.offset + n⟩

def Frame.moved (n : Nat) (f : Frame) : Frame := { f with offset := f.offset + n }

def Cursor.moved (n : Nat) (c : Cursor) : Cursor := { c with offset := c.offset + n }

def Reading.moved (n : Nat) (r : Reading) : Reading :=
  ⟨r.frames.map (Frame.moved n), r.error.map (Error.moved n), r.offset + n⟩

namespace Error

theorem moved_zero (e : Error) : e.moved 0 = e := by
  cases e with
  | system attempt => cases attempt <;> rfl
  | _ => rfl

theorem moved_moved (e : Error) (m n : Nat) : (e.moved m).moved n = e.moved (m + n) := by
  cases e with
  | format | item => simp only [moved, Nat.add_assoc]
  | system attempt =>
    cases attempt with
    | readAt offset => simp only [moved, Nat.add_assoc]
    | _ => rfl
  | _ => rfl

end Error

namespace Frame

/-- What a frame is understood as does not depend on its place. -/
theorem decode_moved (f : Frame) (n : Nat) :
    (f.moved n).decode = f.decode.mapError (Error.moved n) := by
  unfold decode moved
  dsimp only
  split
  · rfl
  · split <;> rfl

end Frame

namespace Reading

theorem decoded_moved (r : Reading) (n : Nat) :
    (r.moved n).decoded = r.decoded.map (Except.mapError (Error.moved n)) := by
  unfold decoded moved
  rw [List.map_map, List.map_map]
  exact List.map_congr_left fun f _ => f.decode_moved n

theorem decoded_of_moved {r : Reading} {n : Nat} {entries : List Entry}
    (h : (r.moved n).decoded = entries.map .ok) : r.decoded = entries.map .ok := by
  rw [decoded_moved] at h
  generalize r.decoded = results at h
  induction results generalizing entries with
  | nil => exact h
  | cons result rest ih =>
    cases entries with
    | nil => cases h
    | cons entry entries =>
      obtain ⟨hresult, hrest⟩ := List.cons.inj h
      cases result with
      | error e => cases hresult
      | ok first =>
        cases Except.ok.inj hresult
        rw [ih hrest, List.map_cons]

end Reading

namespace Cursor

variable (c : Cursor) (n : Nat)

theorem shortage_moved (start : Nat) (fault : FormatFault) :
    (c.moved n).shortage (start + n) fault = (c.shortage start fault).moved n := by
  unfold shortage moved
  dsimp only
  split <;> rfl

/-- What a reader takes from a cursor that stands further on, and where it stands then. -/
def movedRead {α : Type} (move : α → α) (n : Nat) :
    Except Stop (α × Cursor) → Except Stop (α × Cursor)
  | .ok (a, d) => .ok (move a, d.moved n)
  | .error stop => .error (stop.moved n)

/-- Two readers one after the other start further on if each of them does. -/
theorem movedRead_bind {α β : Type} {move : α → α} {move' : β → β} {x : Except Stop (α × Cursor)}
    {next next' : α × Cursor → Except Stop (β × Cursor)}
    (h : ∀ a d, next' (move a, d.moved n) = movedRead move' n (next (a, d))) :
    (movedRead move n x >>= next') = movedRead move' n (x >>= next) := by
  cases x with
  | error stop => rfl
  | ok read => exact h read.1 read.2

theorem integer_moved (field : EnvelopeField) :
    (c.moved n).integer field = movedRead id n (c.integer field) := by
  obtain ⟨rest, offset, failing⟩ := c
  have hnext : offset + n + 1 = offset + 1 + n := Nat.add_right_comm ..
  have hshortage := shortage_moved ⟨rest, offset, failing⟩ n offset (.endInField field)
  unfold integer
  cases rest with
  | nil => exact congrArg (fun e => Except.error (Stop.mk e _)) hshortage
  | cons marker rest =>
    have hmarked := shortage_moved ⟨rest, offset + 1, failing⟩ n offset (.endInField field)
    unfold moved at hmarked ⊢
    dsimp only at hmarked ⊢
    rw [hnext]
    cases hw : integerWidth? marker with
    | none => rfl
    | some width =>
      cases width with
      | zero => rfl
      | succ width =>
        have hbehind : offset + 1 + n + (width + 1) = offset + 1 + (width + 1) + n :=
          Nat.add_right_comm ..
        simp only [hmarked, hbehind]
        cases Bytes.splitAt? (width + 1) rest <;> rfl

theorem payload_moved (start length : Nat) :
    (c.moved n).payload (start + n) length = movedRead id n (c.payload start length) := by
  have hshortage := shortage_moved c n start (.shortPayload length c.rest.length)
  have hbehind (m : Nat) : c.offset + n + m = c.offset + m + n := Nat.add_right_comm ..
  unfold payload
  unfold moved at hshortage ⊢
  dsimp only at hshortage ⊢
  rw [hshortage, hbehind, hbehind]
  cases Bytes.splitAt? length c.rest <;> rfl

theorem frame_moved : (c.moved n).frame = movedRead (Frame.moved n) n c.frame := by
  unfold frame
  rw [integer_moved]
  refine movedRead_bind n fun kind afterKind => ?_
  dsimp only [id]
  split
  · rfl
  rw [integer_moved]
  refine movedRead_bind n fun timestamp afterTime => ?_
  rw [integer_moved]
  refine movedRead_bind n fun length afterLength => ?_
  have hpayload : (afterLength.moved n).payload (c.moved n).offset length.toNat = _ :=
    payload_moved afterLength n ..
  dsimp only [id]
  rw [hpayload]
  exact movedRead_bind n fun payload rest => rfl

/-- From further on, the same frames are read up to the same end or error, each in its place. -/
theorem frames_moved : (c.moved n).frames = c.frames.moved n := by
  induction c using frames.induct with
  | case1 c hend =>
    have hmoved : (c.moved n).rest = [] ∧ (c.moved n).failing = false := hend
    rw [frames, if_pos hmoved, frames, if_pos hend]
    rfl
  | case2 c hend stop hstop =>
    have hmore : ¬((c.moved n).rest = [] ∧ (c.moved n).failing = false) := hend
    have hmoved := frame_moved c n
    rw [hstop] at hmoved
    rw [frames_of_error hmore hmoved, frames_of_error hend hstop]
    rfl
  | case3 c hend f rest hframe hlt ih =>
    have hmoved := frame_moved c n
    rw [hframe] at hmoved
    rw [frames_of_ok hmoved, ih, frames_of_ok hframe]
    rfl

end Cursor

end SessionStore
