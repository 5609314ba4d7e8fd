import SessionStore.Proofs.Saving

/-! A sink of limited room gets what an unlimited one gets, as long as it refuses nothing. -/
namespace SessionStore

def Sink.unlimited (sink : Sink) : Sink := { sink with limit := none }

namespace EntryWriter

def unlimited (w : EntryWriter) : EntryWriter := { w with sink := w.sink.unlimited }

theorem write_unlimited_of_eq_none {w w' : EntryWriter} {entry : Entry}
    (h : w.write entry = (w', none)) : w.unlimited.write entry = (w'.unlimited, none) := by
  have hstep := w.write_step entry
  rw [h] at hstep
  cases hstep with
  | leftOut hf => exact write_of_leftOut hf
  | added hf => exact write_of_hasRoom hf (Sink.hasRoom_of_unlimited rfl)

theorem writeAll_unlimited_of_eq_none {settings : Settings} {w w' : EntryWriter}
    {entries : List Entry} (h : w.writeAll settings entries = (w', none)) :
    w.unlimited.writeAll settings entries = (w'.unlimited, none) := by
  induction entries generalizing w with
  | nil =>
    cases h
    rfl
  | cons entry rest ih =>
    unfold writeAll at h ⊢
    split at h
    · next hl =>
      rw [if_pos hl]
      exact ih h
    · next hl =>
      rw [if_neg hl]
      split at h
      · next hw =>
        rw [write_unlimited_of_eq_none hw]
        exact ih h
      · cases h

end EntryWriter

/-- A save that succeeds writes and reports what it does without a limit of room. -/
theorem Session.save_unlimited {settings : Settings} {occasion : Occasion} {session : Session}
    {previous : Option Stream} {sink sink' : Sink} {report : SaveReport}
    (h : session.save settings occasion previous sink = (sink', .ok report)) :
    session.save settings occasion previous sink.unlimited = (sink'.unlimited, .ok report) := by
  unfold save at h ⊢
  split at h
  · cases h
  · next merged status hmerge =>
    dsimp only at h ⊢
    split at h
    · cases h
    · next w hw =>
      have hall := EntryWriter.writeAll_unlimited_of_eq_none hw
      unfold EntryWriter.unlimited at hall
      rw [hall]
      obtain ⟨rfl, hreport⟩ := Prod.mk.inj h
      rw [← hreport]

end SessionStore
