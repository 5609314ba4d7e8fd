import SessionStore.Save.Merge
import SessionStore.Save.Writer

/-! Saving a session over the file that was there before. -/
namespace SessionStore

/-- What a save came to. -/
structure SaveReport where
  merge : MergeStatus
  written : Nat
  /-- Entries without payload, too long, or over a limit. -/
  skipped : Nat

/-- Writes entries until the sink refuses one, leaving out registers of too many lines. -/
def EntryWriter.writeAll (settings : Settings) (w : EntryWriter) :
    List Entry → EntryWriter × Option Error
  | [] => (w, none)
  | entry :: rest =>
    if settings.exceedsLineLimit entry then w.skip.writeAll settings rest
    else
      match w.write entry with
      | (w, none) => w.writeAll settings rest
      | (w, some e) => (w, some e)

namespace Session

/-- The session merged with the previous file, if there is one. -/
def merge (settings : Settings) (occasion : Occasion) (session : Session)
    (previous : Option Stream) : Except Error (Merge × MergeStatus) := do
  let seeded := (Merge.start settings).seed settings occasion.now session
  let (merged, status) ← match previous with
    | none => .ok (seeded, .noPreviousFile)
    | some stream => seeded.absorbStream settings stream
  return (merged.seedHistory session, status)

/-- Writes the session, merged with the previous file, to a sink. Nothing is
written before the previous file is read. -/
def save (settings : Settings) (occasion : Occasion) (session : Session) (previous : Option Stream)
    (sink : Sink) : Sink × Except Error SaveReport :=
  match session.merge settings occasion previous with
  | .error e => (sink, .error e)
  | .ok (merged, status) =>
    let writer : EntryWriter := { sink, maxBytes := settings.maxPayloadBytes }
    match writer.writeAll settings (merged.entries settings occasion session) with
    | (w, some e) => (w.sink, .error e)
    | (w, none) => (w.sink, .ok ⟨status, w.written, w.skipped + merged.skipped⟩)

end Session

end SessionStore
