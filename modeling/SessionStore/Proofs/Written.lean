import SessionStore.Proofs.ReadableOutput

/-! The entries that a save writes. -/
namespace SessionStore

namespace Session

/-- A save writes these entries, one frame for each, and nothing else. It
succeeds if the previous file can be read. -/
structure Writes (settings : Settings) (occasion : Occasion) (session : Session)
    (previous : Option Stream) (written : List Entry) : Prop where
  framed : ∀ entry ∈ written, entry.frame?.isSome = true
  saved : (session.save settings occasion previous {}).1 =
    { bytes := (written.filterMap Entry.frame?).flatMap Frame.encode }
  succeeds : (∀ file ∈ previous, file.IsReadable) →
    ∃ report, (session.save settings occasion previous {}).2 = .ok report ∧
    report.written = written.length

variable (settings : Settings) (occasion : Occasion) (session : Session) {previous : Option Stream}

end Session

end SessionStore
