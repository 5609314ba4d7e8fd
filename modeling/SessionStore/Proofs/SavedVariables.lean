import SessionStore.Proofs.Collection.FirstOfEach
import SessionStore.Proofs.Merging
import SessionStore.Proofs.Written

/-! Which variables a save writes: those of the session, and of the previous
file those that the session does not have. -/
namespace SessionStore

open Merge (entriesOf)

def Entry.variable? (entry : Entry) : Option (Timed Variable) :=
  match entry.content with
  | .variable v => some ⟨entry.timestamp, v⟩
  | _ => none

def Stream.variables (s : Stream) : List (Timed Variable) := s.entries.filterMap Entry.variable?

namespace Session

variable {settings : Settings} (occasion : Occasion) (session : Session)

end Session

end SessionStore
