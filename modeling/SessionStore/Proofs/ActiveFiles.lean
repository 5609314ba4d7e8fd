import SessionStore.Proofs.Collection.MarksByFile
import SessionStore.Proofs.NormalForm
import SessionStore.Proofs.RestoredLists
import SessionStore.Proofs.RestoredValues

/-! Which files keep their local marks and changes, and what each of them keeps. -/
namespace SessionStore

open Merge (entriesOf)
open Recency (FirstNewest facts)

namespace FileMarks

variable {f : FileMarks} {file : Path} {entries : List Entry}

def put (f : FileMarks) (entry : Entry) : FileMarks :=
  match entry.content with
  | .localMark mark => (f.insertMark ⟨entry.timestamp, mark⟩).1
  | .change change => (f.insertChange ⟨entry.timestamp, change⟩).1
  | _ => f

end FileMarks

/-- A file that is seen, and the local marks and changes that are seen of it at one time. -/
structure Sighting where
  file : Path
  entries : List Entry

/-- The files of a session that may be kept, in the order of their paths, each
with all that the session has of it. -/
def Session.sightings (settings : Settings) (session : Session) : List Sighting :=
  (session.files.entries.filter fun file => !settings.isRemovable file.1).map fun file =>
    ⟨file.1, entriesOf .localMark file.2.marks.values ++ entriesOf .change file.2.changes⟩

/-- A local mark or a change shows the file that it is in, if that may be kept. -/
def Entry.sighting? (settings : Settings) (entry : Entry) : Option Sighting :=
  match entry.content with
  | .localMark mark | .change mark =>
    if settings.isRemovable mark.file then none else some ⟨mark.file, [entry]⟩
  | _ => none

/-- All files that a merge sees, first those of the session and then those of
the stream, in its order. -/
def Session.seen (settings : Settings) (session : Session) (stream : Stream) : List Sighting :=
  session.sightings settings ++ stream.entries.filterMap (Entry.sighting? settings)

namespace Sighting

/-- The different files, in first-seen order and as they were spelled then. -/
def files (seen : List Sighting) : List Path := (seen.map file).eraseDups

end Sighting

namespace FileMarksMap

end FileMarksMap

namespace Merge

variable {settings : Settings} (hm : 0 < settings.markedFiles)
include hm

end Merge

namespace Session

variable {settings : Settings} {session : Session}

end Session

namespace Session

variable {settings : Settings} {session : Session}

end Session

end SessionStore
