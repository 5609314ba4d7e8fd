import SessionStore.Calendar
import SessionStore.Entry
import SessionStore.Msgpack.Display

/-! The line that tells an entry. -/
namespace SessionStore

/-- A place in a file. -/
def placeText (file : Path) (lnum col : UInt64) : String :=
  file.display ++ ":" ++ toString lnum ++ ":" ++ toString col

def Mark.placeText (mark : Mark) : String := SessionStore.placeText mark.file mark.lnum mark.col

def Buffer.placeText (buffer : Buffer) : String :=
  SessionStore.placeText buffer.file buffer.lnum buffer.col

/-- A mark of its own name, behind a single quote. -/
def Mark.namedText (mark : Mark) : String := "'" ++ mark.name.toString ++ " " ++ mark.placeText

/-- What an entry says, without its time and kind. -/
def Content.text : Content → String
  | .header h =>
    String.intercalate " " (h.fields.map fun (key, v) => key.display ++ "=" ++ v.display)
  | .searchPattern p =>
    (if p.isSubstitute then "substitute " else "search ") ++ Utf8.lossy p.pattern
  | .replacement r => Utf8.lossy r.text
  | .history item => item.type.name ++ " " ++ Utf8.lossy item.text
  | .register r =>
    "\"" ++ r.name.toString ++ " " ++ r.type.name ++ " " ++ toString r.contents.length ++ " lines"
  | .variable v => Utf8.lossy v.name ++ " = " ++ v.value.display
  | .globalMark mark | .localMark mark => mark.namedText
  | .jump mark | .change mark => mark.placeText
  | .bufferList buffers => String.intercalate " " (buffers.map Buffer.placeText)
  | .unknown id payload => "kind " ++ toString id ++ ", " ++ toString payload.length ++ " bytes"

/-- The line of an entry. Text inside is shown as it is, even when it breaks lines. -/
def Entry.line (entry : Entry) : String :=
  Calendar.timeText entry.timestamp.toNat ++ " " ++ entry.kind.name ++ ": " ++ entry.content.text

end SessionStore
