import SessionStore.Toml.Scalar
import SessionStore.Toml.Tree

/-! Reading a document line by line. -/
namespace SessionStore.Toml

def isBlank (c : Char) : Bool := c = ' ' || c = '\t'

def skipBlanks (input : List Char) : List Char := input.dropWhile isBlank

/-- A control character that may stand nowhere; line breaks are told apart before. -/
def isForbidden (c : Char) : Bool := (c.toNat < 0x20 && c ≠ '\t') || c.toNat = 0x7F

/-- What follows a line break in front of the input. -/
def afterBreak? : List Char → Option (List Char)
  | '\n' :: rest => some rest
  | '\r' :: '\n' :: rest => some rest
  | _ => none

/-- The line break or end of input behind the text of a comment. -/
def skipComment : List Char → Option (List Char)
  | [] => some []
  | '\n' :: rest => some ('\n' :: rest)
  | '\r' :: '\n' :: rest => some ('\r' :: '\n' :: rest)
  | c :: rest => if isForbidden c then none else skipComment rest

/-- What follows blanks, line breaks and comments. -/
def skipSpace (input : List Char) : Option (List Char) :=
  skip (input.length + 1) input
where
  skip : Nat → List Char → Option (List Char)
    | 0, _ => none
    | fuel + 1, input =>
      match skipBlanks input with
      | '#' :: rest => skipComment rest >>= skip fuel
      | rest =>
        match afterBreak? rest with
        | some rest => skip fuel rest
        | none => some rest

/-- The character with a code of so many hexadecimal digits. -/
def codePoint (count : Nat) (input : List Char) : Option (Char × List Char) := do
  let run := input.take count
  let values ← run.mapM (digitValue 16)
  let code := values.foldl (fun n digit => n * 16 + digit) 0
  if run.length = count ∧ code.isValidChar then some (Char.ofNat code, input.drop count) else none

/-- The character that a backslash and these characters stand for. -/
def escape : List Char → Option (Char × List Char)
  | 'b' :: rest => some ('\x08', rest)
  | 't' :: rest => some ('\t', rest)
  | 'n' :: rest => some ('\n', rest)
  | 'f' :: rest => some ('\x0c', rest)
  | 'r' :: rest => some ('\r', rest)
  | 'e' :: rest => some ('\x1b', rest)
  | '"' :: rest => some ('"', rest)
  | '\\' :: rest => some ('\\', rest)
  | 'x' :: rest => codePoint 2 rest
  | 'u' :: rest => codePoint 4 rest
  | 'U' :: rest => codePoint 8 rest
  | _ => none

/-- The rest of a text on one line, up to its quote. Only a text in double quotes has escapes. -/
def lineText (quote : Char) : Nat → List Char → List Char → Option (List Char × List Char)
  | 0, _, _ => none
  | _, _, [] => none
  | fuel + 1, done, c :: rest =>
    if c = quote then some (done.reverse, rest)
    else if c = '\\' ∧ quote = '"' then do
      let (c, rest) ← escape rest
      lineText quote fuel (c :: done) rest
    else if isForbidden c then none
    else lineText quote fuel (c :: done) rest

/-- What follows a backslash at the end of a line: the next thing that is no
blank and no line break. -/
def skipFolded : Nat → List Char → List Char
  | 0, input => input
  | fuel + 1, input =>
    match afterBreak? (skipBlanks input) with
    | some rest => skipFolded fuel rest
    | none => skipBlanks input

/-- The rest of a text over several lines, up to three of its quotes. One or two quotes
in front of these belong to the text, and line breaks stay as they are written. -/
def blockText (quote : Char) : Nat → List Char → List Char → Option (List Char × List Char)
  | 0, _, _ => none
  | _, _, [] => none
  | fuel + 1, done, c :: rest =>
    if c = quote then
      let count := ((c :: rest).takeWhile (· = quote)).length
      if count < 3 then blockText quote fuel (c :: done) rest
      else if count ≤ 5 then
        some ((List.replicate (count - 3) quote ++ done).reverse, (c :: rest).drop count)
      else none
    else if c = '\\' ∧ quote = '"' then
      match afterBreak? (skipBlanks rest) with
      | some rest => blockText quote fuel done (skipFolded rest.length rest)
      | none => do
        let (c, rest) ← escape rest
        blockText quote fuel (c :: done) rest
    else
      match c :: rest with
      | '\r' :: '\n' :: rest => blockText quote fuel ('\n' :: '\r' :: done) rest
      | _ => if isForbidden c ∧ c ≠ '\n' then none else blockText quote fuel (c :: done) rest

/-- A line break right behind the opening quotes is not part of the text. -/
def block (quote : Char) (input : List Char) : Option (List Char × List Char) :=
  blockText quote (input.length + 1) [] ((afterBreak? input).getD input)

/-- A text on one line or several, unless the input starts with no quote. -/
def text? : List Char → Option (Option (List Char × List Char))
  | '"' :: '"' :: '"' :: rest => some (block '"' rest)
  | '\'' :: '\'' :: '\'' :: rest => some (block '\'' rest)
  | '"' :: rest => some (lineText '"' (rest.length + 1) [] rest)
  | '\'' :: rest => some (lineText '\'' (rest.length + 1) [] rest)
  | _ => none

def isBareKeyChar (c : Char) : Bool := c.isAlphanum || c = '_' || c = '-'

/-- One part of a key. A quoted one stands on one line. -/
def keyPart (input : List Char) : Option (Key × List Char) :=
  match input with
  | '"' :: rest => lineText '"' (rest.length + 1) [] rest
  | '\'' :: rest => lineText '\'' (rest.length + 1) [] rest
  | _ =>
    let part := input.takeWhile isBareKeyChar
    if part.isEmpty then none else some (part, input.dropWhile isBareKeyChar)

/-- The parts of a key between dots, with blanks around them, and at most so many. -/
def keyPath : Nat → List Char → Option (List Key × List Char)
  | 0, _ => none
  | fuel + 1, input => do
    let (part, rest) ← keyPart (skipBlanks input)
    match skipBlanks rest with
    | '.' :: rest =>
      let (more, rest) ← keyPath fuel rest
      some (part :: more, rest)
    | rest => some ([part], rest)

/-- How deep arrays and tables within values may be nested, and how many parts a key may have. -/
def nestingLimit : Nat := 80

/-- A key, an equals sign and a value. The space between them is what `skip` skips. -/
def assignment (skip : List Char → Option (List Char))
    (value : List Char → Option (Value × List Char)) (input : List Char) :
    Option ((List Key × Value) × List Char) := do
  let (path, rest) ← keyPath nestingLimit input
  let '=' :: rest ← skip rest | none
  let (v, rest) ← value (← skip rest)
  some ((path, v), rest)

/-- Things between commas up to a closing bracket; the last comma may be followed by none. -/
def listed {α : Type} (item : List Char → Option (α × List Char)) (close : Char) :
    Nat → List α → List Char → Option (List α × List Char)
  | 0, _, _ => none
  | fuel + 1, done, input => do
    let input ← skipSpace input
    if input.head? = some close then some (done.reverse, input.tail)
    else
      let (a, rest) ← item input
      match ← skipSpace rest with
      | ',' :: rest => listed item close fuel (a :: done) rest
      | c :: rest => if c = close then some ((a :: done).reverse, rest) else none
      | [] => none

/-- A value, in which arrays and tables are nested at most `depth` deep. -/
def value (depth : Nat) (input : List Char) : Option (Value × List Char) :=
  match input with
  | '[' :: rest =>
    match depth with
    | 0 => none
    | depth + 1 => do
      let (items, rest) ← listed (value depth) ']' (rest.length + 1) [] rest
      some (.array items, rest)
  | '{' :: rest =>
    match depth with
    | 0 => none
    | depth + 1 => do
      let (lines, rest) ← listed (assignment skipSpace (value depth)) '}' (rest.length + 1) [] rest
      let entries ← lines.foldlM (fun entries (path, v) => Entries.assign v path entries) []
      some (.table (entriesToValues entries), rest)
  | _ =>
    match text? input with
    | some reading => do
      let (text, rest) ← reading
      some (.string text, rest)
    | none => do
      let (run, rest) := scalarRun input
      let v ← scalar run
      some (v, rest)
termination_by structural depth

/-- What a line says. -/
inductive Line where
  | blank
  | table (path : List Key)
  | tables (path : List Key)
  | assignment (path : List Key) (value : Value)

/-- What the line in front of the input says, without the comment at its end. -/
def line (input : List Char) : Option (Line × List Char) :=
  match input with
  | '[' :: '[' :: rest => do
    match ← keyPath nestingLimit rest with
    | (path, ']' :: ']' :: rest) => some (.tables path, rest)
    | _ => none
  | '[' :: rest => do
    match ← keyPath nestingLimit rest with
    | (path, ']' :: rest) => some (.table path, rest)
    | _ => none
  | [] => some (.blank, input)
  | c :: _ =>
    if c = '#' ∨ (afterBreak? input).isSome then some (.blank, input)
    else do
      let ((path, v), rest) ← assignment (some ∘ skipBlanks) (value nestingLimit) input
      some (.assignment path v, rest)

/-- What follows a line: blanks, a comment and a line break or the end. -/
def afterLine (input : List Char) : Option (List Char) := do
  let rest ← match skipBlanks input with
    | '#' :: rest => skipComment rest
    | rest => some rest
  match rest with
  | [] => some []
  | rest => afterBreak? rest

/-- A document being read: its tables, and the header under which lines stand. -/
structure Draft where
  entries : Entries := []
  header : List Key := []

def Draft.take (draft : Draft) : Line → Option Draft
  | .blank => some draft
  | .table path => (draft.entries.define path).map fun entries => ⟨entries, path⟩
  | .tables path => (draft.entries.append path).map fun entries => ⟨entries, path⟩
  | .assignment path v =>
    (draft.entries.within draft.header (·.assign v path)).map fun entries => { draft with entries }

def Draft.read : Nat → Draft → List Char → Option Draft
  | 0, _, _ => none
  | fuel + 1, draft, input => do
    let (line, rest) ← line (skipBlanks input)
    let draft ← draft.take line
    match ← afterLine rest with
    | [] => some draft
    | rest => draft.read fuel rest

/-- The table that a document describes. A byte order mark in front of it is
ignored, and the outermost table never stands for a date. -/
def read (document : List Char) : Option (List (Key × Value)) := do
  let input := if document.head? = some '\uFEFF' then document.tail else document
  let draft ← Draft.read (input.length + 1) {} input
  resolveEntries (entriesToValues draft.entries)

end SessionStore.Toml
