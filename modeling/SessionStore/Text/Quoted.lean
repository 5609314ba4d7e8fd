import SessionStore.Text.Combining
import SessionStore.Text.Printable

/-! Quoted text: one line, every character visible. -/
namespace SessionStore.Text

/-- The braced hexadecimal form of a character without one of its own. -/
def escapeCode (c : Char) : List Char :=
  ['\\', 'u', '{'] ++ Nat.toDigits 16 c.toNat ++ ['}']

/-- Quotes, backslashes and line breaks have short forms; what does not print by
itself has a code. -/
def escape (c : Char) : List Char :=
  if c = '\x00' then ['\\', '0']
  else if c = '\t' then ['\\', 't']
  else if c = '\r' then ['\\', 'r']
  else if c = '\n' then ['\\', 'n']
  else if c = '"' ∨ c = '\\' then ['\\', c]
  else if isCombining c || !isPrintable c then escapeCode c
  else [c]

/-- A text between double quotes. -/
def quote (text : List Char) : String :=
  String.ofList ('"' :: text.flatMap escape ++ ['"'])

end SessionStore.Text
