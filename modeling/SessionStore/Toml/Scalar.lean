import SessionStore.Toml.Value

/-! Numbers, truth values and dates, each a run of characters without blanks. -/
namespace SessionStore.Toml

-- Powers are those of numbers, whatever monoids are in scope.
attribute [local instance (high)] instPowNat

/-- The value of a digit. -/
def digitValue (base : Nat) (c : Char) : Option Nat :=
  let value :=
    if c.isDigit then c.toNat - 48
    else if 'a' ≤ c ∧ c ≤ 'f' then c.toNat - 87
    else if 'A' ≤ c ∧ c ≤ 'F' then c.toNat - 55
    else base
  if value < base then some value else none

/-- A run of digits with single underscores between them, behind a number already read. -/
def digitsFrom (base n : Nat) (afterDigit : Bool) : List Char → Option Nat
  | [] => if afterDigit then some n else none
  | c :: rest =>
    if c = '_' then if afterDigit then digitsFrom base n false rest else none
    else
      match digitValue base c with
      | some digit => digitsFrom base (n * base + digit) true rest
      | none => none

def digits (base : Nat) (run : List Char) : Option Nat := digitsFrom base 0 false run

/-- The sign in front of a run, true for minus, and the rest. -/
def splitSign : List Char → Bool × List Char
  | '+' :: rest => (false, rest)
  | '-' :: rest => (true, rest)
  | run => (false, run)

/-- Decimal digits do not start with a zero unless that is all. -/
def decimal (run : List Char) : Option Nat :=
  match run with
  | '0' :: _ :: _ => none
  | run => digits 10 run

/-- An integer. Only decimal ones have a sign. -/
def integer (run : List Char) : Option Int :=
  match run with
  | '0' :: 'x' :: rest => (digits 16 rest).map Int.ofNat
  | '0' :: 'o' :: rest => (digits 8 rest).map Int.ofNat
  | '0' :: 'b' :: rest => (digits 2 rest).map Int.ofNat
  | run =>
    let (isNegative, rest) := splitSign run
    (decimal rest).map fun n => if isNegative then -(n : Int) else n

/-- Whether a decimal number rounds to no finite one of 64 bits, which it does from half a
unit above the greatest on. The scale is the power of ten that the last digit counts. -/
def overflows (run : List Char) (scale : Int) : Bool :=
  let run := run.dropWhile (· = '0')
  let place := run.length + scale
  !run.isEmpty && (309 < place || (place = 309 &&
    (2 ^ (1024 : Nat) - 2 ^ (970 : Nat)) * 10 ^ (-scale).toNat ≤ valueOfDigits run *
    10 ^ scale.toNat))

/-- The exponent that a run gives; an empty one stands for zero. -/
def exponent : List Char → Option Int
  | [] => some 0
  | letter :: rest =>
    if letter = 'e' ∨ letter = 'E' then
      let (isNegative, rest) := splitSign rest
      (digits 10 rest).map fun n => if isNegative then -(n : Int) else n
    else none

/-- The digits of a number with a fraction, an exponent or both, and its scale. -/
def float (run : List Char) : Option (List Char × Int) := do
  let isPart c := c.isDigit || c = '_'
  let unsigned := (splitSign run).2
  let whole := unsigned.takeWhile isPart
  let _ ← decimal whole
  match unsigned.dropWhile isPart with
  | [] => none
  | '.' :: rest =>
    let fraction := rest.takeWhile isPart
    let _ ← digits 10 fraction
    let e ← exponent (rest.dropWhile isPart)
    let fraction := fraction.filter Char.isDigit
    some (whole.filter Char.isDigit ++ fraction, e - fraction.length)
  | rest => (exponent rest).map fun e => (whole.filter Char.isDigit, e)

def scalar (run : List Char) : Option Value :=
  if run = ['t', 'r', 'u', 'e'] then some (.boolean true)
  else if run = ['f', 'a', 'l', 's', 'e'] then some (.boolean false)
  else if [['i', 'n', 'f'], ['n', 'a', 'n']].contains (splitSign run).2 then some .float
  else
    match integer run with
    | some n =>
      some (if -9223372036854775808 ≤ n ∧ n < 9223372036854775808 then .integer n else .tooLarge)
    | none =>
      match float run with
      | some (run, scale) => some (if overflows run scale then .tooLarge else .float)
      | none => (DateTime.read run).map .dateTime

/-- The characters of a scalar. -/
def isScalarChar (c : Char) : Bool :=
  c.isAlphanum || ['+', '-', '_', '.', ':'].contains c

/-- The run of a scalar in front of the input. A blank belongs to it where it
stands between a date and a digit. -/
def scalarRun (input : List Char) : List Char × List Char :=
  let run := input.takeWhile isScalarChar
  let rest := input.dropWhile isScalarChar
  match rest with
  | ' ' :: c :: _ =>
    if c.isDigit && (readDate run).any (·.2.isEmpty) then
      (run ++ ' ' :: rest.tail.takeWhile isScalarChar, rest.tail.dropWhile isScalarChar)
    else (run, rest)
  | _ => (run, rest)

end SessionStore.Toml
