import SessionStore.Calendar

/-! Dates and times of day as documents write them. -/
namespace SessionStore.Toml

/-- A time of day. There is a second 60 for leap seconds. -/
structure TimeOfDay where
  hour : Nat
  minute : Nat
  second : Nat
  nanosecond : Nat
  deriving DecidableEq, Repr

/-- How far a time of day is from UTC. -/
inductive Offset where
  | utc
  | minutes (m : Int)
  deriving DecidableEq, Repr

inductive DateTime where
  | day (date : Date)
  | clock (time : TimeOfDay)
  | moment (date : Date) (time : TimeOfDay) (offset : Option Offset)
  deriving DecidableEq, Repr

/-- The value of a run of decimal digits. -/
def valueOfDigits (run : List Char) : Nat := run.foldl (fun n c => n * 10 + (c.toNat - 48)) 0

/-- A number of exactly two digits, at most `limit`, and what follows. -/
def twoDigits (limit : Nat) : List Char → Option (Nat × List Char)
  | a :: b :: rest =>
    if a.isDigit && b.isDigit && valueOfDigits [a, b] ≤ limit then some (valueOfDigits [a, b], rest)
    else none
  | _ => none

def daysIn (year month : Nat) : Nat :=
  if month = 2 then
    if year % 4 = 0 ∧ (year % 100 ≠ 0 ∨ year % 400 = 0) then 29 else 28
  else if [4, 6, 9, 11].contains month then 30
  else 31

/-- A day of the calendar in front of a text, and what follows. -/
def readDate (input : List Char) : Option (Date × List Char) := do
  let (century, rest) ← twoDigits 99 input
  let (yearOfCentury, rest) ← twoDigits 99 rest
  let year := century * 100 + yearOfCentury
  let '-' :: rest := rest | none
  let (month, rest) ← twoDigits 12 rest
  let '-' :: rest := rest | none
  let (day, rest) ← twoDigits (daysIn year month) rest
  if month = 0 ∨ day = 0 then none else some (⟨year, month, day⟩, rest)

/-- The nanoseconds of a fraction of a second. Digits behind the ninth do not count. -/
def nanoseconds (fraction : List Char) : Nat :=
  valueOfDigits ((fraction ++ List.replicate 9 '0').take 9)

/-- A time of day in front of a text, and what follows. The seconds may be missing. -/
def readTime (input : List Char) : Option (TimeOfDay × List Char) := do
  let (hour, rest) ← twoDigits 23 input
  let ':' :: rest := rest | none
  let (minute, rest) ← twoDigits 59 rest
  let ':' :: rest := rest | some (⟨hour, minute, 0, 0⟩, rest)
  let (second, rest) ← twoDigits 60 rest
  let '.' :: rest := rest | some (⟨hour, minute, second, 0⟩, rest)
  let fraction := rest.takeWhile Char.isDigit
  if fraction.isEmpty then none
  else some (⟨hour, minute, second, nanoseconds fraction⟩, rest.dropWhile Char.isDigit)

/-- The offset that a whole text gives. -/
def readOffset : List Char → Option Offset
  | ['Z'] | ['z'] => some .utc
  | sign :: rest => do
    if sign ≠ '+' ∧ sign ≠ '-' then none
    let (hours, rest) ← twoDigits 23 rest
    let ':' :: rest := rest | none
    let (minutes, []) ← twoDigits 59 rest | none
    let distance : Int := hours * 60 + minutes
    some (.minutes (if sign = '-' then -distance else distance))
  | [] => none

namespace DateTime

/-- The date, the time of day or both that a whole text gives. Only both
together may have an offset. -/
def read (input : List Char) : Option DateTime :=
  match readDate input with
  | some (date, []) => some (.day date)
  | some (date, separator :: rest) => do
    if ¬['T', 't', ' '].contains separator then none
    match ← readTime rest with
    | (time, []) => some (.moment date time none)
    | (time, rest) => (readOffset rest).map fun offset => .moment date time (some offset)
  | none =>
    match readTime input with
    | some (time, []) => some (.clock time)
    | _ => none

end DateTime

open Calendar (padded)

def dateText (date : Date) : String :=
  padded 4 date.year ++ "-" ++ padded 2 date.month ++ "-" ++ padded 2 date.day

/-- A time of day with its seconds; the fraction ends with its last digit that is no zero. -/
def TimeOfDay.text (t : TimeOfDay) : String :=
  padded 2 t.hour ++ ":" ++ padded 2 t.minute ++ ":" ++ padded 2 t.second ++
    if t.nanosecond = 0 then ""
    else "." ++ String.ofList ((padded 9 t.nanosecond).toList.reverse.dropWhile (· = '0')).reverse

/-- An offset of zero minutes has a plus. -/
def Offset.text : Offset → String
  | .utc => "Z"
  | .minutes m =>
    (if m < 0 then "-" else "+") ++ padded 2 (m.natAbs / 60) ++ ":" ++ padded 2 (m.natAbs % 60)

def DateTime.text : DateTime → String
  | .day date => dateText date
  | .clock time => time.text
  | .moment date time offset =>
    dateText date ++ "T" ++ time.text ++ (offset.map Offset.text).getD ""

end SessionStore.Toml
