/-! Seconds since 1970 as a date and a time of day in UTC. -/
namespace SessionStore

/-- A day of the proleptic Gregorian calendar. -/
structure Date where
  year : Nat
  month : Nat
  day : Nat
  deriving DecidableEq, Repr

namespace Date

/-- The date of a day counted from 1970-01-01. Years run from March here, in
eras of 400 years, so that the leap day comes last. -/
def ofDays (days : Nat) : Date :=
  let shifted := days + 719468
  let era := shifted / 146097
  let dayOfEra := shifted % 146097
  let yearOfEra := (dayOfEra - dayOfEra / 1460 + dayOfEra / 36524 - dayOfEra / 146096) / 365
  let dayOfYear := dayOfEra - (365 * yearOfEra + yearOfEra / 4 - yearOfEra / 100)
  let monthFromMarch := (5 * dayOfYear + 2) / 153
  let month := if monthFromMarch < 10 then monthFromMarch + 3 else monthFromMarch - 9
  { year := yearOfEra + era * 400 + if month ≤ 2 then 1 else 0
    month
    day := dayOfYear - (153 * monthFromMarch + 2) / 5 + 1 }

end Date

namespace Calendar

/-- The decimal digits of a number, led by zeros up to a width. -/
def padded (width n : Nat) : String :=
  let digits := Nat.toDigits 10 n
  String.ofList (List.replicate (width - digits.length) '0' ++ digits)

/-- The last second of the year 262142, the end of the calendar. -/
def lastSecond : Nat := 8210266876799

/-- A time as date and time of day; years of more than four digits carry a sign,
and a time beyond the calendar stays a number. -/
def timeText (seconds : Nat) : String :=
  if lastSecond < seconds then toString seconds
  else
    let date := Date.ofDays (seconds / 86400)
    let second := seconds % 86400
    let year := if 9999 < date.year then "+" ++ toString date.year else padded 4 date.year
    year ++ "-" ++ padded 2 date.month ++ "-" ++ padded 2 date.day ++ " " ++
      padded 2 (second / 3600) ++ ":" ++ padded 2 (second / 60 % 60) ++ ":" ++
      padded 2 (second % 60)

end Calendar

end SessionStore
