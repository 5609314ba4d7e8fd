/-! The fewest decimal digits that read back as a given binary floating-point number. -/
namespace SessionStore.Decimal

-- Powers are those of numbers, whatever monoids are in scope.
attribute [local instance (high)] instPowNat

/-- The field widths of a binary interchange format. -/
structure BinaryFormat where
  fraction : Nat
  exponent : Nat

def binary32 : BinaryFormat := ⟨23, 8⟩
def binary64 : BinaryFormat := ⟨52, 11⟩

/-- The positive number `significand * 2 ^ exponent`; `lowestOfBinade` when the
next number below is nearer than the next above. -/
structure Dyadic where
  significand : Nat
  exponent : Int
  lowestOfBinade : Bool

/-- What the bits of a floating-point number stand for, the sign apart. -/
inductive Magnitude where
  | nan
  | infinite
  | zero
  | finite (value : Dyadic)

def BinaryFormat.isNegative (f : BinaryFormat) (bits : Nat) : Bool :=
  bits / 2 ^ (f.fraction + f.exponent) % 2 = 1

/-- Subnormal numbers share the exponent of the smallest normal ones. -/
def BinaryFormat.magnitude (f : BinaryFormat) (bits : Nat) : Magnitude :=
  let fraction := bits % 2 ^ f.fraction
  let biased := bits / 2 ^ f.fraction % 2 ^ f.exponent
  let least : Int := 2 - 2 ^ (f.exponent - 1) - f.fraction
  if biased = 2 ^ f.exponent - 1 then if fraction = 0 then .infinite else .nan
  else if biased = 0 then
    if fraction = 0 then .zero else .finite ⟨fraction, least, false⟩
  else .finite ⟨2 ^ f.fraction + fraction, least + (biased - 1), fraction = 0 ∧ 1 < biased⟩

/-- The decimal number `digits * 10 ^ exponent`. -/
structure Scaled where
  digits : Nat
  exponent : Int

/-- A positive number as a fraction. -/
structure Ratio where
  num : Nat
  den : Nat

namespace Ratio

def scale (base : Nat) (r : Ratio) (exponent : Int) : Ratio :=
  if 0 ≤ exponent then ⟨r.num * base ^ exponent.toNat, r.den⟩
  else ⟨r.num, r.den * base ^ (-exponent).toNat⟩

/-- The `e` with `10 ^ e ≤ r < 10 ^ (e + 1)`. -/
def decimalExponent (r : Ratio) : Int :=
  if r.den ≤ r.num then (Nat.toDigits 10 (r.num / r.den)).length - 1
  else
    let bound := (r.den + r.num - 1) / r.num
    .negOfNat (Nat.toDigits 10 (bound - 1)).length

def lt (a b : Ratio) : Bool := a.num * b.den < b.num * a.den

end Ratio

/-- The numbers that round to a given one: those between the midpoints with its
neighbours, the midpoints included when its significand is even. -/
structure RoundingInterval where
  value : Ratio
  low : Ratio
  high : Ratio
  closed : Bool

def Dyadic.interval (d : Dyadic) : RoundingInterval :=
  let quarters (n : Nat) : Ratio := Ratio.scale 2 ⟨n, 1⟩ (d.exponent - 2)
  { value := quarters (4 * d.significand)
    low := quarters (4 * d.significand - if d.lowestOfBinade then 1 else 2)
    high := quarters (4 * d.significand + 2)
    closed := d.significand % 2 = 0 }

def RoundingInterval.contains (i : RoundingInterval) (r : Ratio) : Bool :=
  if i.closed then !r.lt i.low && !i.high.lt r else i.low.lt r && r.lt i.high

/-- The point of the grid of multiples of `10 ^ exponent` inside the interval
that is nearest to its value, the upper one on a tie. -/
def RoundingInterval.nearestOnGrid (i : RoundingInterval) (exponent : Int) : Option Scaled :=
  let scaled := i.value.scale 10 (-exponent)
  let below := scaled.num / scaled.den
  let inside (n : Nat) : Bool := i.contains (Ratio.scale 10 ⟨n, 1⟩ exponent)
  let upperIsNearer : Bool := scaled.den ≤ 2 * (scaled.num % scaled.den)
  match inside below, inside (below + 1) with
  | false, false => none
  | true, false => some ⟨below, exponent⟩
  | false, true => some ⟨below + 1, exponent⟩
  | true, true => some ⟨if upperIsNearer then below + 1 else below, exponent⟩

/-- Tries grids from one digit on; the last grid tried is taken as it is. -/
def RoundingInterval.firstOnGrids (i : RoundingInterval) : Nat → Int → Scaled
  | 0, exponent => (i.nearestOnGrid exponent).getD ⟨0, 0⟩
  | tries + 1, exponent =>
    match i.nearestOnGrid exponent with
    | some found => found
    | none => i.firstOnGrids tries (exponent - 1)

/-- Seventeen digits tell any two numbers of 64 bits apart, and one more grid
leaves room for a carry. -/
def Dyadic.shortest (d : Dyadic) : Scaled :=
  let interval := d.interval
  interval.firstOnGrids 18 interval.value.decimalExponent

/-- A positive decimal number written without exponent and without needless zeros. -/
def Scaled.toText (s : Scaled) : List Char :=
  let digits := Nat.toDigits 10 s.digits
  let significant := (digits.reverse.dropWhile (· = '0')).reverse
  let exponent := s.exponent + (digits.length - significant.length : Nat)
  if 0 ≤ exponent then significant ++ List.replicate exponent.toNat '0'
  else
    let places := (-exponent).toNat
    if places < significant.length then
      significant.take (significant.length - places) ++ '.' ::
        significant.drop (significant.length - places)
    else '0' :: '.' :: List.replicate (places - significant.length) '0' ++ significant

/-- The text of a floating-point number: its shortest digits, never an exponent,
and a sign also before zero. -/
def BinaryFormat.toText (f : BinaryFormat) (bits : Nat) : String :=
  let sign := if f.isNegative bits then "-" else ""
  match f.magnitude bits with
  | .nan => "NaN"
  | .infinite => sign ++ "inf"
  | .zero => sign ++ "0"
  | .finite value => sign ++ String.ofList value.shortest.toText

end SessionStore.Decimal
