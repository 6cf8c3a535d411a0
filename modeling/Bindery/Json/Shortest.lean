/-
Json.Shortest -- the fewest digits that read back

A double is printed with the fewest decimal digits that are nearer to it than to any
other double, and of the numbers with so few digits the nearest one.  The reals that
round to a double form an interval, whose ends belong to it when the mantissa is
even (`Interval`).  For one, two, up to seventeen digits the two neighbours of the
value on that decimal grid are tested; the first grid with a hit gives the digits.
-/
import Bindery.Json.Double

namespace Bindery.Json

/-- A value with the interval of the reals that round to it; all three are
numerators over `den`. -/
structure Interval where
  low : Nat
  value : Nat
  high : Nat
  den : Nat
  /-- the ends belong to the interval -/
  closed : Bool

/-- The interval of a positive double.  Below a power of two the spacing is half as
wide. -/
def Interval.ofDouble (double : Double) : Interval :=
  let up := Nat.pow 2 double.exponent.toNat
  let down := Nat.pow 2 (-double.exponent).toNat
  let below :=
    if double.mantissa = Nat.pow 2 52 ∧ Double.minExponent < double.exponent then 1 else 2
  { low := (4 * double.mantissa - below) * up
    value := 4 * double.mantissa * up
    high := (4 * double.mantissa + 2) * up
    den := 4 * down
    closed := double.mantissa % 2 == 0 }

/-- Whether the ratio `num / den` lies in the interval. -/
def Interval.contains (interval : Interval) (num den : Nat) : Bool :=
  if interval.closed then
    decide (interval.low * den ≤ num * interval.den) &&
      decide (num * interval.den ≤ interval.high * den)
  else
    decide (interval.low * den < num * interval.den) &&
      decide (num * interval.den < interval.high * den)

/-- A decimal number: digits times a power of ten. -/
structure Decimal where
  digits : Nat
  power : Int
  deriving Repr, DecidableEq

def digitCount (n : Nat) : Nat :=
  (Nat.toDigits 10 n).length

/-- The number `d` with `10 ^ (d - 1) ≤ value < 10 ^ d`. -/
def Interval.magnitude (interval : Interval) : Int :=
  if interval.den ≤ interval.value then digitCount (interval.value / interval.den)
  else
    let count := digitCount (interval.den / interval.value)
    if interval.den = interval.value * Nat.pow 10 (count - 1) then 2 - count else 1 - count

/-- The decimal grid point `digits * 10 ^ power` as a ratio. -/
def Decimal.ratio (decimal : Decimal) : Nat × Nat :=
  (decimal.digits * Nat.pow 10 decimal.power.toNat, Nat.pow 10 (-decimal.power).toNat)

def Interval.holds (interval : Interval) (decimal : Decimal) : Bool :=
  interval.contains decimal.ratio.1 decimal.ratio.2

/-- The digits on the grid of the given power of ten that are next to the value:
those below or at it, those above it, and whether the upper ones are nearer. -/
def Interval.neighbours (interval : Interval) (power : Int) : Nat × Nat × Bool :=
  let num := interval.value * Nat.pow 10 (-power).toNat
  let den := interval.den * Nat.pow 10 power.toNat
  let lower := num / den
  let twice := 2 * (num % den)
  (lower, lower + 1, decide (den < twice) || (decide (twice = den) && lower % 2 == 1))

def Interval.pick? (interval : Interval) (power : Int) : Option Decimal :=
  let (lower, upper, upperNearer) := interval.neighbours power
  let below : Decimal := ⟨lower, power⟩
  let above : Decimal := ⟨upper, power⟩
  let lowerHolds := interval.holds below && lower != 0
  let upperHolds := interval.holds above
  if lowerHolds && upperHolds then some (if upperNearer then above else below)
  else if lowerHolds then some below
  else if upperHolds then some above
  else none

def Decimal.trim : Nat → Decimal → Decimal
  | 0, decimal => decimal
  | fuel + 1, decimal =>
    if decimal.digits ≠ 0 ∧ decimal.digits % 10 = 0 then
      Decimal.trim fuel ⟨decimal.digits / 10, decimal.power + 1⟩
    else decimal

def shortest (double : Double) : Decimal :=
  let interval := Interval.ofDouble double
  let magnitude := interval.magnitude
  let found := (List.range 17).findSome? fun count =>
    interval.pick? (magnitude - (count + 1 : Nat))
  Decimal.trim 20 (found.getD ⟨0, 0⟩)

end Bindery.Json
