/-
Json.Double -- numbers of double precision

A number of double precision is a sign, a mantissa of at most 53 bits and a power of
two.  A ratio of natural numbers is rounded to the nearest such number, a tie going
to the even mantissa (`roundRatio?`); beyond the largest one there is none.

A decimal number is read in two roundings: its digits, as far as they fit into 64
bits, become a double, which is then multiplied or divided by the double nearest to
the power of ten (`ofParts?`).  Below the range of those powers the division is done
in steps of 308.
-/

namespace Bindery.Json

/-- The value `mantissa * 2 ^ exponent`, with a sign that also zero has. -/
structure Double where
  negative : Bool
  mantissa : Nat
  exponent : Int
  deriving Repr, DecidableEq

namespace Double

def minExponent : Int := -1074

def maxExponent : Int := 971

abbrev Magnitude := Nat × Int

/-- The quotient of two natural numbers, rounded to the nearest, a tie to even. -/
def roundDiv (num den : Nat) : Nat :=
  let quotient := num / den
  let twice := 2 * (num % den)
  if twice < den then quotient
  else if den < twice then quotient + 1
  else if quotient % 2 = 0 then quotient else quotient + 1

/-- The two sides of the ratio `num / den` divided by `2 ^ exponent`. -/
def scaleDown (num den : Nat) (exponent : Int) : Nat × Nat :=
  if 0 ≤ exponent then (num, den * Nat.pow 2 exponent.toNat)
  else (num * Nat.pow 2 (-exponent).toNat, den)

/-- The exponent at which the ratio has 53 bits before the point, or the least
one. -/
def exponentOf (num den : Nat) : Int :=
  let guess : Int := (Nat.log2 num : Int) - (Nat.log2 den : Int) - 52
  let (top, bottom) := scaleDown num den guess
  let exact := if top < bottom * Nat.pow 2 52 then guess - 1 else guess
  max exact minExponent

def roundRatio? (num den : Nat) : Option Magnitude :=
  if num = 0 then some (0, minExponent)
  else
    let exponent := exponentOf num den
    let (top, bottom) := scaleDown num den exponent
    let rounded := roundDiv top bottom
    let (mantissa, exponent) :=
      if rounded = Nat.pow 2 53 then (Nat.pow 2 52, exponent + 1) else (rounded, exponent)
    if maxExponent < exponent then none else some (mantissa, exponent)

@[irreducible] def powerOfTen (power : Nat) : Magnitude :=
  (roundRatio? (Nat.pow 10 power) 1).getD (0, minExponent)

def mul? (left right : Magnitude) : Option Magnitude :=
  let (num, den) := scaleDown (left.1 * right.1) 1 (-(left.2 + right.2))
  roundRatio? num den

def div? (left right : Magnitude) : Option Magnitude :=
  let (num, den) := scaleDown left.1 right.1 (right.2 - left.2)
  roundRatio? num den

def farPower : Nat := 308

/-- Divide by the greatest power of ten a number of times; zero stays. -/
def divideFar? : Nat → Magnitude → Option Magnitude
  | 0, magnitude => some magnitude
  | steps + 1, magnitude =>
    if magnitude.1 = 0 then some magnitude
    else (div? magnitude (powerOfTen farPower)).bind (divideFar? steps)

/-- Scale a magnitude by a power of ten; a power below the range is taken in
steps. -/
def scaleByTen? (magnitude : Magnitude) (power : Int) : Option Magnitude :=
  if magnitude.1 = 0 then some magnitude
  else if farPower < power then none
  else if 0 ≤ power then mul? magnitude (powerOfTen power.toNat)
  else
    let places := (-power).toNat
    let steps := (places - 1) / farPower
    (divideFar? steps magnitude).bind (div? · (powerOfTen (places - steps * farPower)))

def ofParts? (negative : Bool) (digits : Nat) (power : Int) : Option Double :=
  ((roundRatio? digits 1).bind (scaleByTen? · power)).map fun (mantissa, exponent) =>
    ⟨negative, mantissa, exponent⟩

end Double

end Bindery.Json
