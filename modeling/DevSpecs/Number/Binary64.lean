import DevSpecs.Text.Basic

/-!
# Binary floating-point numbers

A finite number is `± significand · 2 ^ exponent`, with fewer than 54 bits in
the significand.  Decimals are rounded to the nearest number, ties to the even
significand.  In the other direction a number is written with the fewest digits
that are rounded back to it, and among those with the nearest ones.

All arithmetic is exact: between two neighbouring numbers everything is a ratio
of natural numbers.
-/

namespace DevSpecs

/-- A binary floating-point number of 64 bits. -/
inductive Binary64 where
  | nan
  | infinite (negative : Bool)
  | finite (negative : Bool) (significand : Nat) (exponent : Int)
  deriving DecidableEq, Repr

namespace Binary64

/-- The exponent of the numbers nearest to zero. -/
def leastExponent : Int := -1074

/-- The exponent of the greatest finite numbers. -/
def greatestExponent : Int := 971

/-- The least significand that needs all 53 bits. -/
def fullSignificand : Nat := Nat.pow 2 52

def zero (negative : Bool) : Binary64 :=
  finite negative 0 leastExponent

/-- Equality of numbers: both zeros are the same number, and there is one value
that is not a number. -/
def same : Binary64 → Binary64 → Bool
  | finite _ 0 _, finite _ 0 _ => true
  | x, y => x = y

/-! ## Rounding a decimal -/

/-- `num / den` rounded to the nearest natural number, ties to the even one. -/
def roundQuotient (num den : Nat) : Nat :=
  let quotient := num / den
  let twice := 2 * (num % den)
  if twice < den || (twice == den && quotient % 2 == 0) then quotient else quotient + 1

/-- The ratio `num / den` in units of `2 ^ exponent`. -/
def inUnits (num den : Nat) (exponent : Int) : Nat × Nat :=
  if exponent < 0 then (num <<< (-exponent).toNat, den) else (num, den <<< exponent.toNat)

/-- The exponent for which a positive ratio has a significand of 53 bits, or the
least exponent when that is greater. -/
def exponentOf (num den : Nat) : Int :=
  let guess : Int := (Nat.log2 num : Int) - Nat.log2 den - 52
  let (scaled, unit) := inUnits num den guess
  max leastExponent (if scaled < fullSignificand * unit then guess - 1 else guess)

/-- The number nearest to `± num / den`. -/
def ofRatio (negative : Bool) (num den : Nat) : Binary64 :=
  if num = 0 then
    zero negative
  else
    let exponent := exponentOf num den
    let (scaled, unit) := inUnits num den exponent
    let significand := roundQuotient scaled unit
    let (significand, exponent) :=
      if significand = 2 * fullSignificand then (fullSignificand, exponent + 1)
      else (significand, exponent)
    if exponent > greatestExponent then infinite negative
    else finite negative significand exponent

/-- The number nearest to `± digits · 10 ^ exponent`.  Decimals that are far out
of range are decided by their magnitude alone. -/
def ofDecimal (negative : Bool) (digits : Nat) (exponent : Int) : Binary64 :=
  let magnitude := exponent + (Nat.toDigits 10 digits).length
  if digits = 0 || magnitude < -330 then zero negative
  else if magnitude > 310 then infinite negative
  else if exponent < 0 then ofRatio negative digits (Nat.pow 10 (-exponent).toNat)
  else ofRatio negative (digits * Nat.pow 10 exponent.toNat) 1

/-! ## The shortest decimal -/

/-- The decimals `x · 10 ^ place` that are rounded to a number, in quarters of a
unit in which the number itself is a whole number. -/
structure Rounded where
  value : Nat
  low : Nat
  high : Nat
  /-- Whether `low` and `high` are rounded to the number as well. -/
  closed : Bool

namespace Rounded

def contains (r : Rounded) (x : Nat) : Bool :=
  if r.closed then r.low ≤ x && x ≤ r.high else r.low < x && x < r.high

/-- The multiple of `10 ^ place` that lies within and is nearest to the value;
of two equally near ones the even. -/
def nearest? (r : Rounded) (place : Nat) : Option Nat :=
  let step := 4 * Nat.pow 10 place
  let below := r.value / step
  match r.contains (below * step), r.contains ((below + 1) * step) with
  | true, true => some (roundQuotient r.value step)
  | true, false => some below
  | false, true => some (below + 1)
  | false, false => none

/-- The multiple with the greatest place not above `place`, and its place.  Place
zero always has one: the value itself. -/
def shortest (r : Rounded) : Nat → Nat × Nat
  | 0 => ((r.nearest? 0).getD (r.value / 4), 0)
  | place + 1 =>
    match r.nearest? (place + 1) with
    | some x => (x, place + 1)
    | none => r.shortest place

end Rounded

/-- The shortest decimal of `significand · 2 ^ exponent`: its digits as a natural
number, and the power of ten of the last one. -/
def shortestDecimal (significand : Nat) (exponent : Int) : Nat × Int :=
  let places := (-exponent).toNat
  let unit := if exponent < 0 then Nat.pow 5 places else Nat.pow 2 exponent.toNat
  let gap := if significand = fullSignificand && exponent > leastExponent then 1 else 2
  let rounded : Rounded :=
    { value := 4 * significand * unit
      low := (4 * significand - gap) * unit
      high := (4 * significand + 2) * unit
      closed := significand % 2 = 0 }
  let (digits, place) := rounded.shortest (Nat.toDigits 10 (significand * unit)).length
  (digits, (place : Int) - places)

/-- The digits without zeros at the end, and the position of the decimal point
counted from their start. -/
def decimalDigits (significand : Nat) (exponent : Int) : Text × Int :=
  let (digits, place) := shortestDecimal significand exponent
  let written := Nat.toDigits 10 digits
  ((written.reverse.dropWhile (· == '0')).reverse, place + written.length)

end Binary64

end DevSpecs
