import Columnar.Binary.Format

/-!
# Shortest decimals

The shortest decimal of a finite positive value is the decimal with the fewest
digits that rounds back to it.  The decimals that round back fill the interval
between the two midpoints with the neighbouring values, ends included exactly
when the pattern is even.  On each decimal grid, from one digit upwards, only the
two grid points around the value can be nearest, so the first grid on which one
of them lies in the interval gives the digits.  Of two points the nearer one is
taken, and of two equally near ones the larger.
-/

namespace Columnar

/-- The positive number `coefficient * 10 ^ exponent`. -/
structure Decimal where
  coefficient : Nat
  exponent : Int
  deriving DecidableEq

/-- A positive rational and the interval of numbers that round to it, all over
one denominator. -/
structure RoundingInterval where
  lower : Nat
  value : Nat
  upper : Nat
  denominator : Nat
  /-- Whether the two ends round to the value as well. -/
  closed : Bool

namespace RoundingInterval

/-- The interval of the positive magnitude `m` of format `f`. -/
def ofMagnitude (f : Format) (m : Nat) : RoundingInterval where
  lower := f.units m + f.units (m - 1)
  value := 2 * f.units m
  upper := f.units m + f.units (m + 1)
  denominator := 2 ^ (f.scale + 1)
  closed := m % 2 = 0

/-- Whether `coefficient * 10 ^ exponent` rounds to the value. -/
def contains (i : RoundingInterval) (coefficient : Nat) (exponent : Int) : Bool :=
  let point := coefficient * 10 ^ exponent.toNat * i.denominator
  let lower := i.lower * 10 ^ (-exponent).toNat
  let upper := i.upper * 10 ^ (-exponent).toNat
  if i.closed then lower ≤ point && point ≤ upper
  else lower < point && point < upper

/-- The largest multiple of `10 ^ exponent` that the value reaches. -/
def floorAt (i : RoundingInterval) (exponent : Int) : Nat :=
  i.value * 10 ^ (-exponent).toNat / (i.denominator * 10 ^ exponent.toNat)

/-- Whether the value lies strictly nearer to `coefficient * 10 ^ exponent` than
to the next grid point, given that it lies between the two. -/
def nearerBelow (i : RoundingInterval) (coefficient : Nat) (exponent : Int) : Bool :=
  let step := i.denominator * 10 ^ exponent.toNat
  2 * (i.value * 10 ^ (-exponent).toNat - coefficient * step) < step

/-- The grid point next to the value that rounds to it, if there is one. -/
def onGrid? (i : RoundingInterval) (exponent : Int) : Option Decimal :=
  let below := i.floorAt exponent
  let above := below + 1
  match i.contains below exponent, i.contains above exponent with
  | true, true =>
      some ⟨if i.nearerBelow below exponent then below else above, exponent⟩
  | true, false => some ⟨below, exponent⟩
  | false, true => some ⟨above, exponent⟩
  | false, false => none

/-- The exponent `p` with `10 ^ (p - 1) ≤ value < 10 ^ p`.  Scaling by
`10 ^ places` makes the value a number with a whole part. -/
def leadingExponent (i : RoundingInterval) : Int :=
  let places := Nat.log2 i.denominator / 3 + 1
  let whole := i.value * 10 ^ places / i.denominator
  ((Nat.toDigits 10 whole).length : Int) - places

end RoundingInterval

/-- Digits that are enough to tell any two values of the formats apart. -/
def maxDigits : Nat := 17

/-- The shortest decimal that rounds to the positive magnitude `m` of `f`. -/
def Decimal.shortest (f : Format) (m : Nat) : Decimal :=
  let i := RoundingInterval.ofMagnitude f m
  let top := i.leadingExponent
  let found := (List.range maxDigits).findSome? fun (n : Nat) => i.onGrid? (top - (n + 1))
  found.getD ⟨i.floorAt (top - maxDigits), top - maxDigits⟩

end Columnar
