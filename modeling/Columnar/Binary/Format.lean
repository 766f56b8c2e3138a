import Columnar.Word

/-!
# Binary floating-point values

A `Format` fixes how many bits the exponent and the fraction take, and a value of
`Binary f` is its interchange bit pattern: sign, biased exponent, fraction.  No
arithmetic of the machine is used.  A finite magnitude is a whole number of
`units` of weight `2 ^ (-scale)`, so every question about values is a question
about integers.

Comparison is the partial order of the values: both zeros are equal and a value
that is not a number is comparable with nothing, itself included.
-/

namespace Columnar

/-- The split of a bit pattern into exponent and fraction. -/
structure Format where
  exponentBits : Nat
  fractionBits : Nat
  deriving DecidableEq

namespace Format

/-- Sixteen bits. -/
def half : Format := ⟨5, 10⟩

/-- Thirty-two bits. -/
def single : Format := ⟨8, 23⟩

/-- Sixty-four bits. -/
def double : Format := ⟨11, 52⟩

/-- Bits of one value, sign included. -/
def width (f : Format) : Nat :=
  f.exponentBits + f.fractionBits + 1

/-- The weight of the sign bit; every magnitude lies below it. -/
def signWeight (f : Format) : Nat :=
  2 ^ (f.exponentBits + f.fractionBits)

/-- The magnitude of infinity; larger magnitudes are not numbers. -/
def infinity (f : Format) : Nat :=
  (2 ^ f.exponentBits - 1) * 2 ^ f.fractionBits

/-- The least positive value is `2 ^ (-scale)`. -/
def scale (f : Format) : Nat :=
  2 ^ (f.exponentBits - 1) + f.fractionBits - 2

/-- How many times the least positive value a finite magnitude holds. -/
def units (f : Format) (magnitude : Nat) : Nat :=
  let exponent := magnitude / 2 ^ f.fractionBits
  let fraction := magnitude % 2 ^ f.fractionBits
  if exponent = 0 then fraction
  else (2 ^ f.fractionBits + fraction) * 2 ^ (exponent - 1)

end Format

/-- A value of format `f`, held as its bit pattern. -/
structure Binary (f : Format) where
  bits : BitVec f.width
  deriving DecidableEq

namespace Binary

variable {f : Format}

/-- The value whose bit pattern is `n`. -/
def ofNat (f : Format) (n : Nat) : Binary f :=
  ⟨BitVec.ofNat f.width n⟩

/-- The bit pattern as a number. -/
def toNat (x : Binary f) : Nat :=
  x.bits.toNat

/-- The value with a given sign and magnitude. -/
def ofMagnitude (f : Format) (negative : Bool) (magnitude : Nat) : Binary f :=
  ofNat f (if negative then f.signWeight + magnitude else magnitude)

/-- The bit pattern without its sign. -/
def magnitude (x : Binary f) : Nat :=
  x.toNat % f.signWeight

/-- Whether the sign bit is set. -/
def isNegative (x : Binary f) : Bool :=
  f.signWeight ≤ x.toNat

/-- Whether the value is not a number. -/
def isNaN (x : Binary f) : Bool :=
  f.infinity < x.magnitude

/-- Whether the value is one of the two infinities. -/
def isInfinite (x : Binary f) : Bool :=
  x.magnitude = f.infinity

/-- The magnitude with its sign.  It orders the numbers, and both zeros have
rank zero. -/
def rank (x : Binary f) : Int :=
  if x.isNegative then -(x.magnitude : Int) else x.magnitude

/-- The order of two values, `none` when one of them is not a number. -/
def compare? (x y : Binary f) : Option Ordering :=
  if x.isNaN || y.isNaN then none else some (compare x.rank y.rank)

@[simp]
theorem ofNat_toNat (x : Binary f) : ofNat f x.toNat = x := by
  rw [ofNat, toNat, BitVec.ofNat_toNat, BitVec.setWidth_eq]

theorem compare?_eq_none_iff (x y : Binary f) :
    x.compare? y = none ↔ x.isNaN = true ∨ y.isNaN = true := by
  cases hx : x.isNaN <;> simp [compare?, hx]

end Binary

end Columnar
