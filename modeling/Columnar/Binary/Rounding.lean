import Columnar.Binary.Format

/-!
# Rounding to a binary format

One rule serves every conversion: the exact value is rounded to the nearest value
of the target format, a value half way between two neighbours goes to the one
whose pattern is even, and what lies past the largest finite value becomes
infinity.  Because magnitudes are consecutive integers, the carry of a rounding
moves into the exponent by itself.
-/

namespace Columnar

/-- `m / 2 ^ s` rounded to the nearest integer, a half to the even neighbour. -/
def roundShift (m s : Nat) : Nat :=
  let quotient := m / 2 ^ s
  let remainder := m % 2 ^ s
  if 2 ^ s < 2 * remainder ∨ (2 * remainder = 2 ^ s ∧ quotient % 2 = 1) then
    quotient + 1
  else
    quotient

@[simp]
theorem roundShift_zero (m : Nat) : roundShift m 0 = m := by
  simp [roundShift, Nat.mod_one]

theorem roundShift_le (m s : Nat) : roundShift m s ≤ m / 2 ^ s + 1 := by
  unfold roundShift
  dsimp only
  split <;> omega

theorem le_roundShift (m s : Nat) : m / 2 ^ s ≤ roundShift m s := by
  unfold roundShift
  dsimp only
  split <;> omega

/-- The magnitude of `f` nearest to `m / 2 ^ s` units.  `dropped` low bits do not
fit the fraction; each of them raises the exponent by one. -/
def Format.round (f : Format) (m s : Nat) : Nat :=
  let dropped := Nat.log2 m - f.fractionBits - s
  min f.infinity (dropped * 2 ^ f.fractionBits + roundShift m (s + dropped))

namespace Binary

variable {f : Format}

/-- The value of `f` nearest to an integer. -/
def ofInt (f : Format) (n : Int) : Binary f :=
  ofMagnitude f (n < 0) (f.round (n.natAbs * 2 ^ f.scale) 0)

/-- The fraction of `x`, aligned at its high end with the fraction of `g`. -/
def payload (g : Format) (x : Binary f) : Nat :=
  x.magnitude % 2 ^ f.fractionBits * 2 ^ (g.fractionBits - f.fractionBits)
    / 2 ^ (f.fractionBits - g.fractionBits)

/-- The value of `g` nearest to `x`.  A value that is not a number keeps its sign
and the high end of its payload, and becomes quiet. -/
def convert (g : Format) (x : Binary f) : Binary g :=
  if x.isNaN then
    ofMagnitude g x.isNegative
      (g.infinity + (2 ^ (g.fractionBits - 1) ||| x.payload g))
  else if x.isInfinite then
    ofMagnitude g x.isNegative g.infinity
  else
    ofMagnitude g x.isNegative
      (g.round (f.units x.magnitude * 2 ^ (g.scale - f.scale)) (f.scale - g.scale))

/-- The single-precision value of a half, exactly.  The payload of a value that is
not a number is carried over unchanged. -/
def widen (x : Binary .half) : Binary .single :=
  if x.isNaN then
    ofMagnitude .single x.isNegative (Format.single.infinity + x.payload .single)
  else
    x.convert .single

end Binary

end Columnar
