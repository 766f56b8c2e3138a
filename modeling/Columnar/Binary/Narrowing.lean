import Columnar.Binary.Rounding

/-!
# Narrowing to a half

`Binary.convert` rounds to any format by one rule.  From single precision to a half the same
value can be read off the two fields of the pattern: the exponent says whether the value is
special, too large, a normal half, a subnormal half or too small, and the fraction is cut
accordingly.
-/

namespace Columnar.Binary

/-- The magnitude of the half nearest to the single-precision value with these fields.  An
exponent of single precision is 112 above that of a half. -/
def narrowMagnitude (exponent fraction : Nat) : Nat :=
  if exponent = 255 then
    Format.half.infinity + if fraction = 0 then 0 else 2 ^ 9 ||| fraction / 2 ^ 13
  else if 143 ≤ exponent then Format.half.infinity
  else if exponent < 102 then 0
  else if exponent ≤ 112 then
    -- Each exponent below that of the least normal half costs one more bit.
    roundShift (2 ^ 23 + fraction) (126 - exponent)
  else
    -- The carry of a rounding that overflows the fraction raises the exponent.
    (exponent - 112) * 2 ^ 10 + roundShift fraction 13

/-- The half nearest to a single-precision value. -/
def narrow (x : Binary .single) : Binary .half :=
  ofMagnitude .half x.isNegative
    (narrowMagnitude (x.magnitude / 2 ^ 23) (x.magnitude % 2 ^ 23))

end Columnar.Binary
