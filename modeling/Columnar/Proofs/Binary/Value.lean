import Columnar.Proofs.Binary.Grid
import Mathlib.Algebra.Order.Field.Rat
import Mathlib.Tactic.FieldSimp
import Mathlib.Tactic.Linarith
import Mathlib.Tactic.Positivity

/-!
# The exact value of a pattern

A pattern is a sign and a magnitude, and nothing else.  The value of a finite one is a rational
number; the same formula gives the two infinities the power of two that would come next, so that
the order of the ranks is the order of the values.

* `Binary.ofMagnitude_eq` -- a pattern is the one with its sign and its magnitude.
* `Binary.toRat` -- the exact value.
* `Binary.rank_le_rank_iff` -- ranks are ordered as values are.
* `Binary.abs_toRat_sub` -- how far apart two values of two formats are, in units of the finer
  one.
-/

namespace Columnar

theorem Format.infinity_lt_signWeight (f : Format) : f.infinity < f.signWeight := by
  rw [infinity, signWeight, Nat.pow_add]
  refine Nat.mul_lt_mul_of_pos_right ?_ (Nat.two_pow_pos _)
  exact Nat.sub_lt (Nat.two_pow_pos _) Nat.one_pos

theorem Format.two_pow_width (f : Format) : 2 ^ f.width = 2 * f.signWeight :=
  Nat.pow_succ'

namespace Binary

variable {f g : Format} {x y : Binary f}

theorem magnitude_lt (x : Binary f) : x.magnitude < f.signWeight :=
  Nat.mod_lt _ (Nat.two_pow_pos _)

theorem toNat_lt (x : Binary f) : x.toNat < 2 * f.signWeight :=
  Nat.lt_of_lt_of_eq x.bits.isLt f.two_pow_width

theorem toNat_ofMagnitude {n : Nat} (negative : Bool) (h : n < f.signWeight) :
    (ofMagnitude f negative n).toNat = if negative then f.signWeight + n else n := by
  rw [ofMagnitude, ofNat, toNat, BitVec.toNat_ofNat, f.two_pow_width]
  refine Nat.mod_eq_of_lt ?_
  split <;> omega

theorem magnitude_ofMagnitude {n : Nat} (negative : Bool) (h : n < f.signWeight) :
    (ofMagnitude f negative n).magnitude = n := by
  rw [magnitude, toNat_ofMagnitude negative h]
  split
  · rw [Nat.add_mod_left, Nat.mod_eq_of_lt h]
  · exact Nat.mod_eq_of_lt h

theorem isNegative_ofMagnitude {n : Nat} (negative : Bool) (h : n < f.signWeight) :
    (ofMagnitude f negative n).isNegative = negative := by
  rw [isNegative, toNat_ofMagnitude negative h]
  cases negative <;> simp [h]

/-- The bit pattern as a number, from its sign and its magnitude. -/
theorem toNat_eq (x : Binary f) :
    x.toNat = if x.isNegative then f.signWeight + x.magnitude else x.magnitude := by
  have hLt := x.toNat_lt
  rw [isNegative, magnitude]
  by_cases hSign : f.signWeight ≤ x.toNat
  · rw [decide_eq_true hSign, if_pos rfl, Nat.mod_eq_sub_mod hSign,
      Nat.mod_eq_of_lt (by omega)]
    omega
  · rw [decide_eq_false hSign, if_neg Bool.false_ne_true, Nat.mod_eq_of_lt (by omega)]

theorem toNat_injective {x y : Binary f} (h : x.toNat = y.toNat) : x = y := by
  cases x
  cases y
  exact congrArg Binary.mk (BitVec.eq_of_toNat_eq h)

/-- A pattern is the one with its sign and its magnitude. -/
@[simp]
theorem ofMagnitude_eq (x : Binary f) : ofMagnitude f x.isNegative x.magnitude = x := by
  refine toNat_injective ?_
  rw [toNat_ofMagnitude _ x.magnitude_lt, x.toNat_eq]

/-- Whether the value is a number other than the infinities. -/
def isFinite (x : Binary f) : Bool :=
  x.magnitude < f.infinity

theorem isNaN_of_isFinite (hFinite : x.isFinite = true) : x.isNaN = false :=
  decide_eq_false (Nat.lt_asymm (of_decide_eq_true hFinite))

theorem isInfinite_of_isFinite (hFinite : x.isFinite = true) : x.isInfinite = false :=
  decide_eq_false (Nat.ne_of_lt (of_decide_eq_true hFinite))

theorem isNaN_of_isInfinite (hInfinite : x.isInfinite = true) : x.isNaN = false :=
  decide_eq_false (Nat.not_lt.mpr (Nat.le_of_eq (of_decide_eq_true hInfinite)))

theorem magnitude_le_infinity (hNaN : x.isNaN = false) : x.magnitude ≤ f.infinity :=
  Nat.le_of_not_lt (of_decide_eq_false hNaN)

/-- A number is finite or one of the infinities. -/
theorem isFinite_or_isInfinite (hNaN : x.isNaN = false) :
    x.isFinite = true ∨ x.isInfinite = true := by
  simp only [isFinite, isInfinite, decide_eq_true_eq]
  exact Nat.lt_or_eq_of_le (magnitude_le_infinity hNaN)

/-- The exact value of a finite pattern.  An infinity gets the power of two behind the largest
of them, which keeps the order. -/
def toRat (x : Binary f) : ℚ :=
  (if x.isNegative then -1 else 1) * (f.units x.magnitude / 2 ^ f.scale)

theorem toRat_of_nonneg (h : x.isNegative = false) :
    x.toRat = f.units x.magnitude / 2 ^ f.scale := by
  rw [toRat, h, if_neg Bool.false_ne_true, one_mul]

theorem toRat_of_neg (h : x.isNegative = true) :
    x.toRat = -(f.units x.magnitude / 2 ^ f.scale) := by
  rw [toRat, h, if_pos rfl, neg_one_mul]

theorem abs_toRat (x : Binary f) : |x.toRat| = f.units x.magnitude / 2 ^ f.scale := by
  have hNonneg : (0 : ℚ) ≤ f.units x.magnitude / 2 ^ f.scale := by positivity
  cases hSign : x.isNegative with
  | false => rw [toRat_of_nonneg hSign, abs_of_nonneg hNonneg]
  | true => rw [toRat_of_neg hSign, abs_neg, abs_of_nonneg hNonneg]

theorem units_magnitude_eq_zero_iff (x : Binary f) :
    f.units x.magnitude = 0 ↔ x.magnitude = 0 := by
  rw [← f.strictMono_units.injective.eq_iff (a := x.magnitude), Format.units_zero]

/-- Ranks are ordered as values are. -/
theorem rank_le_rank_iff (x y : Binary f) : x.rank ≤ y.rank ↔ x.toRat ≤ y.toRat := by
  have hScale : (0 : ℚ) < 2 ^ f.scale := by positivity
  have hMono := f.strictMono_units.le_iff_le (a := x.magnitude) (b := y.magnitude)
  have hMono' := f.strictMono_units.le_iff_le (a := y.magnitude) (b := x.magnitude)
  cases hx : x.isNegative <;> cases hy : y.isNegative
  · rw [toRat_of_nonneg hx, toRat_of_nonneg hy, div_le_div_iff_of_pos_right hScale, Nat.cast_le,
      hMono]
    simp [rank, hx, hy]
  · rw [toRat_of_nonneg hx, toRat_of_neg hy, ← neg_div, div_le_div_iff_of_pos_right hScale]
    have hx0 := x.units_magnitude_eq_zero_iff
    have hy0 := y.units_magnitude_eq_zero_iff
    simp only [rank, hx, hy, Bool.false_eq_true, if_false, if_true]
    constructor
    · intro h
      have hZero : f.units x.magnitude = 0 ∧ f.units y.magnitude = 0 := by
        rw [hx0, hy0]
        omega
      rw [hZero.1, hZero.2]
      simp
    · intro h
      have hSum : (f.units x.magnitude + f.units y.magnitude : ℚ) ≤ 0 := by linarith
      have hSum : f.units x.magnitude + f.units y.magnitude ≤ 0 := by exact_mod_cast hSum
      omega
  · rw [toRat_of_neg hx, toRat_of_nonneg hy]
    have hLeft : (0 : ℚ) ≤ f.units x.magnitude / 2 ^ f.scale := by positivity
    have hRight : (0 : ℚ) ≤ f.units y.magnitude / 2 ^ f.scale := by positivity
    simp only [rank, hx, hy, Bool.false_eq_true, if_false, if_true]
    exact iff_of_true (by omega) (by linarith)
  · rw [toRat_of_neg hx, toRat_of_neg hy, neg_le_neg_iff, div_le_div_iff_of_pos_right hScale,
      Nat.cast_le, hMono']
    simp [rank, hx, hy]

theorem isFinite_ofMagnitude {m : Nat} (negative : Bool) (h : m < f.infinity) :
    (ofMagnitude f negative m).isFinite = true := by
  rw [isFinite, magnitude_ofMagnitude _ (Nat.lt_trans h f.infinity_lt_signWeight)]
  exact decide_eq_true h

/-- Numbers that compare as equal have the same value. -/
theorem toRat_eq_of_compare? (h : x.compare? y = some .eq) : x.toRat = y.toRat := by
  have hRank : x.rank = y.rank := by
    rw [compare?] at h
    split at h
    · exact absurd h (by simp)
    · exact compare_eq_iff_eq.mp (Option.some.inj h)
  exact le_antisymm ((rank_le_rank_iff x y).mp hRank.le) ((rank_le_rank_iff y x).mp hRank.ge)

theorem compare?_self (h : x.isFinite = true) : x.compare? x = some .eq := by
  simp [compare?, isNaN_of_isFinite h]

/-- The value of a pattern in units of a finer format. -/
theorem units_div_scale {s : Nat} (hScale : g.scale + s = f.scale) (n : Nat) :
    (g.units n : ℚ) / 2 ^ g.scale = (g.units n * 2 ^ s : Nat) / 2 ^ f.scale := by
  rw [← hScale, pow_add]
  push_cast
  field_simp

/-- How far apart two values of one sign are, in units of the finer format. -/
theorem abs_toRat_sub {s : Nat} (hScale : g.scale + s = f.scale) {h : Binary g}
    (hSign : h.isNegative = x.isNegative) :
    |h.toRat - x.toRat| =
      ((g.units h.magnitude * 2 ^ s : Nat) - (f.units x.magnitude : Int)).natAbs /
        2 ^ f.scale := by
  have hPos : (0 : ℚ) < 2 ^ f.scale := by positivity
  have hUnits : (g.units h.magnitude : ℚ) / 2 ^ g.scale - f.units x.magnitude / 2 ^ f.scale =
      ((g.units h.magnitude * 2 ^ s : Nat) - (f.units x.magnitude : Int) : Int) /
        2 ^ f.scale := by
    rw [units_div_scale hScale, Int.cast_sub, Int.cast_natCast, Int.cast_natCast, sub_div]
  rw [Nat.cast_natAbs, Int.cast_abs, ← abs_of_pos hPos, ← abs_div, ← hUnits]
  cases hx : x.isNegative with
  | false => rw [toRat_of_nonneg (hSign.trans hx), toRat_of_nonneg hx]
  | true => rw [toRat_of_neg (hSign.trans hx), toRat_of_neg hx, neg_sub_neg, abs_sub_comm]

/-- Values of two signs are apart by the sum of their distances from zero. -/
theorem abs_toRat_sub_of_ne {s : Nat} (hScale : g.scale + s = f.scale) {h : Binary g}
    (hSign : h.isNegative ≠ x.isNegative) :
    |h.toRat - x.toRat| =
      (g.units h.magnitude * 2 ^ s + f.units x.magnitude : Nat) / 2 ^ f.scale := by
  have hLeft : (0 : ℚ) ≤ g.units h.magnitude / 2 ^ g.scale := by positivity
  have hRight : (0 : ℚ) ≤ f.units x.magnitude / 2 ^ f.scale := by positivity
  rw [Nat.cast_add, add_div, ← units_div_scale hScale]
  cases hx : x.isNegative with
  | false =>
      have hh : h.isNegative = true := by simpa [hx] using hSign
      rw [toRat_of_neg hh, toRat_of_nonneg hx, abs_of_nonpos (by linarith)]
      ring
  | true =>
      have hh : h.isNegative = false := by simpa [hx] using hSign
      rw [toRat_of_nonneg hh, toRat_of_neg hx, abs_of_nonneg (by linarith)]
      ring

end Binary

end Columnar
