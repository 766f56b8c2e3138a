import Columnar.Proofs.Binary.Rounding
import Columnar.Proofs.Binary.Value

/-!
# The value nearest to an integer

A value of a format is nearest to a number when no finite value lies nearer, and of two that lie
equally near it is the even one.  This is said of values, without any rule of rounding.

* `Binary.IsNearest` -- what it means that a value is the nearest one.
* `Binary.abs_toRat_sub_intCast` -- how far a value lies from an integer of its sign, in units of
  the format.
* `Binary.isNearest_ofMagnitude` -- a magnitude between the middles on both sides of the integer
  is nearest to it.
* `Binary.isNearest_ofInt` -- so rounding an integer gives the nearest value, unless it overflows.
-/

namespace Columnar

/-- The size of an integer in units of the least positive value. -/
def Format.intUnits (f : Format) (n : Int) : Nat :=
  n.natAbs * 2 ^ f.scale

namespace Binary

variable {f : Format} {x y : Binary f} {n : Int}

/-- `x` is the finite value nearest to `q`, and the even one if two are. -/
structure IsNearest (x : Binary f) (q : ℚ) : Prop where
  isFinite_eq : x.isFinite = true
  abs_sub_le : ∀ y : Binary f, y.isFinite = true → |x.toRat - q| ≤ |y.toRat - q|
  even_of_tie : ∀ y : Binary f, y.isFinite = true → y.toRat ≠ x.toRat →
    |y.toRat - q| = |x.toRat - q| → x.toNat % 2 = 0

theorem abs_intCast_eq (f : Format) (n : Int) : |(n : ℚ)| = f.intUnits n / 2 ^ f.scale := by
  rw [Format.intUnits, Nat.cast_mul, Nat.cast_pow, Nat.cast_ofNat,
    mul_div_cancel_right₀ _ (by positivity), Nat.cast_natAbs, Int.cast_abs]

/-- An integer is its size with its sign. -/
theorem intCast_eq (f : Format) (n : Int) :
    (n : ℚ) = (if decide (n < 0) then -1 else 1) * (f.intUnits n / 2 ^ f.scale) := by
  rw [← abs_intCast_eq]
  by_cases hSign : n < 0
  · have hNeg : (n : ℚ) < 0 := by exact_mod_cast hSign
    simp [hSign, abs_of_neg hNeg]
  · have hNonneg : (0 : ℚ) ≤ n := by exact_mod_cast Int.not_lt.mp hSign
    simp [hSign, abs_of_nonneg hNonneg]

/-- How far a value lies from an integer of its sign. -/
theorem abs_toRat_sub_intCast (hSign : x.isNegative = decide (n < 0)) :
    |x.toRat - n| = ((f.units x.magnitude : Int) - f.intUnits n).natAbs / 2 ^ f.scale := by
  have hPos : (0 : ℚ) < 2 ^ f.scale := by positivity
  have hUnits : (f.units x.magnitude : ℚ) / 2 ^ f.scale - f.intUnits n / 2 ^ f.scale =
      ((f.units x.magnitude : Int) - f.intUnits n : Int) / 2 ^ f.scale := by
    push_cast
    ring
  rw [Nat.cast_natAbs, Int.cast_abs, ← abs_of_pos hPos, ← abs_div, ← hUnits, toRat, hSign,
    intCast_eq f n, ← mul_sub]
  cases decide (n < 0) <;> simp [abs_sub_comm]

/-- A value of the other sign lies as far away as both are from zero. -/
theorem abs_toRat_sub_intCast_of_ne (hSign : x.isNegative ≠ decide (n < 0)) :
    |x.toRat - n| = (f.units x.magnitude + f.intUnits n : Nat) / 2 ^ f.scale := by
  have hLeft : (0 : ℚ) ≤ f.units x.magnitude / 2 ^ f.scale := by positivity
  have hRight : (0 : ℚ) ≤ f.intUnits n / 2 ^ f.scale := by positivity
  rw [Nat.cast_add, add_div, intCast_eq f n, toRat]
  cases hx : x.isNegative <;> cases hn : decide (n < 0)
  · exact absurd (hx.trans hn.symm) hSign
  · rw [if_neg Bool.false_ne_true, if_pos rfl, abs_of_nonneg (by linarith)]
    ring
  · rw [if_neg Bool.false_ne_true, if_pos rfl, abs_of_nonpos (by linarith)]
    ring
  · exact absurd (hx.trans hn.symm) hSign

/-- With a fraction the parity of a pattern is that of its magnitude. -/
theorem toNat_mod_two (hBits : 0 < f.fractionBits) (x : Binary f) :
    x.toNat % 2 = x.magnitude % 2 := by
  obtain ⟨rest, hRest⟩ : 2 ∣ f.signWeight := dvd_pow_self 2 (by omega)
  rw [toNat_eq, hRest]
  split <;> omega

/-- A magnitude to which an integer is rounded is nearest to it. -/
theorem isNearest_ofMagnitude (hBits : 0 < f.fractionBits) {j : Nat} (hFinite : j < f.infinity)
    (h : f.RoundsTo (f.intUnits n) 0 j) : (ofMagnitude f (decide (n < 0)) j).IsNearest n := by
  have hLt := Nat.lt_trans hFinite f.infinity_lt_signWeight
  have hMagnitude := magnitude_ofMagnitude (decide (n < 0)) hLt
  have hSign := isNegative_ofMagnitude (decide (n < 0)) hLt
  have hPos : (0 : ℚ) < 2 ^ f.scale := by positivity
  have hNearer := h.natAbs_sub_le
  have hEven := @h.even_of_natAbs_sub_eq
  simp only [Nat.pow_zero, Nat.mul_one] at hNearer hEven
  constructor
  case isFinite_eq => exact isFinite_ofMagnitude _ hFinite
  case abs_sub_le =>
    intro y _
    rw [abs_toRat_sub_intCast hSign, hMagnitude]
    by_cases hOther : y.isNegative = decide (n < 0)
    · rw [abs_toRat_sub_intCast hOther, div_le_div_iff_of_pos_right hPos, Nat.cast_le]
      exact hNearer y.magnitude
    · -- Zero is nearer than any value of the other sign.
      have hZero := hNearer 0
      rw [f.units_zero] at hZero
      rw [abs_toRat_sub_intCast_of_ne hOther, div_le_div_iff_of_pos_right hPos, Nat.cast_le]
      omega
  case even_of_tie =>
    intro y _ hNe hSame
    rw [toNat_mod_two hBits, hMagnitude]
    rw [abs_toRat_sub_intCast hSign, hMagnitude] at hSame
    by_cases hOther : y.isNegative = decide (n < 0)
    · rw [abs_toRat_sub_intCast hOther, div_left_inj' hPos.ne', Nat.cast_inj] at hSame
      refine hEven (fun hEq => hNe ?_) hSame
      rw [toRat, toRat, hOther, hSign, hMagnitude, hEq]
    · rw [abs_toRat_sub_intCast_of_ne hOther, div_left_inj' hPos.ne', Nat.cast_inj] at hSame
      by_cases hNone : j = 0
      · rw [hNone]
      · have hZero := hNearer 0
        refine hEven (Ne.symm hNone) ?_
        rw [f.units_zero] at hZero ⊢
        omega

section NoOverflow

variable (hFinite : f.nearest (f.intUnits n) 0 < f.infinity)
include hFinite

/-- The pattern of an integer that does not overflow. -/
theorem ofInt_eq : ofInt f n = ofMagnitude f (decide (n < 0)) (f.nearest (f.intUnits n) 0) := by
  rw [ofInt, ← Format.intUnits, Format.round_eq_min, Nat.min_eq_right hFinite.le]

theorem isNegative_ofInt : (ofInt f n).isNegative = decide (n < 0) := by
  rw [ofInt_eq hFinite]
  exact isNegative_ofMagnitude _ (Nat.lt_trans hFinite f.infinity_lt_signWeight)

theorem magnitude_ofInt : (ofInt f n).magnitude = f.nearest (f.intUnits n) 0 := by
  rw [ofInt_eq hFinite]
  exact magnitude_ofMagnitude _ (Nat.lt_trans hFinite f.infinity_lt_signWeight)

theorem isFinite_ofInt : (ofInt f n).isFinite = true := by
  rw [ofInt_eq hFinite]
  exact isFinite_ofMagnitude _ hFinite

/-- An integer that does not overflow is rounded to the nearest value. -/
theorem isNearest_ofInt (hBits : 0 < f.fractionBits) : (ofInt f n).IsNearest n := by
  rw [ofInt_eq hFinite]
  exact isNearest_ofMagnitude hBits hFinite (Format.roundsTo_nearest hBits _ _)

end NoOverflow

end Binary

end Columnar
