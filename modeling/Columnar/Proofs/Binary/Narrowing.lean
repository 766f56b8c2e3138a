import Columnar.Binary.Narrowing
import Columnar.Proofs.Binary.Rounding
import Columnar.Proofs.Binary.Widening

/-!
# Narrowing to a half is correctly rounded

Narrowing treats five kinds of values apart.  On every value that is a number the outcome is
the one of the general rule, which is the nearest half.

* `Binary.narrowMagnitude_eq_round` -- the cases on the fields are the general rule.
* `Binary.narrow_eq_convert` -- so narrowing is the general conversion to halves.
* `Binary.roundsTo_narrow` -- a finite outcome lies between the middles on both sides of it.
* `Binary.NarrowsTo` -- what it means that a half is the correctly rounded one.
* `Binary.IsExact` -- what it means that a half is a number of single precision.
* `Binary.narrow_rounds_correctly` -- every value is narrowed to the correctly rounded half, the
  order of the numbers is kept, and halves come back.
-/

namespace Columnar

/-- Common powers of two in number and weight do not change the rounded quotient. -/
theorem roundShift_mul_two_pow (m s j : Nat) : roundShift (m * 2 ^ j) (s + j) = roundShift m s := by
  have hPos : 0 < 2 ^ j := Nat.two_pow_pos j
  have hScale : ∀ a b, a * 2 ^ j < 2 * (b * 2 ^ j) ↔ a < 2 * b := fun a b => by
    rw [← Nat.mul_assoc, Nat.mul_lt_mul_right hPos]
  have hTie : ∀ a b, 2 * (b * 2 ^ j) = a * 2 ^ j ↔ 2 * b = a := fun a b => by
    rw [← Nat.mul_assoc, Nat.mul_right_cancel_iff hPos]
  rw [roundShift, roundShift, Nat.pow_add, Nat.mul_div_mul_right _ _ hPos,
    Nat.mul_mod_mul_right]
  simp only [hScale, hTie]

/-- An even whole part stays outside of the rounding. -/
theorem roundShift_add_mul {whole : Nat} (hEven : whole % 2 = 0) (m s : Nat) :
    roundShift (whole * 2 ^ s + m) s = whole + roundShift m s := by
  have hParity : (whole + m / 2 ^ s) % 2 = m / 2 ^ s % 2 := by omega
  rw [roundShift, roundShift, Nat.add_comm (whole * _), Nat.add_mul_div_right _ _
    (Nat.two_pow_pos s), Nat.add_mul_mod_self_right, Nat.add_comm (m / _)]
  simp only [hParity]
  split <;> rfl

/-- What is not above one half is rounded to zero. -/
theorem roundShift_eq_zero {m s : Nat} (h : 2 * m ≤ 2 ^ s) : roundShift m s = 0 := by
  have hPos : 0 < 2 ^ s := Nat.two_pow_pos s
  rw [roundShift, Nat.div_eq_of_lt (by omega), Nat.mod_eq_of_lt (by omega)]
  exact if_neg (by omega)

namespace Format

/-- The value of a single-precision pattern with a normal exponent. -/
theorem units_single {exponent fraction : Nat} (hExponent : exponent ≠ 0)
    (hFraction : fraction < 2 ^ 23) :
    single.units (exponent * 2 ^ 23 + fraction) = (2 ^ 23 + fraction) * 2 ^ (exponent - 1) := by
  have h := single.units_add (k := exponent - 1) (q := 2 ^ 23 + fraction)
    (by rw [fractionBits_single]; omega) (by rw [fractionBits_single]; omega)
  have hSplit : exponent * 2 ^ 23 + fraction = (exponent - 1) * 2 ^ 23 + (2 ^ 23 + fraction) := by
    omega
  rw [hSplit, ← h, fractionBits_single]

theorem log2_units_single {exponent fraction : Nat} (hExponent : exponent ≠ 0)
    (hFraction : fraction < 2 ^ 23) :
    Nat.log2 (single.units (exponent * 2 ^ 23 + fraction)) = exponent + 22 := by
  have hPos : 0 < 2 ^ (exponent - 1) := Nat.two_pow_pos _
  have hLower : exponent + 22 = 23 + (exponent - 1) := by omega
  have hUpper : exponent + 22 + 1 = 24 + (exponent - 1) := by omega
  rw [units_single hExponent hFraction, Nat.log2_eq_iff (by positivity), hUpper, hLower,
    Nat.pow_add, Nat.pow_add]
  exact ⟨Nat.mul_le_mul_right _ (by omega), Nat.mul_lt_mul_of_pos_right (by omega) hPos⟩

/-- How many digits of a single-precision value do not fit a half: none up to the least normal
half, from where on every value has thirteen digits too many. -/
theorem dropped_units_single {exponent fraction : Nat} (hFraction : fraction < 2 ^ 23) :
    half.dropped (single.units (exponent * 2 ^ 23 + fraction)) 125 = exponent - 113 := by
  rw [dropped, fractionBits_half]
  by_cases hExponent : exponent = 0
  · subst hExponent
    have hUnits : single.units (0 * 2 ^ 23 + fraction) = fraction :=
      (single.units_add (.inl rfl) (by show fraction ≤ 2 * 2 ^ 23; omega)).trans (Nat.mul_one _)
    have hLog : Nat.log2 fraction ≤ fraction := Nat.log2_le_self _
    rcases Nat.eq_zero_or_pos fraction with rfl | hPos
    · rw [hUnits]
      rfl
    · have hLog : Nat.log2 fraction < 23 := (Nat.log2_lt hPos.ne').mpr hFraction
      rw [hUnits]
      omega
  · rw [log2_units_single hExponent hFraction]
    omega

/-- What the general rule says about a single-precision value with a normal exponent. -/
theorem nearest_units_single {exponent fraction : Nat} (hExponent : exponent ≠ 0)
    (hFraction : fraction < 2 ^ 23) :
    half.nearest (single.units (exponent * 2 ^ 23 + fraction)) 125 =
      (exponent - 113) * 2 ^ 10 +
        roundShift ((2 ^ 23 + fraction) * 2 ^ (exponent - 1)) (125 + (exponent - 113)) := by
  rw [nearest, digits, dropped_units_single hFraction, units_single hExponent hFraction]
  rfl

/-- Below half of the least positive half nothing is left. -/
theorem nearest_units_single_of_lt {exponent fraction : Nat} (hFraction : fraction < 2 ^ 23)
    (hSmall : exponent < 102) :
    half.nearest (single.units (exponent * 2 ^ 23 + fraction)) 125 = 0 := by
  have hDropped : exponent - 113 = 0 := by omega
  have hLeast : single.units (102 * 2 ^ 23 + 0) = (2 ^ 23 + 0) * 2 ^ (102 - 1) :=
    units_single (by decide) (by decide)
  have hLt : single.units (exponent * 2 ^ 23 + fraction) < (2 ^ 23 + 0) * 2 ^ (102 - 1) :=
    Nat.lt_of_lt_of_eq (single.strictMono_units (by omega)) hLeast
  rw [nearest, digits, dropped_units_single hFraction, hDropped, Nat.zero_mul, Nat.zero_add,
    Nat.add_zero]
  refine roundShift_eq_zero (Nat.le_of_lt ?_)
  have hPow : (2 : Nat) ^ 125 = 2 * ((2 ^ 23 + 0) * 2 ^ (102 - 1)) := by norm_num
  rw [hPow]
  exact Nat.mul_lt_mul_of_pos_left hLt (by decide)

/-- A subnormal half: the exponent says how many digits are cut. -/
theorem nearest_units_single_of_le {exponent fraction : Nat} (hFraction : fraction < 2 ^ 23)
    (hLower : 102 ≤ exponent) (hUpper : exponent ≤ 112) :
    half.nearest (single.units (exponent * 2 ^ 23 + fraction)) 125 =
      roundShift (2 ^ 23 + fraction) (126 - exponent) := by
  have hDropped : exponent - 113 = 0 := by omega
  have hShift : 125 = 126 - exponent + (exponent - 1) := by omega
  rw [nearest_units_single (by omega) hFraction, hDropped, Nat.zero_mul, Nat.zero_add,
    Nat.add_zero]
  rw [hShift, roundShift_mul_two_pow]

/-- A normal half: the exponent is carried over, and thirteen digits of the fraction are cut. -/
theorem nearest_units_single_of_ge {exponent fraction : Nat} (hFraction : fraction < 2 ^ 23)
    (hLower : 113 ≤ exponent) :
    half.nearest (single.units (exponent * 2 ^ 23 + fraction)) 125 =
      (exponent - 112) * 2 ^ 10 + roundShift fraction 13 := by
  have hShift : 125 + (exponent - 113) = 13 + (exponent - 1) := by omega
  have hLeading : (2 : Nat) ^ 23 + fraction = 2 ^ 10 * 2 ^ 13 + fraction := by norm_num
  rw [nearest_units_single (by omega) hFraction, hShift, roundShift_mul_two_pow, hLeading,
    roundShift_add_mul rfl]
  omega

/-- The middle between the largest finite half, 65504, and the next power of two. -/
theorem infinity_le_nearest_iff (m : Nat) :
    half.infinity ≤ half.nearest m 125 ↔ 65520 * 2 ^ 149 ≤ m := by
  have hMiddle : half.units 31743 * 2 ^ 125 + half.units (31743 + 1) * 2 ^ 125 =
      2 * (65520 * 2 ^ 149) := by decide +kernel
  have hLe := (half.roundsTo_nearest (by decide) m 125).le_iff (j := 31743) rfl
  rw [hMiddle, Nat.mul_le_mul_left_iff (by decide)] at hLe
  exact hLe

/-- The middle between zero and the least positive half. -/
theorem nearest_eq_zero_iff (m : Nat) : half.nearest m 125 = 0 ↔ m ≤ 2 ^ 124 := by
  have hMiddle : half.units 0 * 2 ^ 125 + half.units (0 + 1) * 2 ^ 125 = 2 * 2 ^ 124 := by
    decide +kernel
  have hGe := (half.roundsTo_nearest (by decide) m 125).ge_iff (j := 0) rfl
  rw [hMiddle, Nat.mul_le_mul_left_iff (by decide), Nat.le_zero] at hGe
  exact hGe

end Format

namespace Binary

open Format in
/-- On every value that is a number the cases on the fields are the general rule. -/
theorem narrowMagnitude_eq_round {exponent fraction : Nat} (hFraction : fraction < 2 ^ 23)
    (hNumber : exponent < 255 ∨ exponent = 255 ∧ fraction = 0) :
    narrowMagnitude exponent fraction =
      half.round (single.units (exponent * 2 ^ 23 + fraction)) 125 := by
  have hCut : roundShift fraction 13 ≤ 2 ^ 10 := by
    have := roundShift_le fraction 13
    omega
  rw [round_eq_min, narrowMagnitude, infinity_half]
  rcases Nat.lt_or_ge exponent 102 with hSmall | hSmall
  · rw [nearest_units_single_of_lt hFraction hSmall]
    simp [show exponent ≠ 255 by omega, show ¬143 ≤ exponent by omega, hSmall]
  · rcases Nat.lt_or_ge exponent 113 with hSubnormal | hNormal
    · have hDigits : roundShift (2 ^ 23 + fraction) (126 - exponent) ≤
          (2 ^ 23 + fraction) / 2 ^ 14 + 1 :=
        Nat.le_trans (roundShift_le _ _) (Nat.add_le_add_right (Nat.div_le_div_left
          (Nat.pow_le_pow_right (by decide) (by omega)) (by decide)) 1)
      rw [nearest_units_single_of_le hFraction hSmall (by omega), if_neg (by omega),
        if_neg (by omega), if_neg (by omega), if_pos (by omega)]
      omega
    · rw [nearest_units_single_of_ge hFraction hNormal]
      split
      · rw [if_pos (by omega)]
        omega
      · split
        · omega
        · rw [if_neg (by omega), if_neg (by omega)]
          omega

variable {x y : Binary .single} {h : Binary .half}

/-- The exponent and the fraction of a number. -/
theorem fields_of_isNaN_eq_false (hNaN : x.isNaN = false) :
    x.magnitude / 2 ^ 23 < 255 ∨ x.magnitude / 2 ^ 23 = 255 ∧ x.magnitude % 2 ^ 23 = 0 := by
  have hLe : x.magnitude ≤ 255 * 2 ^ 23 := magnitude_le_infinity hNaN
  omega

/-- A number is narrowed by the general rule. -/
theorem narrow_of_isNaN_eq_false (hNaN : x.isNaN = false) :
    x.narrow = ofMagnitude .half x.isNegative
      (Format.half.round (Format.single.units x.magnitude) 125) := by
  have hFraction : x.magnitude % 2 ^ 23 < 2 ^ 23 := Nat.mod_lt _ (by decide)
  rw [narrow, narrowMagnitude_eq_round hFraction (fields_of_isNaN_eq_false hNaN),
    Nat.div_add_mod']

/-- A value that is not a number keeps the high end of its payload and becomes quiet. -/
theorem narrow_of_isNaN (hNaN : x.isNaN = true) :
    x.narrow = ofMagnitude .half x.isNegative
      (Format.half.infinity + (2 ^ 9 ||| x.magnitude % 2 ^ 23 / 2 ^ 13)) := by
  have hLt : 255 * 2 ^ 23 < x.magnitude := of_decide_eq_true hNaN
  have hSign : x.magnitude < 256 * 2 ^ 23 := x.magnitude_lt
  rw [narrow, narrowMagnitude, if_pos (by omega), if_neg (by omega)]

/-- Narrowing is the general conversion to halves. -/
theorem narrow_eq_convert (x : Binary .single) : x.narrow = x.convert .half := by
  cases hNaN : x.isNaN with
  | true =>
      rw [narrow_of_isNaN hNaN, convert, hNaN, if_pos rfl, payload, Format.fractionBits_half,
        Format.fractionBits_single, Nat.pow_zero, Nat.mul_one]
  | false =>
      rw [narrow_of_isNaN_eq_false hNaN, convert, hNaN, if_neg Bool.false_ne_true]
      cases hInfinite : x.isInfinite with
      | true =>
          have hMagnitude : x.magnitude = 255 * 2 ^ 23 := of_decide_eq_true hInfinite
          rw [if_pos rfl, ← narrow_of_isNaN_eq_false hNaN, narrow, hMagnitude]
          rfl
      | false =>
          rw [if_neg Bool.false_ne_true, Format.scale_half, Format.scale_single, Nat.pow_zero,
            Nat.mul_one]

/-- A quiet payload is not that of an infinity and leaves the sign alone. -/
theorem exists_payload (hNaN : x.isNaN = true) :
    ∃ payload, 0 < payload ∧ Format.half.infinity + payload < Format.half.signWeight ∧
      x.narrow = ofMagnitude .half x.isNegative (Format.half.infinity + payload) := by
  have hUpper : 2 ^ 9 ||| x.magnitude % 2 ^ 23 / 2 ^ 13 < 2 ^ 10 :=
    Nat.or_lt_two_pow (by decide) (by omega)
  have hLower : 2 ^ 9 ≤ 2 ^ 9 ||| x.magnitude % 2 ^ 23 / 2 ^ 13 := Nat.left_le_or
  have hSignWeight : Format.half.signWeight = 2 ^ 15 := rfl
  exact ⟨_, Nat.lt_of_lt_of_le (by decide) hLower,
    by rw [Format.infinity_half, hSignWeight]; omega, narrow_of_isNaN hNaN⟩

theorem round_lt_signWeight (f : Format) (m s : Nat) : f.round m s < f.signWeight :=
  Nat.lt_of_le_of_lt (Nat.min_le_left ..) f.infinity_lt_signWeight

theorem magnitude_narrow (hNaN : x.isNaN = false) :
    x.narrow.magnitude = Format.half.round (Format.single.units x.magnitude) 125 := by
  rw [narrow_of_isNaN_eq_false hNaN, magnitude_ofMagnitude _ (round_lt_signWeight ..)]

/-- The sign is kept, whatever the value. -/
theorem isNegative_narrow (x : Binary .single) : x.narrow.isNegative = x.isNegative := by
  cases hNaN : x.isNaN with
  | true =>
      obtain ⟨payload, -, hLt, hNarrow⟩ := exists_payload hNaN
      rw [hNarrow, isNegative_ofMagnitude _ hLt]
  | false =>
      rw [narrow_of_isNaN_eq_false hNaN, isNegative_ofMagnitude _ (round_lt_signWeight ..)]

/-- What is not a number stays so, and nothing else becomes it. -/
theorem isNaN_narrow (x : Binary .single) : x.narrow.isNaN = x.isNaN := by
  cases hNaN : x.isNaN with
  | true =>
      obtain ⟨payload, hPos, hLt, hNarrow⟩ := exists_payload hNaN
      rw [hNarrow, isNaN, magnitude_ofMagnitude _ hLt]
      exact decide_eq_true (Nat.lt_add_of_pos_right hPos)
  | false =>
      rw [isNaN, magnitude_narrow hNaN]
      exact decide_eq_false (Nat.not_lt.mpr (Nat.min_le_left ..))

/-- A finite outcome lies between the middles on both sides of it. -/
theorem roundsTo_narrow (hNaN : x.isNaN = false) (hFinite : x.narrow.isFinite = true) :
    Format.half.RoundsTo (Format.single.units x.magnitude) 125 x.narrow.magnitude := by
  have hLt : x.narrow.magnitude < Format.half.infinity := of_decide_eq_true hFinite
  have hRound := magnitude_narrow hNaN
  rw [Format.round_eq_min] at hRound
  have hNearest : x.narrow.magnitude =
      Format.half.nearest (Format.single.units x.magnitude) 125 := by omega
  rw [hNearest]
  exact Format.roundsTo_nearest (by decide) _ _

/-- The distance of a half from a value, when the half has the sign of the value: both are in
units of single precision. -/
theorem abs_toRat_sub_single (hSign : h.isNegative = x.isNegative) :
    |h.toRat - x.toRat| = ((Format.half.units h.magnitude * 2 ^ 125 : Nat) -
      (Format.single.units x.magnitude : Int)).natAbs / 2 ^ 149 :=
  abs_toRat_sub rfl hSign

theorem isFinite_of_narrow (hFinite : x.narrow.isFinite = true) : x.isNaN = false :=
  (isNaN_narrow x).symm.trans (isNaN_of_isFinite hFinite)

/-- From the middle between the largest half and the next power of two on, values are infinite. -/
theorem isInfinite_narrow_iff (hNaN : x.isNaN = false) :
    x.narrow.isInfinite = true ↔ x.isInfinite = true ∨ 65520 ≤ |x.toRat| := by
  have hMiddle := Format.infinity_le_nearest_iff (Format.single.units x.magnitude)
  have hUnits : 65520 ≤ |x.toRat| ↔ 65520 * 2 ^ 149 ≤ Format.single.units x.magnitude := by
    rw [abs_toRat, Format.scale_single, le_div_iff₀ (by positivity)]
    norm_cast
  have hInfinite : x.isInfinite = true → 65520 * 2 ^ 149 ≤ Format.single.units x.magnitude := by
    intro h
    rw [show x.magnitude = Format.single.infinity from of_decide_eq_true h]
    decide +kernel
  rw [hUnits, or_iff_right_of_imp hInfinite, ← hMiddle, isInfinite, magnitude_narrow hNaN,
    Format.round_eq_min, decide_eq_true_eq, min_eq_left_iff]

theorem magnitude_narrow_eq_zero_iff (hNaN : x.isNaN = false) :
    x.narrow.magnitude = 0 ↔ |x.toRat| ≤ 1 / 2 ^ 25 := by
  have hMiddle := Format.nearest_eq_zero_iff (Format.single.units x.magnitude)
  have hUnits : |x.toRat| ≤ 1 / 2 ^ 25 ↔ Format.single.units x.magnitude ≤ 2 ^ 124 := by
    have hWeight : (1 / 2 ^ 25 : ℚ) = 2 ^ 124 / 2 ^ 149 := by norm_num
    rw [abs_toRat, Format.scale_single, hWeight, div_le_div_iff_of_pos_right (by positivity)]
    norm_cast
  have hInfinity : 0 < Format.half.infinity := by decide
  rw [hUnits, ← hMiddle, magnitude_narrow hNaN, Format.round_eq_min]
  omega

/-- No half is nearer. -/
theorem abs_narrow_sub_le (hFinite : x.narrow.isFinite = true) (h : Binary .half) :
    |x.narrow.toRat - x.toRat| ≤ |h.toRat - x.toRat| := by
  have hRounds := roundsTo_narrow (isFinite_of_narrow hFinite) hFinite
  have hPos : (0 : ℚ) < 2 ^ 149 := by positivity
  rw [abs_toRat_sub_single (isNegative_narrow x)]
  by_cases hSign : h.isNegative = x.isNegative
  · rw [abs_toRat_sub_single hSign, div_le_div_iff_of_pos_right hPos]
    exact Nat.cast_le.mpr (hRounds.natAbs_sub_le h.magnitude)
  · -- Zero is not further away than any half of the other sign.
    have hZero := hRounds.natAbs_sub_le 0
    rw [Format.units_zero, Nat.zero_mul] at hZero
    rw [abs_toRat_sub_of_ne (s := 125) rfl hSign, Format.scale_single,
      div_le_div_iff_of_pos_right hPos]
    exact Nat.cast_le.mpr (by omega)

/-- Of two halves that are equally near, an even one is taken. -/
theorem even_of_abs_sub_eq (hFinite : x.narrow.isFinite = true) (h : Binary .half)
    (hOther : h.toRat ≠ x.narrow.toRat)
    (hSame : |h.toRat - x.toRat| = |x.narrow.toRat - x.toRat|) : x.narrow.toNat % 2 = 0 := by
  have hRounds := roundsTo_narrow (isFinite_of_narrow hFinite) hFinite
  have hPos : (2 ^ 149 : ℚ) ≠ 0 := by positivity
  have hParity : x.narrow.toNat % 2 = x.narrow.magnitude % 2 := by
    have hSignWeight : Format.half.signWeight = 2 ^ 15 := rfl
    rw [toNat_eq, hSignWeight]
    split <;> omega
  rw [hParity]
  rw [abs_toRat_sub_single (isNegative_narrow x)] at hSame
  by_cases hSign : h.isNegative = x.isNegative
  · rw [abs_toRat_sub_single hSign, div_left_inj' hPos, Nat.cast_inj] at hSame
    refine hRounds.even_of_natAbs_sub_eq (fun hMagnitude => hOther ?_) hSame
    rw [toRat, toRat, hSign, hMagnitude, isNegative_narrow]
  · -- Zero is as near as a half of the other sign, so it is that half.
    rw [abs_toRat_sub_of_ne (s := 125) rfl hSign, Format.scale_single, div_left_inj' hPos,
      Nat.cast_inj] at hSame
    by_cases hMagnitude : x.narrow.magnitude = 0
    · rw [hMagnitude]
    · have hZero := hRounds.natAbs_sub_le 0
      refine hRounds.even_of_natAbs_sub_eq (Ne.symm hMagnitude) ?_
      rw [Format.units_zero, Nat.zero_mul] at hZero ⊢
      omega

/-- What it means that `r` is the correctly rounded half of `x`. -/
structure NarrowsTo (x : Binary .single) (r : Binary .half) : Prop where
  isNegative_eq : r.isNegative = x.isNegative
  isNaN_eq : r.isNaN = x.isNaN
  /-- 65520 is the middle between the largest half and the power of two that follows. -/
  isInfinite_iff : x.isNaN = false →
    (r.isInfinite = true ↔ x.isInfinite = true ∨ 65520 ≤ |x.toRat|)
  /-- The least positive half is `2 ^ (-24)`. -/
  magnitude_eq_zero_iff : x.isNaN = false → (r.magnitude = 0 ↔ |x.toRat| ≤ 1 / 2 ^ 25)
  abs_sub_le : r.isFinite = true → ∀ h : Binary .half, h.isFinite = true →
    |r.toRat - x.toRat| ≤ |h.toRat - x.toRat|
  even_of_tie : r.isFinite = true → ∀ h : Binary .half, h.isFinite = true → h.toRat ≠ r.toRat →
    |h.toRat - x.toRat| = |r.toRat - x.toRat| → r.toNat % 2 = 0

theorem narrowsTo_narrow (x : Binary .single) : x.NarrowsTo x.narrow where
  isNegative_eq := isNegative_narrow x
  isNaN_eq := isNaN_narrow x
  isInfinite_iff := isInfinite_narrow_iff
  magnitude_eq_zero_iff := magnitude_narrow_eq_zero_iff
  abs_sub_le hFinite h _ := abs_narrow_sub_le hFinite h
  even_of_tie hFinite h _ hOther hSame := even_of_abs_sub_eq hFinite h hOther hSame

/-- Narrowing keeps the order of any two numbers. -/
theorem toRat_narrow_le (hx : x.isNaN = false) (hy : y.isNaN = false) (hLe : x.toRat ≤ y.toRat) :
    x.narrow.toRat ≤ y.narrow.toRat := by
  have hMono : ∀ {m n : Nat}, m ≤ n → Format.half.round (Format.single.units m) 125 ≤
      Format.half.round (Format.single.units n) 125 := fun h =>
    min_le_min_left _ (Format.RoundsTo.mono (Format.roundsTo_nearest (by decide) _ _)
      (Format.roundsTo_nearest (by decide) _ _) (Format.single.strictMono_units.monotone h))
  have hZero : Format.half.round (Format.single.units 0) 125 = 0 := rfl
  rw [← rank_le_rank_iff, rank, rank] at hLe ⊢
  rw [isNegative_narrow, isNegative_narrow, magnitude_narrow hx, magnitude_narrow hy]
  cases hxSign : x.isNegative <;> cases hySign : y.isNegative <;>
    simp only [hxSign, hySign, Bool.false_eq_true, if_false, if_true] at hLe ⊢
  · have := hMono (show x.magnitude ≤ y.magnitude by omega)
    omega
  · -- Only the two zeros are ordered like this.
    rw [show x.magnitude = 0 by omega, show y.magnitude = 0 by omega, hZero]
    exact Int.le_refl 0
  · omega
  · have := hMono (show y.magnitude ≤ x.magnitude by omega)
    omega

/-- `x` is the single-precision number that the half `h` is. -/
structure IsExact (h : Binary .half) (x : Binary .single) : Prop where
  isNegative_eq : x.isNegative = h.isNegative
  isNaN_eq : x.isNaN = h.isNaN
  isInfinite_eq : x.isInfinite = h.isInfinite
  toRat_eq : h.isFinite = true → x.toRat = h.toRat

theorem isExact_widen (hNaN : h.isNaN = false) : h.IsExact h.widen := by
  rcases isFinite_or_isInfinite hNaN with hFinite | hInfinite
  · have hWiden := isFinite_widen hFinite
    exact {
      isNegative_eq := isNegative_widen hNaN
      isNaN_eq := (isNaN_of_isFinite hWiden).trans hNaN.symm
      isInfinite_eq := (isInfinite_of_isFinite hWiden).trans (isInfinite_of_isFinite hFinite).symm
      toRat_eq := toRat_widen }
  · have hWiden := isInfinite_widen hInfinite
    exact {
      isNegative_eq := isNegative_widen hNaN
      isNaN_eq := (isNaN_of_isInfinite hWiden).trans hNaN.symm
      isInfinite_eq := hWiden.trans hInfinite.symm
      toRat_eq := fun hFinite => by simp [isInfinite_of_isFinite hFinite] at hInfinite }

/-- A half comes back from the number that it is. -/
theorem IsExact.narrow_eq (hExact : h.IsExact x) (hNaN : h.isNaN = false) : x.narrow = h := by
  have hNaN' := hExact.isNaN_eq.trans hNaN
  have hMagnitude : Format.half.round (Format.single.units x.magnitude) 125 = h.magnitude := by
    rcases isFinite_or_isInfinite hNaN with hFinite | hInfinite
    · have hLt : h.magnitude < Format.half.infinity := of_decide_eq_true hFinite
      have hUnits : Format.single.units x.magnitude =
          Format.half.units h.magnitude * 2 ^ 125 := by
        have hAbs := congrArg abs (hExact.toRat_eq hFinite)
        rw [abs_toRat, abs_toRat, units_div_scale (f := .single) (g := .half) (s := 125) rfl,
          div_left_inj' (by positivity), Nat.cast_inj] at hAbs
        exact hAbs
      have hRounds := Format.half.roundsTo_nearest (by decide) (Format.single.units x.magnitude) 125
      rw [hUnits] at hRounds ⊢
      rw [Format.round_eq_min, hRounds.eq_of_units, Nat.min_eq_right hLt.le]
    · rw [show x.magnitude = Format.single.infinity from
          of_decide_eq_true (hExact.isInfinite_eq.trans hInfinite),
        show h.magnitude = Format.half.infinity from of_decide_eq_true hInfinite]
      decide +kernel
  rw [narrow_of_isNaN_eq_false hNaN', hMagnitude, hExact.isNegative_eq, ofMagnitude_eq]

/-- Every value is narrowed to the correctly rounded half.  So narrowing keeps the order of the
values that are numbers, and every half that is one has an exact value in single precision from
which it comes back. -/
theorem narrow_rounds_correctly :
    (∀ x : Binary .single, x.NarrowsTo x.narrow) ∧
      (∀ x y : Binary .single, x.isNaN = false → y.isNaN = false → x.toRat ≤ y.toRat →
        x.narrow.toRat ≤ y.narrow.toRat) ∧
      ∀ h : Binary .half, h.isNaN = false →
        h.IsExact h.widen ∧ ∀ x, h.IsExact x → x.narrow = h :=
  ⟨narrowsTo_narrow, fun _ _ => toRat_narrow_le,
    fun _ hNaN => ⟨isExact_widen hNaN, fun _ hExact => hExact.narrow_eq hNaN⟩⟩

/-- The middle behind the largest half overflows, and the value before it does not. -/
example : narrow (.ofNat .single 0x477ff000) = .ofNat .half 0x7c00 ∧
    narrow (.ofNat .single 0x477fefff) = .ofNat .half 0x7bff := by
  decide +kernel

end Binary

end Columnar
