import Columnar.Proofs.Binary.Rounding
import Columnar.Proofs.Binary.Value

/-!
# Widening a half is exact

Single precision has every digit of a half and every exponent, subnormal ones included, so
nothing is rounded: sign, value and infinities are kept.

* `Format.units_nearest_of_dvd` -- a value whose digits fit is rounded to itself.
* `Binary.units_magnitude_widen`, `Binary.toRat_widen` -- widening keeps the value.
-/

namespace Columnar

theorem roundShift_mul_of_dvd {m s : Nat} (h : 2 ^ s ∣ m) : roundShift m s * 2 ^ s = m := by
  have hPos := Nat.two_pow_pos s
  rw [roundShift, Nat.mod_eq_zero_of_dvd h, Nat.mul_zero, if_neg (by omega),
    Nat.div_mul_cancel h]

namespace Format

variable {f : Format} {m s n : Nat}

/-- A value that loses no digits is rounded to itself. -/
theorem units_nearest_of_dvd (h : 2 ^ (s + f.dropped m s) ∣ m) :
    f.units (f.nearest m s) * 2 ^ s = m := by
  rw [units_nearest_mul, digits, roundShift_mul_of_dvd h]

/-- Half precision has no value that single precision does not have. -/
theorem units_nearest_widen (n : Nat) :
    single.units (single.nearest (half.units n * 2 ^ 125) 0) = half.units n * 2 ^ 125 := by
  obtain ⟨k, q, hn, hNormal, hDigits⟩ := half.exists_digits n
  have hUnits : half.units n = q * 2 ^ k := by
    rw [hn, half.units_add hNormal hDigits.le]
  have hFew : half.units n * 2 ^ 125 < 2 ^ (11 + (k + 125)) := by
    rw [hUnits, Nat.mul_assoc, ← Nat.pow_add, Nat.pow_add 2 11]
    rw [fractionBits_half] at hDigits
    exact Nat.mul_lt_mul_of_pos_right (by omega) (Nat.two_pow_pos _)
  have hDvd : 2 ^ (k + 125) ∣ half.units n * 2 ^ 125 := by
    rw [hUnits, Nat.mul_assoc, ← Nat.pow_add]
    exact Nat.dvd_mul_left _ q
  generalize half.units n * 2 ^ 125 = m at hFew hDvd ⊢
  have hDropped : single.dropped m 0 ≤ k + 125 := by
    rw [dropped, fractionBits_single]
    rcases Nat.eq_zero_or_pos m with rfl | hPos
    · simp
    · have := (Nat.log2_lt hPos.ne').mpr hFew
      omega
  have hExact := units_nearest_of_dvd (f := single) (m := m) (s := 0)
    (Nat.dvd_trans (Nat.pow_dvd_pow 2 (by omega)) hDvd)
  rwa [Nat.pow_zero, Nat.mul_one] at hExact

/-- The values of the halves end long before those of single precision. -/
theorem nearest_widen_lt (h : n < half.infinity) :
    single.nearest (half.units n * 2 ^ 125) 0 < single.infinity := by
  refine single.strictMono_units.lt_iff_lt.mp ?_
  have hLast : half.units n * 2 ^ 125 < half.units half.infinity * 2 ^ 125 :=
    half.units_mul_lt 125 h
  have hEnd : half.units half.infinity * 2 ^ 125 ≤ single.units single.infinity := by
    decide +kernel
  rw [units_nearest_widen]
  exact Nat.lt_of_lt_of_le hLast hEnd

end Format

namespace Binary

variable {h : Binary .half}

theorem widen_of_isFinite (hFinite : h.isFinite = true) :
    h.widen = ofMagnitude .single h.isNegative
      (Format.single.nearest (Format.half.units h.magnitude * 2 ^ 125) 0) := by
  have hLt : h.magnitude < Format.half.infinity := of_decide_eq_true hFinite
  have hNaN := isNaN_of_isFinite hFinite
  rw [widen, hNaN, if_neg Bool.false_ne_true, convert, hNaN, if_neg Bool.false_ne_true,
    isInfinite_of_isFinite hFinite, if_neg Bool.false_ne_true]
  congr 1
  exact Nat.min_eq_right (Format.nearest_widen_lt hLt).le

theorem widen_of_isInfinite (hInfinite : h.isInfinite = true) :
    h.widen = ofMagnitude .single h.isNegative Format.single.infinity := by
  have hNaN := isNaN_of_isInfinite hInfinite
  rw [widen, hNaN, if_neg Bool.false_ne_true, convert, hNaN, if_neg Bool.false_ne_true,
    hInfinite, if_pos rfl]

theorem magnitude_widen_of_isFinite (hFinite : h.isFinite = true) :
    h.widen.magnitude = Format.single.nearest (Format.half.units h.magnitude * 2 ^ 125) 0 := by
  rw [widen_of_isFinite hFinite]
  exact magnitude_ofMagnitude _ (Nat.lt_trans
    (Format.nearest_widen_lt (of_decide_eq_true hFinite))
    Format.single.infinity_lt_signWeight)

theorem isNegative_widen (hNaN : h.isNaN = false) : h.widen.isNegative = h.isNegative := by
  rcases isFinite_or_isInfinite hNaN with hFinite | hInfinite
  · rw [widen_of_isFinite hFinite]
    exact isNegative_ofMagnitude _ (Nat.lt_trans
      (Format.nearest_widen_lt (of_decide_eq_true hFinite))
      Format.single.infinity_lt_signWeight)
  · rw [widen_of_isInfinite hInfinite,
      isNegative_ofMagnitude _ Format.single.infinity_lt_signWeight]

/-- Widening keeps the value, in the smaller units of single precision. -/
theorem units_magnitude_widen (hFinite : h.isFinite = true) :
    Format.single.units h.widen.magnitude = Format.half.units h.magnitude * 2 ^ 125 := by
  rw [magnitude_widen_of_isFinite hFinite, Format.units_nearest_widen]

theorem isFinite_widen (hFinite : h.isFinite = true) : h.widen.isFinite = true := by
  have hLt := Format.nearest_widen_lt (n := h.magnitude) (of_decide_eq_true hFinite)
  rw [isFinite, magnitude_widen_of_isFinite hFinite, decide_eq_true hLt]

theorem isInfinite_widen (hInfinite : h.isInfinite = true) : h.widen.isInfinite = true := by
  rw [widen_of_isInfinite hInfinite, isInfinite,
    magnitude_ofMagnitude _ Format.single.infinity_lt_signWeight]
  exact decide_eq_true rfl

/-- Widening keeps what is not a number. -/
theorem isNaN_widen (hNaN : h.isNaN = true) : h.widen.isNaN = true := by
  have hAbove : 31 * 1024 < h.magnitude := of_decide_eq_true hNaN
  have hBelow : h.magnitude < 32 * 1024 := h.magnitude_lt
  have hPayload : h.payload .single = h.magnitude % 1024 * 8192 := Nat.div_one _
  have hInfinity : Format.single.infinity = 255 * 8388608 := rfl
  have hLt : Format.single.infinity + h.payload .single < Format.single.signWeight := by
    have hWeight : Format.single.signWeight = 256 * 8388608 := rfl
    omega
  rw [widen, hNaN, if_pos rfl, isNaN, magnitude_ofMagnitude _ hLt]
  exact decide_eq_true (by omega)

/-- Widening keeps the value. -/
theorem toRat_widen (hFinite : h.isFinite = true) : h.widen.toRat = h.toRat := by
  rw [toRat, toRat, isNegative_widen (isNaN_of_isFinite hFinite), units_magnitude_widen hFinite,
    units_div_scale (f := .single) (g := .half) (s := 125) rfl]

end Binary

end Columnar
