import Columnar.Binary.Format
import Mathlib.Order.Monotone.Basic
import Mathlib.Tactic.Ring

/-!
# The grid of a binary format

The magnitudes of a format are consecutive numbers, and `Format.units` gives each of them its
value, in units of the least positive one.  The values ascend, evenly within a binade and twice
as far apart in the next one.

* `Format.units_add` -- the value of a magnitude whose exponent and digits are known.
* `Format.strictMono_units` -- a larger magnitude has a larger value.
-/

namespace Columnar.Format

variable {f : Format}

@[simp]
theorem fractionBits_half : half.fractionBits = 10 := rfl

@[simp]
theorem fractionBits_single : single.fractionBits = 23 := rfl

@[simp]
theorem scale_half : half.scale = 24 := rfl

@[simp]
theorem scale_single : single.scale = 149 := rfl

theorem infinity_half : half.infinity = 31 * 2 ^ 10 := rfl

/-- The value of a magnitude, from its exponent and its digits, which are those of a normal
number unless the exponent is least.  A carry out of the digits is allowed for. -/
theorem units_add (f : Format) {k q : Nat} (hNormal : k = 0 ∨ 2 ^ f.fractionBits ≤ q)
    (hDigits : q ≤ 2 * 2 ^ f.fractionBits) :
    f.units (k * 2 ^ f.fractionBits + q) = q * 2 ^ k := by
  have hPos : 0 < 2 ^ f.fractionBits := Nat.two_pow_pos _
  unfold units
  generalize 2 ^ f.fractionBits = weight at *
  dsimp only
  rcases Nat.lt_or_ge q weight with hBelow | hAbove
  · -- Subnormal digits come with the least exponent.
    obtain rfl : k = 0 := by omega
    rw [Nat.zero_mul, Nat.zero_add, Nat.div_eq_of_lt hBelow, if_pos rfl, Nat.mod_eq_of_lt hBelow,
      Nat.pow_zero, Nat.mul_one]
  · rcases Nat.lt_or_ge q (2 * weight) with hShort | hCarry
    · have hSplit : k * weight + q = q - weight + weight * (k + 1) := by
        rw [Nat.mul_comm k, Nat.mul_succ]
        omega
      rw [hSplit, Nat.add_mul_div_left _ _ hPos, Nat.add_mul_mod_self_left,
        Nat.div_eq_of_lt (by omega), Nat.mod_eq_of_lt (by omega), if_neg (by omega)]
      congr 1
      · omega
      · congr 1
        omega
    · obtain rfl : q = 2 * weight := by omega
      have hSplit : k * weight + 2 * weight = weight * (k + 2) := by
        rw [Nat.mul_add, Nat.mul_comm k, Nat.mul_comm 2]
      rw [hSplit, Nat.mul_div_cancel_left _ hPos, Nat.mul_mod_right, if_neg (by omega)]
      show (weight + 0) * 2 ^ (k + 1) = 2 * weight * 2 ^ k
      ring

/-- Every magnitude has an exponent and digits that do not carry. -/
theorem exists_digits (f : Format) (n : Nat) :
    ∃ k q, n = k * 2 ^ f.fractionBits + q ∧ (k = 0 ∨ 2 ^ f.fractionBits ≤ q) ∧
      q < 2 * 2 ^ f.fractionBits := by
  have hPos : 0 < 2 ^ f.fractionBits := Nat.two_pow_pos _
  generalize 2 ^ f.fractionBits = weight at *
  have hMod := Nat.mod_lt n hPos
  have hDiv := Nat.div_add_mod' n weight
  cases hExponent : n / weight with
  | zero =>
      rw [hExponent] at hDiv
      exact ⟨0, n, by omega, .inl rfl, by omega⟩
  | succ k =>
      rw [hExponent, Nat.succ_mul] at hDiv
      exact ⟨k, weight + n % weight, by omega, .inr (by omega), by omega⟩

theorem units_lt_units_succ (f : Format) (n : Nat) : f.units n < f.units (n + 1) := by
  obtain ⟨k, q, rfl, hNormal, hDigits⟩ := f.exists_digits n
  have hNext : k = 0 ∨ 2 ^ f.fractionBits ≤ q + 1 := by omega
  rw [Nat.add_assoc, f.units_add hNormal (by omega), f.units_add hNext (by omega)]
  exact Nat.mul_lt_mul_of_pos_right (Nat.lt_succ_self q) (Nat.two_pow_pos k)

/-- A larger magnitude has a larger value. -/
theorem strictMono_units (f : Format) : StrictMono f.units :=
  strictMono_nat_of_lt_succ f.units_lt_units_succ

@[simp]
theorem units_zero (f : Format) : f.units 0 = 0 := by
  simpa using f.units_add (k := 0) (q := 0) (.inl rfl) (Nat.zero_le _)

end Columnar.Format
