import Columnar.Binary.Rounding
import Columnar.Proofs.Binary.Grid

/-!
# Rounding to a format is rounding to the nearest value

A value lies between two neighbours on the grid of a format.  What decides is the middle between
a magnitude and the next one: `RoundsTo` says that a value lies between the middles on both
sides of a magnitude, and on one of them only if the magnitude is even.

* `roundsTo_nearest` -- rounding by shifts, before the largest value is cut off, is like that.
* `RoundsTo.natAbs_sub_le`, `RoundsTo.even_of_natAbs_sub_eq` -- no magnitude has a nearer value,
  and another one with a value just as near is met only by an even magnitude.
* `RoundsTo.mono`, `RoundsTo.eq_of_units` -- larger values are not rounded to smaller magnitudes,
  and the value of a magnitude is rounded to it.
* `RoundsTo.le_iff`, `RoundsTo.ge_iff` -- when a value is rounded to an even magnitude or further
  up, and when to it or further down.
-/

namespace Columnar

/-- A quotient rounded to the nearest integer lies within a half of it, and on the half itself
only if it is even. -/
theorem roundShift_bounds (m s : Nat) :
    2 * m ≤ (2 * roundShift m s + 1) * 2 ^ s ∧
      2 * roundShift m s * 2 ^ s ≤ 2 * m + 2 ^ s ∧
      (2 * m = (2 * roundShift m s + 1) * 2 ^ s ∨ 2 * roundShift m s * 2 ^ s = 2 * m + 2 ^ s →
        roundShift m s % 2 = 0) := by
  have hDiv := Nat.div_add_mod m (2 ^ s)
  have hMod := Nat.mod_lt m (Nat.two_pow_pos s)
  unfold roundShift
  dsimp only
  generalize m / 2 ^ s = quotient at *
  generalize m % 2 ^ s = remainder at *
  generalize 2 ^ s = weight at *
  have hQuotient : weight * quotient = quotient * weight := Nat.mul_comm _ _
  split
  · have hTwice : 2 * (quotient + 1) * weight = 2 * (quotient * weight) + 2 * weight := by ring
    have hOdd : (2 * (quotient + 1) + 1) * weight = 2 * (quotient * weight) + 3 * weight := by
      ring
    rw [hTwice, hOdd]
    omega
  · have hTwice : 2 * quotient * weight = 2 * (quotient * weight) := Nat.mul_assoc ..
    have hOdd : (2 * quotient + 1) * weight = 2 * (quotient * weight) + weight := by ring
    rw [hTwice, hOdd]
    omega

namespace Format

variable {f : Format} {m m' s n n' : Nat}

/-- How many digits of `m / 2 ^ s` do not fit the fraction. -/
def dropped (f : Format) (m s : Nat) : Nat :=
  Nat.log2 m - f.fractionBits - s

/-- The digits that are left of `m / 2 ^ s`. -/
def digits (f : Format) (m s : Nat) : Nat :=
  roundShift m (s + f.dropped m s)

/-- The magnitude nearest to `m / 2 ^ s` units, however large. -/
def nearest (f : Format) (m s : Nat) : Nat :=
  f.dropped m s * 2 ^ f.fractionBits + f.digits m s

theorem round_eq_min (f : Format) (m s : Nat) : f.round m s = min f.infinity (f.nearest m s) :=
  rfl

theorem units_mul_lt (f : Format) (s : Nat) (h : n < n') :
    f.units n * 2 ^ s < f.units n' * 2 ^ s :=
  Nat.mul_lt_mul_of_pos_right (f.strictMono_units h) (Nat.two_pow_pos s)

theorem units_mul_le (f : Format) (s : Nat) (h : n ≤ n') :
    f.units n * 2 ^ s ≤ f.units n' * 2 ^ s :=
  Nat.mul_le_mul_right _ (f.strictMono_units.monotone h)

/-- A value with digits that do not fit is large. -/
theorem le_of_dropped (h : f.dropped m s ≠ 0) :
    2 ^ f.fractionBits * 2 ^ (s + f.dropped m s) ≤ m := by
  have hNonzero : m ≠ 0 := by
    rintro rfl
    simp [dropped] at h
  have hLog : f.fractionBits + (s + f.dropped m s) = Nat.log2 m := by
    unfold dropped at h ⊢
    omega
  rw [← Nat.pow_add, hLog]
  exact Nat.log2_self_le hNonzero

theorem le_digits (f : Format) (m s : Nat) :
    f.dropped m s = 0 ∨ 2 ^ f.fractionBits ≤ f.digits m s := by
  rcases Nat.eq_zero_or_pos (f.dropped m s) with hNone | hSome
  · exact .inl hNone
  · have hLeast := le_of_dropped hSome.ne'
    exact .inr (Nat.le_trans ((Nat.le_div_iff_mul_le (Nat.two_pow_pos _)).mpr hLeast)
      (le_roundShift _ _))

theorem digits_le (f : Format) (m s : Nat) : f.digits m s ≤ 2 * 2 ^ f.fractionBits := by
  have hBelow : m < 2 ^ (s + f.dropped m s) * (2 * 2 ^ f.fractionBits) := by
    refine Nat.lt_of_lt_of_le Nat.lt_log2_self ?_
    rw [← Nat.pow_succ', ← Nat.pow_add]
    refine Nat.pow_le_pow_right (by decide) ?_
    unfold dropped
    omega
  exact Nat.le_trans (roundShift_le _ _) (Nat.div_lt_of_lt_mul hBelow)

theorem units_nearest (f : Format) (m s : Nat) :
    f.units (f.nearest m s) = f.digits m s * 2 ^ f.dropped m s :=
  f.units_add (f.le_digits m s) (f.digits_le m s)

/-- The next magnitude is at least one digit further. -/
theorem le_units_nearest_succ (f : Format) (m s : Nat) :
    (f.digits m s + 1) * 2 ^ f.dropped m s ≤ f.units (f.nearest m s + 1) := by
  have hNormal := f.le_digits m s
  have hDigits := f.digits_le m s
  rw [nearest, Nat.add_assoc]
  rcases Nat.lt_or_ge (f.digits m s) (2 * 2 ^ f.fractionBits) with hShort | hCarry
  · exact Nat.le_of_eq (f.units_add (by omega) hShort).symm
  · -- The digits have carried, and the next magnitude is in the next binade.
    have hPos : 0 < 2 ^ f.fractionBits := Nat.two_pow_pos _
    have hSplit : f.dropped m s * 2 ^ f.fractionBits + (f.digits m s + 1) =
        (f.dropped m s + 1) * 2 ^ f.fractionBits + (2 ^ f.fractionBits + 1) := by
      rw [Nat.succ_mul]
      omega
    rw [hSplit, f.units_add (.inr (Nat.le_succ _)) (by omega), Nat.pow_succ', ← Nat.mul_assoc]
    exact Nat.mul_le_mul_right _ (by omega)

/-- The value `m / 2 ^ s` lies between the middles on both sides of magnitude `n`, and on one of
them only if `n` is even.  Twice the values are compared, with the denominator cleared. -/
structure RoundsTo (f : Format) (m s n : Nat) : Prop where
  le_upper : 2 * m ≤ f.units n * 2 ^ s + f.units (n + 1) * 2 ^ s
  lower_le : ∀ j, j + 1 = n → f.units j * 2 ^ s + f.units n * 2 ^ s ≤ 2 * m
  even_of_upper : 2 * m = f.units n * 2 ^ s + f.units (n + 1) * 2 ^ s → n % 2 = 0
  even_of_lower : ∀ j, j + 1 = n → f.units j * 2 ^ s + f.units n * 2 ^ s = 2 * m → n % 2 = 0

theorem even_nearest (hBits : 0 < f.fractionBits) (h : f.digits m s % 2 = 0) :
    f.nearest m s % 2 = 0 := by
  obtain ⟨rest, hRest⟩ : 2 ∣ 2 ^ f.fractionBits := dvd_pow_self 2 hBits.ne'
  rw [nearest, hRest, Nat.mul_left_comm]
  omega

/-- The value of the nearest magnitude, with the denominator cleared: a digit is worth
`2 ^ (s + dropped)`. -/
theorem units_nearest_mul (f : Format) (m s : Nat) :
    f.units (f.nearest m s) * 2 ^ s = f.digits m s * 2 ^ (s + f.dropped m s) := by
  rw [units_nearest, Nat.mul_assoc, ← Nat.pow_add, Nat.add_comm s]

/-- The magnitude below is one digit less, or it lies below the least digits of the binade and
so far away that the middle is too. -/
theorem units_of_succ_eq_nearest {j : Nat} (hj : j + 1 = f.nearest m s) :
    f.units j * 2 ^ s + 2 ^ (s + f.dropped m s) = f.units (f.nearest m s) * 2 ^ s ∨
      f.units j * 2 ^ s + f.units (f.nearest m s) * 2 ^ s < 2 * m := by
  have hDigits := f.digits_le m s
  -- Below a digit that is not the least one, the digits are those of the same binade.
  have hSame : ∀ d, f.digits m s = d + 1 →
      (f.dropped m s = 0 ∨ 2 ^ f.fractionBits ≤ d) →
      f.units j * 2 ^ s + 2 ^ (s + f.dropped m s) = f.units (f.nearest m s) * 2 ^ s := by
    intro d hd hNormal
    have hj : j = f.dropped m s * 2 ^ f.fractionBits + d := by
      rw [nearest, hd] at hj
      omega
    rw [units_nearest_mul, hj, f.units_add hNormal (by omega), hd, Nat.succ_mul, Nat.mul_assoc,
      ← Nat.pow_add, Nat.add_comm s]
  rcases Nat.eq_zero_or_pos (f.dropped m s) with hNone | hSome
  · refine .inl (hSame j ?_ (.inl hNone))
    rw [hj, nearest, hNone, Nat.zero_mul, Nat.zero_add]
  · have hLeast := le_of_dropped hSome.ne'
    have hNormal := (f.le_digits m s).resolve_left hSome.ne'
    rcases Nat.lt_or_ge (2 ^ f.fractionBits) (f.digits m s) with hAbove | hEnd
    · have hPos : 0 < f.digits m s := Nat.lt_of_le_of_lt (Nat.zero_le _) hAbove
      exact .inl (hSame (f.digits m s - 1) (by omega) (.inr (by omega)))
    · have hEnd : f.digits m s = 2 ^ f.fractionBits := Nat.le_antisymm hEnd hNormal
      have hLt := f.units_mul_lt s (show j < f.nearest m s by omega)
      rw [units_nearest_mul, hEnd] at hLt ⊢
      exact .inr (by omega)

/-- Rounding by shifts finds the nearest magnitude. -/
theorem roundsTo_nearest (hBits : 0 < f.fractionBits) (m s : Nat) :
    f.RoundsTo m s (f.nearest m s) := by
  obtain ⟨hUpper, hLower, hEven⟩ := roundShift_bounds m (s + f.dropped m s)
  rw [← digits] at hUpper hLower hEven
  have hHere := f.units_nearest_mul m s
  have hNext : (f.digits m s + 1) * 2 ^ (s + f.dropped m s) ≤
      f.units (f.nearest m s + 1) * 2 ^ s := by
    have hLe := Nat.mul_le_mul_right (2 ^ s) (f.le_units_nearest_succ m s)
    rwa [Nat.mul_assoc, ← Nat.pow_add, Nat.add_comm _ s] at hLe
  -- The bounds of the division, in digits.
  have hOdd : (2 * f.digits m s + 1) * 2 ^ (s + f.dropped m s) =
      f.digits m s * 2 ^ (s + f.dropped m s) +
        (f.digits m s + 1) * 2 ^ (s + f.dropped m s) := by ring
  have hTwice : 2 * f.digits m s * 2 ^ (s + f.dropped m s) =
      2 * (f.digits m s * 2 ^ (s + f.dropped m s)) := Nat.mul_assoc ..
  constructor
  case le_upper => omega
  case lower_le =>
    intro j hj
    have := units_of_succ_eq_nearest hj
    omega
  case even_of_upper =>
    intro hTie
    exact even_nearest hBits (hEven (.inl (by omega)))
  case even_of_lower =>
    intro j hj hTie
    have := units_of_succ_eq_nearest hj
    exact even_nearest hBits (hEven (.inr (by omega)))

namespace RoundsTo

/-- No magnitude has a nearer value. -/
theorem natAbs_sub_le (h : f.RoundsTo m s n) (other : Nat) :
    ((f.units n * 2 ^ s : Nat) - (m : Int)).natAbs ≤
      ((f.units other * 2 ^ s : Nat) - (m : Int)).natAbs := by
  rcases Nat.lt_trichotomy other n with hBelow | rfl | hAbove
  · obtain ⟨j, rfl⟩ : ∃ j, n = j + 1 := ⟨n - 1, by omega⟩
    have hLower := h.lower_le j rfl
    have hLe := f.units_mul_le s (Nat.le_of_lt_succ hBelow)
    have hLt := f.units_mul_lt s (Nat.lt_add_one j)
    omega
  · exact Nat.le_refl _
  · have hUpper := h.le_upper
    have hLe := f.units_mul_le s (Nat.add_one_le_of_lt hAbove)
    have hLt := f.units_mul_lt s (Nat.lt_add_one n)
    omega

/-- Of two magnitudes with values that are equally near, an even one is taken. -/
theorem even_of_natAbs_sub_eq (h : f.RoundsTo m s n) {other : Nat} (hOther : other ≠ n)
    (hSame : ((f.units other * 2 ^ s : Nat) - (m : Int)).natAbs =
      ((f.units n * 2 ^ s : Nat) - (m : Int)).natAbs) : n % 2 = 0 := by
  rcases Nat.lt_or_gt_of_ne hOther with hBelow | hAbove
  · obtain ⟨j, rfl⟩ : ∃ j, n = j + 1 := ⟨n - 1, by omega⟩
    have hLower := h.lower_le j rfl
    have hLe := f.units_mul_le s (Nat.le_of_lt_succ hBelow)
    have hLt := f.units_mul_lt s hBelow
    exact h.even_of_lower j rfl (by omega)
  · have hUpper := h.le_upper
    have hLe := f.units_mul_le s (Nat.add_one_le_of_lt hAbove)
    have hLt := f.units_mul_lt s hAbove
    exact h.even_of_upper (by omega)

/-- Larger values are not rounded to smaller magnitudes. -/
theorem mono (h : f.RoundsTo m s n) (h' : f.RoundsTo m' s n') (hLe : m ≤ m') : n ≤ n' := by
  by_contra hNot
  have hBelow : n' < n := Nat.lt_of_not_le hNot
  obtain ⟨j, rfl⟩ : ∃ j, n = j + 1 := ⟨n - 1, by omega⟩
  have hLower := h.lower_le j rfl
  have hUpper := h'.le_upper
  have hHere := f.units_mul_le s (Nat.le_of_lt_succ hBelow)
  have hNext := f.units_mul_le s (Nat.add_le_add_right (Nat.le_of_lt_succ hBelow) 1)
  -- Both values are on the middle between the two magnitudes, and only one of these is even.
  have hEven := h.even_of_lower j rfl (by omega)
  have hEven' := h'.even_of_upper (by omega)
  rcases Nat.lt_or_eq_of_le (Nat.le_of_lt_succ hBelow) with hGap | rfl
  · have := f.units_mul_lt s hGap
    omega
  · omega

/-- The value of a magnitude is rounded to it. -/
theorem eq_of_units (h : f.RoundsTo (f.units n' * 2 ^ s) s n) : n = n' := by
  rcases Nat.lt_trichotomy n n' with hBelow | hSame | hAbove
  · have hUpper := h.le_upper
    have hNext := f.units_mul_le s (Nat.add_one_le_of_lt hBelow)
    have hLt := f.units_mul_lt s hBelow
    omega
  · exact hSame
  · obtain ⟨j, rfl⟩ : ∃ j, n = j + 1 := ⟨n - 1, by omega⟩
    have hLower := h.lower_le j rfl
    have hHere := f.units_mul_le s (Nat.le_of_lt_succ hAbove)
    have hLt := f.units_mul_lt s hAbove
    omega

/-- A value is rounded to an even magnitude or further from the middle below it on. -/
theorem le_iff (h : f.RoundsTo m s n) {j : Nat} (hEven : (j + 1) % 2 = 0) :
    j + 1 ≤ n ↔ f.units j * 2 ^ s + f.units (j + 1) * 2 ^ s ≤ 2 * m := by
  constructor
  · intro hLe
    obtain ⟨i, rfl⟩ : ∃ i, n = i + 1 := ⟨n - 1, by omega⟩
    have hLower := h.lower_le i rfl
    have hHere := f.units_mul_le s (Nat.le_of_succ_le_succ hLe)
    have hNext := f.units_mul_le s hLe
    omega
  · intro hMiddle
    by_contra hNot
    have hLe : n ≤ j := by omega
    have hUpper := h.le_upper
    have hHere := f.units_mul_le s hLe
    have hNext := f.units_mul_le s (Nat.add_le_add_right hLe 1)
    have hEven' := h.even_of_upper (by omega)
    rcases Nat.lt_or_eq_of_le hLe with hGap | rfl
    · have := f.units_mul_lt s hGap
      omega
    · omega

/-- A value is rounded to an even magnitude or to a smaller one up to the middle above it. -/
theorem ge_iff (h : f.RoundsTo m s n) {j : Nat} (hEven : j % 2 = 0) :
    n ≤ j ↔ 2 * m ≤ f.units j * 2 ^ s + f.units (j + 1) * 2 ^ s := by
  constructor
  · intro hLe
    have hUpper := h.le_upper
    have hHere := f.units_mul_le s hLe
    have hNext := f.units_mul_le s (Nat.add_le_add_right hLe 1)
    omega
  · intro hMiddle
    by_contra hNot
    obtain ⟨i, rfl⟩ : ∃ i, n = i + 1 := ⟨n - 1, by omega⟩
    have hLower := h.lower_le i rfl
    have hHere := f.units_mul_le s (show j ≤ i by omega)
    have hNext := f.units_mul_le s (show j + 1 ≤ i + 1 by omega)
    have hEven' := h.even_of_lower i rfl (by omega)
    rcases Nat.lt_or_eq_of_le (show j ≤ i by omega) with hGap | rfl
    · have := f.units_mul_lt s hGap
      omega
    · omega

end RoundsTo

end Format

end Columnar
