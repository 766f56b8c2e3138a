import Columnar.Proofs.Binary.Narrowing
import Columnar.Proofs.Binary.Nearest

/-!
# Rounding an integer in two steps

An integer that is rounded to double precision and from there to single precision is rounded
twice.  Every middle of two neighbours in single precision is a double, so the first step cannot
cross one; but it can end on one, and then the second step has lost the side on which the integer
lay.

* `Format.exists_units_eq_middle` -- the middles of single precision are doubles.
* `Format.nearest_nearest` -- two steps end where one step ends, unless the first one ends on a
  middle on the wrong side of the integer.
* `Binary.Astray` -- what that means for the values.
* `Binary.convert_ofInt_eq_ofInt` -- two steps end where one step ends when no neighbours lead them
  astray, and `Binary.isNearest_convert_ofInt_iff` -- only then at the nearest single.
* `Binary.not_astray_of_lt` -- an integer that is a double is led astray by nothing.
-/

namespace Columnar

namespace Format

variable {f : Format} {m s n : Nat}

@[simp]
theorem fractionBits_double : double.fractionBits = 52 := rfl

@[simp]
theorem scale_double : double.scale = 1074 := rfl

/-- A value is rounded to one magnitude only. -/
theorem RoundsTo.unique {n' : Nat} (h : f.RoundsTo m s n) (h' : f.RoundsTo m s n') : n = n' :=
  Nat.le_antisymm (h.mono h' (Nat.le_refl m)) (h'.mono h (Nat.le_refl m))

/-- A middle is rounded to the even one of its neighbours. -/
theorem roundsTo_of_middle {j : Nat}
    (hMiddle : f.units j * 2 ^ s + f.units (j + 1) * 2 ^ s = 2 * m) (hNear : n = j ∨ n = j + 1)
    (hEven : n % 2 = 0) : f.RoundsTo m s n := by
  constructor
  case le_upper =>
    have hHere := f.units_mul_le s (show j ≤ n by omega)
    have hNext := f.units_mul_le s (show j + 1 ≤ n + 1 by omega)
    omega
  case lower_le =>
    intro i hi
    have hBelow := f.units_mul_le s (show i ≤ j by omega)
    have hHere := f.units_mul_le s (show n ≤ j + 1 by omega)
    omega
  case even_of_upper => exact fun _ => hEven
  case even_of_lower => exact fun _ _ _ => hEven

theorem log2_mul_two_pow {m : Nat} (hPos : 0 < m) (j : Nat) :
    Nat.log2 (m * 2 ^ j) = Nat.log2 m + j := by
  induction j with
  | zero => simp
  | succ j ih =>
      have hNonzero : m * 2 ^ j ≠ 0 := by positivity
      rw [Nat.pow_succ', Nat.mul_left_comm, Nat.log2_two_mul hNonzero, ih, Nat.add_assoc]

/-- The nearest magnitude does not depend on the units in which a value is given. -/
theorem nearest_mul_two_pow (f : Format) (m s j : Nat) :
    f.nearest (m * 2 ^ j) (s + j) = f.nearest m s := by
  rcases Nat.eq_zero_or_pos m with rfl | hPos
  · simp [nearest, dropped, digits, roundShift]
  · have hDropped : f.dropped (m * 2 ^ j) (s + j) = f.dropped m s := by
      rw [dropped, dropped, log2_mul_two_pow hPos]
      omega
    rw [nearest, nearest, digits, digits, hDropped, Nat.add_right_comm, roundShift_mul_two_pow]

/-- A value of few enough digits is a double. -/
theorem units_nearest_double {q : Nat} (hDigits : q < 2 ^ 53) (k : Nat) :
    double.units (double.nearest (q * 2 ^ k) 0) = q * 2 ^ k := by
  have hExact : 2 ^ (0 + double.dropped (q * 2 ^ k) 0) ∣ q * 2 ^ k := by
    rcases Nat.eq_zero_or_pos q with rfl | hPos
    · simp
    · have hLog := (Nat.log2_lt hPos.ne').mpr hDigits
      refine Nat.dvd_trans (Nat.pow_dvd_pow 2 ?_) (Nat.dvd_mul_left _ q)
      rw [dropped, fractionBits_double, log2_mul_two_pow hPos]
      omega
  have hUnits := units_nearest_of_dvd hExact
  rwa [Nat.pow_zero, Nat.mul_one] at hUnits

/-- Rounding leaves an integer alone that is a double. -/
theorem units_nearest_intUnits {n : Int} (h : n.natAbs < 2 ^ 53) :
    double.units (double.nearest (double.intUnits n) 0) = double.intUnits n :=
  units_nearest_double h double.scale

/-- The middle of two neighbours in single precision is a double, in whatever units. -/
theorem exists_units_eq_middle (s j : Nat) :
    ∃ d, 2 * double.units d =
      single.units j * 2 ^ (s + 1) + single.units (j + 1) * 2 ^ (s + 1) := by
  obtain ⟨k, q, rfl, hNormal, hDigits⟩ := single.exists_digits j
  rw [fractionBits_single] at hDigits
  refine ⟨double.nearest ((2 * q + 1) * 2 ^ (k + s)) 0, ?_⟩
  have hNext : k = 0 ∨ 2 ^ single.fractionBits ≤ q + 1 := by omega
  have hFew : q ≤ 2 ^ (single.fractionBits + 1) := by
    rw [fractionBits_single]
    omega
  have hFewNext : q + 1 ≤ 2 ^ (single.fractionBits + 1) := by
    rw [fractionBits_single]
    omega
  rw [units_nearest_double (by omega), Nat.add_assoc, single.units_add hNormal hFew,
    single.units_add hNext hFewNext, Nat.pow_succ, Nat.pow_add]
  ring

/-- When the middles of `f` are values of a finer format `g`, the nearest value of `g` lies on the
same side of every middle as the value that is rounded, or on the middle.  So a second step to
`f` ends where a single step ends, unless the first one ends on a middle and the value lies on the
side of the odd neighbour. -/
theorem nearest_nearest {g : Format} (hf : 0 < f.fractionBits) (hg : 0 < g.fractionBits)
    (hMiddles : ∀ j, ∃ d, 2 * g.units d = f.units j * 2 ^ s + f.units (j + 1) * 2 ^ s) (m : Nat) :
    f.nearest (g.units (g.nearest m 0)) s = f.nearest m s ∨
      ∃ j, f.units j * 2 ^ s + f.units (j + 1) * 2 ^ s = 2 * g.units (g.nearest m 0) ∧
        (j % 2 = 0 ∧ g.units (g.nearest m 0) < m ∨ j % 2 = 1 ∧ m < g.units (g.nearest m 0)) := by
  have hOnce := f.roundsTo_nearest hf m s
  have hTwice := f.roundsTo_nearest hf (g.units (g.nearest m 0)) s
  have hNearer := (g.roundsTo_nearest hg m 0).natAbs_sub_le
  simp only [Nat.pow_zero, Nat.mul_one] at hNearer
  generalize g.units (g.nearest m 0) = u at hTwice hNearer ⊢
  generalize f.nearest m s = n at hOnce ⊢
  generalize f.nearest u s = n' at hTwice ⊢
  rcases Nat.lt_trichotomy n n' with hUp | hSame | hDown
  · -- The value is not above the middle behind `n`, and the double not below it.
    obtain ⟨i, rfl⟩ : ∃ i, n' = i + 1 := ⟨n' - 1, by omega⟩
    obtain ⟨d, hd⟩ := hMiddles n
    have hDouble := hNearer d
    have hUpper := hOnce.le_upper
    have hLower := hTwice.lower_le i rfl
    have hHere := f.units_mul_le s (show n ≤ i by omega)
    have hNext := f.units_mul_le s (show n + 1 ≤ i + 1 by omega)
    obtain rfl : i = n := by
      by_contra hNot
      have hGap := f.units_mul_lt s (show n < i by omega)
      omega
    have hEven := hTwice.even_of_lower i rfl (by omega)
    refine .inr ⟨i, by omega, .inr ⟨by omega, ?_⟩⟩
    by_contra hNot
    have hOdd := hOnce.even_of_upper (by omega)
    omega
  · exact .inl hSame.symm
  · -- The value is not below the middle before `n`, and the double not above it.
    obtain ⟨i, rfl⟩ : ∃ i, n = i + 1 := ⟨n - 1, by omega⟩
    obtain ⟨d, hd⟩ := hMiddles i
    have hDouble := hNearer d
    have hUpper := hTwice.le_upper
    have hLower := hOnce.lower_le i rfl
    have hHere := f.units_mul_le s (show n' ≤ i by omega)
    have hNext := f.units_mul_le s (show n' + 1 ≤ i + 1 by omega)
    obtain rfl : i = n' := by
      by_contra hNot
      have hGap := f.units_mul_lt s (show n' < i by omega)
      omega
    have hEven := hTwice.even_of_upper (by omega)
    refine .inr ⟨i, by omega, .inl ⟨hEven, ?_⟩⟩
    by_contra hNot
    have hOdd := hOnce.even_of_lower i rfl (by omega)
    omega

/-- The values nearest to integers ascend. -/
theorem nearest_intUnits_le (hBits : 0 < f.fractionBits) {a b : Int} (h : a.natAbs ≤ b.natAbs) :
    f.nearest (f.intUnits a) 0 ≤ f.nearest (f.intUnits b) 0 :=
  (f.roundsTo_nearest hBits _ 0).mono (f.roundsTo_nearest hBits _ 0) (Nat.mul_le_mul_right _ h)

section Finer

-- A unit of single precision is `2 ^ s` units of double precision.
variable (hScale : double.scale = single.scale + s)
include hScale

theorem intUnits_double (n : Int) : double.intUnits n = single.intUnits n * 2 ^ s := by
  rw [intUnits, intUnits, hScale, Nat.pow_add, Nat.mul_assoc]

/-- No integer of a machine word overflows, in one step or in two. -/
theorem nearest_intUnits_lt {n : Int} (h : n.natAbs ≤ 2 ^ 64) :
    double.nearest (double.intUnits n) 0 < double.infinity ∧
      single.nearest (double.units (double.nearest (double.intUnits n) 0)) s + 1 <
        single.infinity ∧
      single.nearest (single.intUnits n) 0 < single.infinity := by
  obtain rfl : s = 925 := by
    rw [scale_double, scale_single] at hScale
    omega
  have hDouble := double.nearest_intUnits_le (b := 2 ^ 64) (by decide) h
  have hSingle := single.nearest_intUnits_le (b := 2 ^ 64) (by decide) h
  have hTwice := (single.roundsTo_nearest (by decide) _ 925).mono
    (single.roundsTo_nearest (by decide) _ 925) (double.strictMono_units.monotone hDouble)
  have hLast : double.nearest (double.intUnits (2 ^ 64)) 0 < double.infinity ∧
      single.nearest (double.units (double.nearest (double.intUnits (2 ^ 64)) 0)) 925 + 1 <
        single.infinity ∧
      single.nearest (single.intUnits (2 ^ 64)) 0 < single.infinity := by
    decide +kernel
  omega

end Finer

end Format

section Sides

variable {a b c s u : Nat}

/-- On which side of a middle a number lies may be decided in coarser units. -/
theorem lt_mul_iff_of_middle (hMiddle : a * 2 ^ s + b * 2 ^ s = 2 * u) :
    u < c * 2 ^ s ↔ a + b < 2 * c := by
  have hScaleUp := Nat.mul_lt_mul_right (a := 2 ^ s) (b := a + b) (c := 2 * c) (Nat.two_pow_pos s)
  rw [← hScaleUp, Nat.add_mul, Nat.mul_assoc]
  omega

theorem mul_lt_iff_of_middle (hMiddle : a * 2 ^ s + b * 2 ^ s = 2 * u) :
    c * 2 ^ s < u ↔ 2 * c < a + b := by
  have hScaleUp := Nat.mul_lt_mul_right (a := 2 ^ s) (b := 2 * c) (c := a + b) (Nat.two_pow_pos s)
  rw [← hScaleUp, Nat.add_mul, Nat.mul_assoc]
  omega

/-- Above the middle of two numbers the larger one is nearer, and below it the smaller one. -/
theorem natAbs_lt_of_above (hLt : a < b) (h : a + b < 2 * c) :
    ((b : Int) - c).natAbs < ((a : Int) - c).natAbs := by
  omega

theorem natAbs_lt_of_below (hLt : a < b) (h : 2 * c < a + b) :
    ((a : Int) - c).natAbs < ((b : Int) - c).natAbs := by
  omega

end Sides

namespace Binary

/-- The nearest double lies in the middle of two neighbours in single precision, and the even one
of them, to which the middle is rounded, is not the one that is nearer to the integer. -/
structure Astray (n : Int) (near far : Binary .single) : Prop where
  isNegative_near : near.isNegative = decide (n < 0)
  isNegative_far : far.isNegative = decide (n < 0)
  neighbours : near.magnitude + 1 = far.magnitude ∨ far.magnitude + 1 = near.magnitude
  isFinite_near : near.isFinite = true
  even_far : far.toNat % 2 = 0
  middle : near.toRat + far.toRat = 2 * (ofInt .double n).toRat
  nearer : |near.toRat - n| < |far.toRat - n|

section Finer

variable {n : Int} {s : Nat} (hScale : Format.double.scale = Format.single.scale + s)
  (h : n.natAbs ≤ 2 ^ 64)
include hScale h

/-- The pattern of an integer that was rounded in two steps. -/
theorem convert_ofInt_eq :
    (ofInt .double n).convert .single = ofMagnitude .single (decide (n < 0))
      (Format.single.nearest
        (Format.double.units (Format.double.nearest (Format.double.intUnits n) 0)) s) := by
  obtain ⟨hDouble, hTwice, -⟩ := Format.nearest_intUnits_lt hScale h
  have hFinite := isFinite_ofInt hDouble
  have hFine : Format.single.scale - Format.double.scale = 0 := by omega
  have hCoarse : Format.double.scale - Format.single.scale = s := by omega
  rw [convert, isNaN_of_isFinite hFinite, if_neg Bool.false_ne_true,
    isInfinite_of_isFinite hFinite, if_neg Bool.false_ne_true, isNegative_ofInt hDouble,
    magnitude_ofInt hDouble, hFine, hCoarse, Nat.pow_zero, Nat.mul_one, Format.round_eq_min,
    Nat.min_eq_right (Nat.le_of_succ_le hTwice.le)]

/-- In units: twice the nearest double is the sum of the neighbours. -/
theorem middle_iff {near far : Binary .single} (hNear : near.isNegative = decide (n < 0))
    (hFar : far.isNegative = decide (n < 0)) :
    near.toRat + far.toRat = 2 * (ofInt .double n).toRat ↔
      Format.single.units near.magnitude * 2 ^ s + Format.single.units far.magnitude * 2 ^ s =
        2 * Format.double.units (Format.double.nearest (Format.double.intUnits n) 0) := by
  obtain ⟨hDouble, -, -⟩ := Format.nearest_intUnits_lt hScale h
  rw [toRat, toRat, toRat, hNear, hFar, isNegative_ofInt hDouble, magnitude_ofInt hDouble]
  generalize Format.double.units _ = u
  generalize Format.single.units near.magnitude = a
  generalize Format.single.units far.magnitude = b
  have hSign : (if decide (n < 0) then (-1 : ℚ) else 1) ≠ 0 := by
    split <;> norm_num
  rw [← mul_add, mul_left_comm 2, mul_right_inj' hSign, hScale, pow_add, ← Nat.cast_inj (R := ℚ)]
  push_cast
  field_simp

/-- The even neighbour of a middle is what two steps give. -/
theorem Astray.convert_eq {near far : Binary .single} (hAstray : Astray n near far) :
    (ofInt .double n).convert .single = far := by
  have hMiddle :=
    (middle_iff hScale h hAstray.isNegative_near hAstray.isNegative_far).mp hAstray.middle
  have hEven := hAstray.even_far
  rw [toNat_mod_two (by decide)] at hEven
  have hRounds : Format.single.RoundsTo
      (Format.double.units (Format.double.nearest (Format.double.intUnits n) 0)) s
      far.magnitude := by
    rcases hAstray.neighbours with hAbove | hBelow
    · rw [← hAbove] at hMiddle
      exact Format.roundsTo_of_middle hMiddle (.inr hAbove.symm) hEven
    · rw [← hBelow, Nat.add_comm] at hMiddle
      exact Format.roundsTo_of_middle hMiddle (.inl rfl) hEven
  have hMagnitude := hRounds.unique (Format.single.roundsTo_nearest (by decide) _ s)
  rw [convert_ofInt_eq hScale h, ← hMagnitude, ← hAstray.isNegative_far, ofMagnitude_eq]

/-- Neighbours in single precision lead astray when the nearest double is their middle and the odd
one is nearer to the integer. -/
theorem astray_ofMagnitude {a b : Nat} (hNeighbours : a + 1 = b ∨ b + 1 = a)
    (ha : a < Format.single.infinity) (hb : b < Format.single.infinity) (hEven : b % 2 = 0)
    (hMiddle : Format.single.units a * 2 ^ s + Format.single.units b * 2 ^ s =
      2 * Format.double.units (Format.double.nearest (Format.double.intUnits n) 0))
    (hNearer : ((Format.single.units a : Int) - Format.single.intUnits n).natAbs <
      ((Format.single.units b : Int) - Format.single.intUnits n).natAbs) :
    Astray n (ofMagnitude .single (decide (n < 0)) a) (ofMagnitude .single (decide (n < 0)) b) := by
  have hWeight := Format.single.infinity_lt_signWeight
  have hNear := magnitude_ofMagnitude (decide (n < 0)) (Nat.lt_trans ha hWeight)
  have hFar := magnitude_ofMagnitude (decide (n < 0)) (Nat.lt_trans hb hWeight)
  have hSignNear := isNegative_ofMagnitude (decide (n < 0)) (Nat.lt_trans ha hWeight)
  have hSignFar := isNegative_ofMagnitude (decide (n < 0)) (Nat.lt_trans hb hWeight)
  have hPos : (0 : ℚ) < 2 ^ Format.single.scale := by positivity
  constructor
  case isNegative_near => exact hSignNear
  case isNegative_far => exact hSignFar
  case neighbours => rwa [hNear, hFar]
  case isFinite_near => exact isFinite_ofMagnitude _ ha
  case even_far => rw [toNat_mod_two (by decide), hFar, hEven]
  case middle => rw [middle_iff hScale h hSignNear hSignFar, hNear, hFar, hMiddle]
  case nearer =>
    rw [abs_toRat_sub_intCast hSignNear, abs_toRat_sub_intCast hSignFar, hNear, hFar,
      div_lt_div_iff_of_pos_right hPos, Nat.cast_lt]
    exact hNearer

/-- The neighbours of a middle on which the first step ends lead astray, when the integer lies on
the side of the odd one. -/
theorem exists_astray {j : Nat}
    (hMiddle : Format.single.units j * 2 ^ s + Format.single.units (j + 1) * 2 ^ s =
      2 * Format.double.units (Format.double.nearest (Format.double.intUnits n) 0))
    (hSide : j % 2 = 0 ∧
        Format.double.units (Format.double.nearest (Format.double.intUnits n) 0) <
          Format.double.intUnits n ∨
      j % 2 = 1 ∧ Format.double.intUnits n <
        Format.double.units (Format.double.nearest (Format.double.intUnits n) 0)) :
    ∃ near far, Astray n near far := by
  obtain ⟨-, hTwice, -⟩ := Format.nearest_intUnits_lt hScale h
  have hAstray := @astray_ofMagnitude n s hScale h
  generalize Format.double.units (Format.double.nearest (Format.double.intUnits n) 0) = u
    at hMiddle hSide hTwice hAstray
  -- Neither neighbour is an infinity, since the even one is where two steps end.
  have hReach : j + 1 < Format.single.infinity := by
    obtain ⟨e, hNear, hEven⟩ : ∃ e, (e = j ∨ e = j + 1) ∧ e % 2 = 0 := by
      rcases Nat.mod_two_eq_zero_or_one j with hEven | hOdd
      · exact ⟨j, .inl rfl, hEven⟩
      · exact ⟨j + 1, .inr rfl, by omega⟩
    have := (Format.roundsTo_of_middle hMiddle hNear hEven).unique
      (Format.single.roundsTo_nearest (by decide) u s)
    omega
  have hLast : j < Format.single.infinity := Nat.lt_of_succ_lt hReach
  have hLt := Format.single.units_lt_units_succ j
  rw [Format.intUnits_double hScale, lt_mul_iff_of_middle hMiddle, mul_lt_iff_of_middle hMiddle]
    at hSide
  rcases hSide with ⟨hEven, hAbove⟩ | ⟨hOdd, hBelow⟩
  · rw [Nat.add_comm] at hMiddle
    exact ⟨_, _, hAstray (.inr rfl) hReach hLast hEven hMiddle (natAbs_lt_of_above hLt hAbove)⟩
  · exact ⟨_, _, hAstray (.inl rfl) hLast hReach (by omega) hMiddle
      (natAbs_lt_of_below hLt hBelow)⟩

end Finer

/-- Two steps end where one step ends, unless neighbours lead them astray. -/
theorem convert_ofInt_eq_ofInt {n : Int} (h : n.natAbs ≤ 2 ^ 64)
    (hNone : ¬∃ near far, Astray n near far) :
    (ofInt .double n).convert .single = ofInt .single n := by
  obtain ⟨s, hScale⟩ : ∃ s, Format.double.scale = Format.single.scale + (s + 1) := ⟨924, rfl⟩
  obtain ⟨-, -, hSingle⟩ := Format.nearest_intUnits_lt hScale h
  have hOnce := Format.nearest_mul_two_pow .single (Format.single.intUnits n) 0 (s + 1)
  rw [Nat.zero_add, ← Format.intUnits_double hScale] at hOnce
  rcases Format.nearest_nearest (f := .single) (g := .double) (by decide) (by decide)
      (Format.exists_units_eq_middle s) (Format.double.intUnits n) with
    hSame | ⟨j, hMiddle, hSide⟩
  · rw [convert_ofInt_eq hScale h, hSame, hOnce, ← ofInt_eq hSingle]
  · exact absurd (exists_astray hScale h hMiddle hSide) hNone

/-- Neighbours that lead astray do so to a single which is not the nearest. -/
theorem Astray.not_isNearest {n : Int} {near far : Binary .single} (hAstray : Astray n near far) :
    ¬far.IsNearest n :=
  fun hNearest => absurd (hNearest.abs_sub_le near hAstray.isFinite_near) hAstray.nearer.not_ge

/-- Rounding to single precision gives the single nearest to an integer of a machine word. -/
theorem isNearest_ofInt_single {n : Int} (h : n.natAbs ≤ 2 ^ 64) :
    (ofInt .single n).IsNearest n :=
  isNearest_ofInt (Format.nearest_intUnits_lt (s := 925) rfl h).2.2 (by decide)

/-- Two steps give the single nearest to an integer exactly when no neighbours lead astray. -/
theorem isNearest_convert_ofInt_iff {n : Int} (h : n.natAbs ≤ 2 ^ 64) :
    ((ofInt .double n).convert .single).IsNearest n ↔ ¬∃ near far, Astray n near far := by
  constructor
  · rintro hNearest ⟨near, far, hAstray⟩
    rw [hAstray.convert_eq (s := 925) rfl h] at hNearest
    exact hAstray.not_isNearest hNearest
  · intro hNone
    rw [convert_ofInt_eq_ofInt h hNone]
    exact isNearest_ofInt_single h

/-- An integer that is a double is led astray by nothing. -/
theorem not_astray_of_lt {n : Int} (h : n.natAbs < 2 ^ 53) : ¬∃ near far, Astray n near far := by
  rintro ⟨near, far, hAstray⟩
  have hFinite : Format.double.nearest (Format.double.intUnits n) 0 < Format.double.infinity :=
    (Format.nearest_intUnits_lt (s := 925) rfl (by omega)).1
  have hExact : (ofInt .double n).toRat = n := by
    rw [toRat, isNegative_ofInt hFinite, magnitude_ofInt hFinite, intCast_eq .double n,
      Format.units_nearest_intUnits h]
  have hMiddle := hAstray.middle
  have hOpposite : near.toRat - n = -(far.toRat - n) := by
    rw [hExact] at hMiddle
    linarith
  have hNearer := hAstray.nearer
  rw [hOpposite, abs_neg] at hNearer
  exact lt_irrefl _ hNearer

end Binary

end Columnar
