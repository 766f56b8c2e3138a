import Columnar.Proofs.Binary.TwoSteps
import Columnar.Proofs.Kernel.Comparison

/-!
# Integer literals in columns of half and single precision

Both kinds of column hold singles for a comparison, and an integer literal becomes a single in two
steps, through a double.  Where the second step lands beside the single nearest to the integer, a
column of singles tells the two apart.  A column of halves does not: every single beside which the
second step can land lies past all finite halves.

* `DataType.ComparesAs` -- kernels and decoded elements answer as if the literal were this single.
* `DataType.comparesAs_convert` -- it is the single that two steps give.
* `Binary.compare?_widen_congr` -- halves do not tell singles apart that lie past them.
* `DataType.comparesAs_nearest_iff` -- it is the nearest single in every column of halves, and in
  a column of singles exactly for the literals that no neighbours lead astray.
-/

namespace Columnar

/-- Comparisons of elements of a type with an integer literal are comparisons with the single `x`,
in kernels as well as for decoded elements. -/
def DataType.ComparesAs (t : DataType) (n : Int) (x : Binary .single) : Prop :=
  ∀ (op : Comparison) (w : Nat), ∃ lane test v,
    t.lane? = some lane ∧ lane.test? op (.integer n) = some test ∧
      t.scalar? w = some (.single v) ∧
      test.holds w = op.acceptsPartial (v.compare? x) ∧
      (Scalar.single v).satisfies op (.integer n) = .ok (op.acceptsPartial (v.compare? x))

@[simp]
theorem Comparison.acceptsPartial_eq_iff (order : Option Ordering) :
    Comparison.eq.acceptsPartial order = true ↔ order = some .eq := by
  cases order <;> simp [acceptsPartial, accepts]

namespace Binary

/-- Whether a finite single lies past every finite half. -/
structure PastHalves (x : Binary .single) : Prop where
  isFinite_eq : x.isFinite = true
  magnitude_lt : ∀ h : Binary .half, h.isFinite = true → h.widen.magnitude < x.magnitude

/-- Halves do not tell singles apart that lie past them on the same side. -/
theorem compare?_widen_congr {x y : Binary .single} (hSign : x.isNegative = y.isNegative)
    (hx : x.PastHalves) (hy : y.PastHalves) (h : Binary .half) :
    h.widen.compare? x = h.widen.compare? y := by
  cases hNaN : h.isNaN with
  | true =>
      rw [(compare?_eq_none_iff _ _).mpr (.inl (isNaN_widen hNaN)),
        (compare?_eq_none_iff _ _).mpr (.inl (isNaN_widen hNaN))]
  | false =>
      have hxInfinity : x.magnitude < Format.single.infinity := of_decide_eq_true hx.isFinite_eq
      have hyInfinity : y.magnitude < Format.single.infinity := of_decide_eq_true hy.isFinite_eq
      have hBeside : h.widen.magnitude < x.magnitude ∧ h.widen.magnitude < y.magnitude ∨
          h.widen.magnitude = Format.single.infinity := by
        rcases isFinite_or_isInfinite hNaN with hFinite | hInfinite
        · exact .inl ⟨hx.magnitude_lt h hFinite, hy.magnitude_lt h hFinite⟩
        · exact .inr (of_decide_eq_true (isInfinite_widen hInfinite))
      have hSide : h.widen.rank < x.rank ∧ h.widen.rank < y.rank ∨
          x.rank < h.widen.rank ∧ y.rank < h.widen.rank := by
        rw [rank, rank, rank, hSign]
        cases h.widen.isNegative <;> cases y.isNegative <;>
          simp only [Bool.false_eq_true, if_false, if_true] <;> omega
      have hOrder : compare h.widen.rank x.rank = compare h.widen.rank y.rank := by
        rcases hSide with ⟨hx, hy⟩ | ⟨hx, hy⟩
        · rw [compare_lt_iff_lt.mpr hx, compare_lt_iff_lt.mpr hy]
        · rw [compare_gt_iff_gt.mpr hx, compare_gt_iff_gt.mpr hy]
      rw [compare?, compare?, isNaN_of_isFinite hx.isFinite_eq, isNaN_of_isFinite hy.isFinite_eq,
        hOrder]

/-- A magnitude of no less than `2 ^ 16` lies past every finite half. -/
theorem pastHalves_ofMagnitude {m : Nat} (negative : Bool) (hFinite : m < Format.single.infinity)
    (hLeast : Format.single.nearest (Format.single.intUnits (2 ^ 16)) 0 ≤ m) :
    (ofMagnitude .single negative m).PastHalves := by
  constructor
  case isFinite_eq => exact isFinite_ofMagnitude negative hFinite
  case magnitude_lt =>
    intro h hHalf
    have hEnd : Format.half.units Format.half.infinity * 2 ^ 125 =
        Format.single.units (Format.single.nearest (Format.single.intUnits (2 ^ 16)) 0) := by
      decide +kernel
    rw [magnitude_ofMagnitude _ (Nat.lt_trans hFinite Format.single.infinity_lt_signWeight)]
    refine Nat.lt_of_lt_of_le (Format.single.strictMono_units.lt_iff_lt.mp ?_) hLeast
    rw [units_magnitude_widen hHalf, ← hEnd]
    exact Format.half.units_mul_lt 125 (of_decide_eq_true hHalf)

section Word

variable {n : Int} (h : n.natAbs ≤ 2 ^ 64)
include h

/-- Both ways give a single of the same sign. -/
theorem isNegative_convert_ofInt :
    ((ofInt .double n).convert .single).isNegative = (ofInt .single n).isNegative := by
  have hWeight := Format.single.infinity_lt_signWeight
  obtain ⟨-, hTwice, hOnce⟩ := Format.nearest_intUnits_lt (s := 925) rfl h
  rw [convert_ofInt_eq (s := 925) rfl h, isNegative_ofMagnitude _ (by omega),
    isNegative_ofInt hOnce]

variable (hLeast : (2 ^ 16 : Int).natAbs ≤ n.natAbs)
include hLeast

theorem pastHalves_ofInt : (ofInt .single n).PastHalves := by
  obtain ⟨-, -, hFinite⟩ := Format.nearest_intUnits_lt (s := 925) rfl h
  rw [ofInt_eq hFinite]
  exact pastHalves_ofMagnitude _ hFinite (Format.nearest_intUnits_le (by decide) hLeast)

theorem pastHalves_convert_ofInt : ((ofInt .double n).convert .single).PastHalves := by
  obtain ⟨s, hScale⟩ : ∃ s, Format.double.scale = Format.single.scale + s := ⟨925, rfl⟩
  obtain ⟨-, hFinite, -⟩ := Format.nearest_intUnits_lt hScale h
  rw [convert_ofInt_eq hScale h]
  refine pastHalves_ofMagnitude _ (Nat.lt_of_succ_lt hFinite) ?_
  -- `2 ^ 16` is a double and a single, so both steps leave it alone.
  have hExact := Format.units_nearest_intUnits (n := 2 ^ 16) (by decide)
  have hOnce := Format.nearest_mul_two_pow .single (Format.single.intUnits (2 ^ 16)) 0 s
  have hSteps := Format.double.strictMono_units.monotone
    (Format.nearest_intUnits_le (f := .double) (by decide) hLeast)
  rw [← Format.intUnits_double hScale, Nat.zero_add] at hOnce
  rw [hExact] at hSteps
  rw [← hOnce]
  exact (Format.roundsTo_nearest (by decide) _ s).mono (Format.roundsTo_nearest (by decide) _ s)
    hSteps

end Word

end Binary

namespace DataType

variable {t : DataType} {n : Int}

/-- The single that comparisons with an integer literal use: it went through a double. -/
theorem comparesAs_convert (hType : t = .half ∨ t = .float) (n : Int) :
    t.ComparesAs n ((Binary.ofInt .double n).convert .single) := by
  intro op w
  rcases hType with rfl | rfl
  · have hTest : Lane.half.test? op (.integer n) = some (.half op _) := rfl
    exact ⟨_, _, _, rfl, hTest, rfl, rfl, Scalar.satisfies_half hTest w⟩
  · have hTest : Lane.single.test? op (.integer n) = some (.single op _) := rfl
    exact ⟨_, _, _, rfl, hTest, rfl, rfl, Scalar.satisfies_single hTest w⟩

/-- Two singles serve a type alike when its elements do not tell them apart. -/
theorem ComparesAs.congr {x y : Binary .single} (h : t.ComparesAs n x)
    (hSame : ∀ w v, t.scalar? w = some (.single v) → v.compare? x = v.compare? y) :
    t.ComparesAs n y := by
  intro op w
  obtain ⟨lane, test, v, hLane, hTest, hScalar, hHolds, hSatisfies⟩ := h op w
  rw [hSame w v hScalar] at hHolds hSatisfies
  exact ⟨lane, test, v, hLane, hTest, hScalar, hHolds, hSatisfies⟩

/-- No element tells apart two singles with which its type is compared. -/
theorem ComparesAs.acceptsPartial_eq {x y : Binary .single} (hx : t.ComparesAs n x)
    (hy : t.ComparesAs n y) (op : Comparison) {w : Nat} {v : Binary .single}
    (hScalar : t.scalar? w = some (.single v)) :
    op.acceptsPartial (v.compare? x) = op.acceptsPartial (v.compare? y) := by
  obtain ⟨-, -, v', -, -, hScalar', -, hAnswer⟩ := hx op w
  obtain ⟨-, -, v'', -, -, hScalar'', -, hAnswer'⟩ := hy op w
  obtain rfl : v = v' := by simpa [hScalar] using hScalar'
  obtain rfl : v = v'' := by simpa [hScalar] using hScalar''
  exact Except.ok.inj (hAnswer.symm.trans hAnswer')

/-- In a column of singles, neighbours lead astray: it answers that the far one equals the
literal, and that the nearest one does not. -/
theorem not_comparesAs_of_astray {near far : Binary .single} (h : n.natAbs ≤ 2 ^ 64)
    (hAstray : Binary.Astray n near far) :
    ¬∃ x : Binary .single, x.IsNearest n ∧ DataType.float.ComparesAs n x := by
  rintro ⟨x, hNearest, hCompares⟩
  have hFar := comparesAs_convert (.inr rfl) n
  rw [hAstray.convert_eq (s := 925) rfl h] at hFar
  have hScalar : DataType.float.scalar? x.toNat = some (.single x) :=
    congrArg (some ∘ Scalar.single) x.ofNat_toNat
  have hAnswer : Comparison.eq.acceptsPartial (x.compare? far) = true := by
    rw [hFar.acceptsPartial_eq hCompares .eq hScalar, Binary.compare?_self hNearest.isFinite_eq]
    rfl
  have hSame := Binary.toRat_eq_of_compare? ((Comparison.acceptsPartial_eq_iff _).mp hAnswer)
  have hNearer := hNearest.abs_sub_le near hAstray.isFinite_near
  rw [hSame] at hNearer
  exact absurd hNearer hAstray.nearer.not_ge

/-- For every integer literal and every type of half or single precision: comparisons are made
with the single nearest to the literal, unless the elements are singles and two neighbours lead
the literal astray. -/
theorem comparesAs_nearest_iff (hType : t = .half ∨ t = .float) (hLeast : -2 ^ 63 ≤ n)
    (hGreatest : n < 2 ^ 64) :
    (∃ x : Binary .single, x.IsNearest n ∧ t.ComparesAs n x) ↔
      t = .half ∨ ¬∃ near far, Binary.Astray n near far := by
  have hWord : n.natAbs ≤ 2 ^ 64 := by omega
  have hTwice := comparesAs_convert hType n
  constructor
  · intro hNearest
    rcases hType with rfl | rfl
    · exact .inl rfl
    · refine .inr ?_
      rintro ⟨near, far, hAstray⟩
      exact not_comparesAs_of_astray hWord hAstray hNearest
  · intro hSafe
    refine ⟨_, Binary.isNearest_ofInt_single hWord, ?_⟩
    by_cases hNone : ∃ near far, Binary.Astray n near far
    · obtain rfl : t = .half := hSafe.resolve_right (not_not_intro hNone)
      -- Only past the doubles that hold every digit can a literal be led astray.
      have hLarge : ¬n.natAbs < 2 ^ 53 := fun hSmall => Binary.not_astray_of_lt hSmall hNone
      refine hTwice.congr fun w v hScalar => ?_
      obtain rfl : (Binary.ofNat .half w).widen = v := Scalar.single.inj (Option.some.inj hScalar)
      exact Binary.compare?_widen_congr (Binary.isNegative_convert_ofInt hWord)
        (Binary.pastHalves_convert_ofInt hWord (by omega))
        (Binary.pastHalves_ofInt hWord (by omega)) _
    · rwa [Binary.convert_ofInt_eq_ofInt hWord hNone] at hTwice

/-- `2 ^ 24 + 1` lies in the middle of two singles, and is compared as the even one of them. -/
theorem comparesAs_nearest_iff_sample :
    (DataType.float = .half ∨ DataType.float = .float) ∧ -2 ^ 63 ≤ (16777217 : Int) ∧
      (16777217 : Int) < 2 ^ 64 ∧
      ∃ x : Binary .single, x.IsNearest (16777217 : Int) ∧
        DataType.float.ComparesAs 16777217 x :=
  ⟨by decide, by decide, by decide,
    (comparesAs_nearest_iff (.inr rfl) (by decide) (by decide)).mpr
      (.inr (Binary.not_astray_of_lt (by decide)))⟩

/-- `2 ^ 53 + 2 ^ 29 + 1` lies just above the middle of the singles `2 ^ 53` and `2 ^ 53 + 2 ^ 30`,
and the double nearest to it is that middle.  A column of singles compares it as `2 ^ 53`. -/
theorem comparesAs_misses_nearest :
    ¬∃ x : Binary .single, x.IsNearest (9007199791611905 : Int) ∧
      DataType.float.ComparesAs 9007199791611905 x := by
  have hWord : Int.natAbs 9007199791611905 ≤ 2 ^ 64 := by decide
  obtain ⟨near, far, hAstray⟩ := Binary.exists_astray (j := 0x5a000000) (s := 925) rfl hWord
    (by decide +kernel) (.inl (by decide +kernel))
  exact not_comparesAs_of_astray hWord hAstray

end DataType

end Columnar
