import Columnar.Kernel.Test
import Columnar.Predicate.Evaluation

/-!
# Tests on words agree with comparisons of values

A kernel never decodes an element: it compares the stored word.  The row evaluator
decodes it and compares the value.  This module shows that both decide alike, for
every type that has a lane, every operator, every literal that is not refused and
every word.

* `Test.setWidth_immediate` -- masking a literal to the width leaves its two's complement.
* `Test.holds_ofInteger_signed`, `Test.holds_ofInteger_unsigned` -- the range check and
  the comparison of words are together the comparison of exact integers.
* `Lane.satisfies_eq_holds` -- the decoded element satisfies the comparison exactly
  when the word passes the test.
-/

namespace Columnar

namespace Comparison

/-- What each operator says about an order of two integers. -/
theorem accepts_compare (op : Comparison) (a b : Int) :
    op.accepts (compare a b) =
      match op with
      | gt => decide (b < a)
      | lt => decide (a < b)
      | ge => decide (b ≤ a)
      | le => decide (a ≤ b)
      | eq => decide (a = b)
      | ne => decide (a ≠ b) := by
  rw [Bool.eq_iff_iff]
  rcases Int.lt_trichotomy a b with hLt | hSame | hGt
  · have hOrd : compare a b = .lt := Int.compare_eq_lt.mpr hLt
    cases op <;> simp [accepts, hOrd] <;> omega
  · subst hSame
    cases op <;> simp [accepts]
  · have hOrd : compare a b = .gt := Int.compare_eq_gt.mpr hGt
    cases op <;> simp [accepts, hOrd] <;> omega

theorem acceptsSigned_eq {bits : Nat} (op : Comparison) (a b : BitVec bits) :
    op.acceptsSigned a b = op.accepts (compare a.toInt b.toInt) := by
  have hEq : (a == b) = decide (a.toInt = b.toInt) := by
    rw [Bool.eq_iff_iff]
    simp [BitVec.toInt_inj]
  rw [accepts_compare]
  cases op <;> simp [acceptsSigned, hEq, bne, BitVec.slt_eq_decide, BitVec.sle_eq_decide]

theorem acceptsUnsigned_eq {bits : Nat} (op : Comparison) (a b : BitVec bits) :
    op.acceptsUnsigned a b = op.accepts (compare (a.toNat : Int) (b.toNat : Int)) := by
  have hEq : (a == b) = decide ((a.toNat : Int) = (b.toNat : Int)) := by
    rw [Bool.eq_iff_iff, beq_iff_eq, decide_eq_true_iff, Int.ofNat_inj, BitVec.toNat_inj]
  rw [accepts_compare]
  cases op <;> simp [acceptsUnsigned, hEq, bne, BitVec.ult_eq_decide, BitVec.ule_eq_decide]

end Comparison

namespace Test

/-- Of a two's complement the lowest bits are a narrower one. -/
theorem toNat_ofInt_mod {bits wide : Nat} (h : bits ≤ wide) (n : Int) :
    (BitVec.ofInt wide n).toNat % 2 ^ bits = (BitVec.ofInt bits n).toNat := by
  have hDvd : ((2 ^ bits : Nat) : Int) ∣ ((2 ^ wide : Nat) : Int) :=
    Int.ofNat_dvd.mpr (Nat.pow_dvd_pow 2 h)
  have hPos (w : Nat) : (0 : Int) < (2 ^ w : Nat) := Int.natCast_pos.mpr (Nat.two_pow_pos w)
  have hNonneg := Int.emod_nonneg n (Int.ne_of_gt (hPos wide))
  rw [BitVec.toNat_ofInt, BitVec.toNat_ofInt, ← Int.emod_emod_of_dvd n hDvd,
    Int.toNat_emod hNonneg (Int.le_of_lt (hPos bits)), Int.toNat_natCast]

/-- No bit of a constant lies outside the width. -/
theorem immediate_eq {bits : Nat} (hBits : bits ≤ 64) (n : Int) :
    immediate bits n = (BitVec.ofInt bits n).setWidth 64 := by
  have hPow : 2 ^ bits ≤ 2 ^ 64 := Nat.pow_le_pow_right (by decide) hBits
  have hMask : (2 ^ bits - 1) % 2 ^ 128 = 2 ^ bits - 1 := Nat.mod_eq_of_lt (by omega)
  refine BitVec.eq_of_toNat_eq ?_
  rw [immediate, BitVec.toNat_setWidth, BitVec.toNat_setWidth, BitVec.toNat_and,
    BitVec.toNat_ofNat, hMask, Nat.and_two_pow_sub_one_eq_mod, toNat_ofInt_mod (by omega)]

/-- A constant narrowed to the width is the two's complement of the integer. -/
theorem setWidth_immediate {bits : Nat} (hBits : bits ≤ 64) (n : Int) :
    (immediate bits n).setWidth bits = BitVec.ofInt bits n := by
  rw [immediate_eq hBits, BitVec.setWidth_setWidth_of_le _ hBits, BitVec.setWidth_eq]

/-- Signed words are compared as exact integers, whatever the literal. -/
theorem holds_ofInteger_signed {bits : Nat} (hBits : 0 < bits) (hWidth : bits ≤ 64)
    (op : Comparison) (n : Int) (w : Nat) :
    (ofInteger true bits op n).holds w =
      op.accepts (compare (BitVec.ofNat bits w).toInt n) := by
  have hLeast : -2 ^ (bits - 1) ≤ (BitVec.ofNat bits w).toInt := BitVec.le_toInt _
  have hGreatest : (BitVec.ofNat bits w).toInt < 2 ^ (bits - 1) := BitVec.toInt_lt
  by_cases hAbove : greatestInteger true bits < n
  · have hOrd : compare (BitVec.ofNat bits w).toInt n = .lt := by
      refine Int.compare_eq_lt.mpr ?_
      simp only [greatestInteger, if_true] at hAbove
      omega
    simp [ofInteger, hAbove, holds, hOrd]
  · by_cases hBelow : n < leastInteger true bits
    · have hOrd : compare (BitVec.ofNat bits w).toInt n = .gt := by
        refine Int.compare_eq_gt.mpr ?_
        simp only [leastInteger, if_true] at hBelow
        omega
      simp [ofInteger, hAbove, hBelow, holds, hOrd]
    · -- In range the literal is a word of the lane, and words are compared.
      simp only [greatestInteger, leastInteger, if_true] at hAbove hBelow
      have hOperand : (BitVec.ofInt bits n).toInt = n :=
        BitVec.toInt_ofInt_eq_self hBits (by omega) (by omega)
      simp [ofInteger, greatestInteger, leastInteger, hAbove, hBelow, holds,
        Comparison.acceptsSigned_eq, setWidth_immediate hWidth, hOperand]

/-- Unsigned words are compared as exact integers, whatever the literal. -/
theorem holds_ofInteger_unsigned {bits : Nat} (hWidth : bits ≤ 64) (op : Comparison) (n : Int)
    (w : Nat) :
    (ofInteger false bits op n).holds w =
      op.accepts (compare ((BitVec.ofNat bits w).toNat : Int) n) := by
  generalize hValue : ((BitVec.ofNat bits w).toNat : Int) = v
  have hNonneg : 0 ≤ v := by omega
  have hGreatest : v < 2 ^ bits := by
    rw [← hValue]
    exact_mod_cast (BitVec.ofNat bits w).isLt
  by_cases hAbove : greatestInteger false bits < n
  · have hOrd : compare v n = .lt := by
      refine Int.compare_eq_lt.mpr ?_
      simp only [greatestInteger, Bool.false_eq_true, if_false] at hAbove
      omega
    simp [ofInteger, hAbove, holds, hOrd]
  · by_cases hBelow : n < leastInteger false bits
    · have hOrd : compare v n = .gt := by
        refine Int.compare_eq_gt.mpr ?_
        simp only [leastInteger, Bool.false_eq_true, if_false] at hBelow
        omega
      simp [ofInteger, hAbove, hBelow, holds, hOrd]
    · have hOperand : ((BitVec.ofInt bits n).toNat : Int) = n := by
        simp only [greatestInteger, leastInteger, Bool.false_eq_true, if_false] at hAbove hBelow
        have hPow : ((2 ^ bits : Nat) : Int) = 2 ^ bits := by push_cast; rfl
        rw [BitVec.toNat_ofInt, hPow, Int.emod_eq_of_lt (by omega) (by omega)]
        omega
      rw [ofInteger, if_neg hAbove, if_neg hBelow, setWidth_immediate hWidth, holds,
        Comparison.acceptsUnsigned_eq, hOperand, hValue]

end Test

namespace Scalar

variable {op : Comparison} {l : Literal} {test : Test}

theorem satisfies_signed {bits : Nat} (hBits : 0 < bits) (hWidth : bits ≤ 64)
    (hTest : (Lane.integer true bits).test? op l = some test) (w : Nat) :
    (signed (BitVec.ofNat bits w).toInt).satisfies op l = .ok (test.holds w) := by
  obtain ⟨n, hLiteral, rfl⟩ := Option.map_eq_some_iff.mp hTest
  rw [Test.holds_ofInteger_signed hBits hWidth]
  simp [satisfies, compareLiteral, hLiteral, bind, Except.bind, pure, Except.pure,
    Comparison.acceptsPartial]

theorem satisfies_unsigned {bits : Nat} (hWidth : bits ≤ 64)
    (hTest : (Lane.integer false bits).test? op l = some test) (w : Nat) :
    (unsigned (BitVec.ofNat bits w).toNat).satisfies op l = .ok (test.holds w) := by
  obtain ⟨n, hLiteral, rfl⟩ := Option.map_eq_some_iff.mp hTest
  rw [Test.holds_ofInteger_unsigned hWidth]
  simp only [satisfies, compareLiteral, hLiteral, bind, Except.bind, pure, Except.pure,
    Comparison.acceptsPartial]

theorem satisfies_half (hTest : Lane.half.test? op l = some test) (w : Nat) :
    (single (Binary.ofNat .half w).widen).satisfies op l = .ok (test.holds w) := by
  obtain ⟨d, hLiteral, rfl⟩ := Option.map_eq_some_iff.mp hTest
  simp [satisfies, compareLiteral, hLiteral, bind, Except.bind, pure, Except.pure, Test.holds]

theorem satisfies_single (hTest : Lane.single.test? op l = some test) (w : Nat) :
    (single (Binary.ofNat .single w)).satisfies op l = .ok (test.holds w) := by
  obtain ⟨d, hLiteral, rfl⟩ := Option.map_eq_some_iff.mp hTest
  simp [satisfies, compareLiteral, hLiteral, bind, Except.bind, pure, Except.pure, Test.holds]

theorem satisfies_double (hTest : Lane.double.test? op l = some test) (w : Nat) :
    (double (Binary.ofNat .double w)).satisfies op l = .ok (test.holds w) := by
  obtain ⟨d, hLiteral, rfl⟩ := Option.map_eq_some_iff.mp hTest
  simp [satisfies, compareLiteral, hLiteral, bind, Except.bind, pure, Except.pure, Test.holds]

end Scalar

/-- The words of a type with a lane decode to scalars, and the scalar of a word
satisfies a comparison exactly when the word passes the test of the comparison. -/
theorem Lane.satisfies_eq_holds {t : DataType} {lane : Lane} {op : Comparison} {l : Literal}
    {test : Test} (hLane : t.lane? = some lane) (hTest : lane.test? op l = some test)
    (w : Nat) :
    ∃ s, t.scalar? w = some s ∧ s.satisfies op l = .ok (test.holds w) := by
  cases t with
  | bool | decimal128 | utf8 | list | struct => exact absurd hLane (by simp [DataType.lane?])
  | int8 | int16 | int32 | int64 =>
      obtain rfl := Option.some.inj hLane
      exact ⟨_, rfl, Scalar.satisfies_signed (by decide) (by decide) hTest w⟩
  | uint8 | uint16 | uint32 | uint64 =>
      obtain rfl := Option.some.inj hLane
      exact ⟨_, rfl, Scalar.satisfies_unsigned (by decide) hTest w⟩
  | half =>
      obtain rfl := Option.some.inj hLane
      exact ⟨_, rfl, Scalar.satisfies_half hTest w⟩
  | float =>
      obtain rfl := Option.some.inj hLane
      exact ⟨_, rfl, Scalar.satisfies_single hTest w⟩
  | double =>
      obtain rfl := Option.some.inj hLane
      exact ⟨_, rfl, Scalar.satisfies_double hTest w⟩

end Columnar
