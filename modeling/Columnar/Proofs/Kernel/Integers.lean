import Columnar.Proofs.Kernel.Comparison

/-!
# Integer comparisons are exact

Kernels compare the words of an integer column with a constant of the same width, or not at
all when the literal lies outside the range of the column.  Neither the width nor the sign
shows in the answer: it is the comparison of the stored integer with the literal, as
integers.

* `Comparison.Relates` -- what an operator says about two integers.
* `DataType.scalar?_storedInteger` -- every integer in the range of a type is stored as a word
  that decodes to it.
* `DataType.compares_integers_exactly` -- the test of a literal says about the stored word what
  the operator says about the two integers, and so does the comparison of the decoded value.
-/

namespace Columnar

/-- What an operator says about two integers. -/
def Comparison.Relates : Comparison → Int → Int → Prop
  | gt, a, b => b < a
  | lt, a, b => a < b
  | ge, a, b => b ≤ a
  | le, a, b => a ≤ b
  | eq, a, b => a = b
  | ne, a, b => a ≠ b

theorem Comparison.accepts_compare_iff (op : Comparison) (a b : Int) :
    op.accepts (compare a b) = true ↔ op.Relates a b := by
  rw [accepts_compare]
  cases op <;> exact decide_eq_true_iff

/-- The word that stores an integer: its two's complement in the width. -/
def storedInteger (bits : Nat) (v : Int) : Nat :=
  (BitVec.ofInt bits v).toNat

@[simp]
theorem ofNat_storedInteger (bits : Nat) (v : Int) :
    BitVec.ofNat bits (storedInteger bits v) = BitVec.ofInt bits v := by
  rw [storedInteger, BitVec.ofNat_toNat, BitVec.setWidth_eq]

/-- An integer of a type, as a decoded element. -/
def Scalar.ofInteger (signed : Bool) (v : Int) : Scalar :=
  if signed then .signed v else .unsigned v.toNat

/-- A decoded integer is compared with an integer literal as an integer. -/
theorem Scalar.satisfies_ofInteger {signed : Bool} {v : Int} (h : signed = false → 0 ≤ v)
    (op : Comparison) (n : Int) :
    (ofInteger signed v).satisfies op (.integer n) = .ok (op.accepts (compare v n)) := by
  cases signed with
  | true => rfl
  | false =>
      show Except.ok (op.accepts (compare (v.toNat : Int) n)) = _
      rw [Int.toNat_of_nonneg (h rfl)]

namespace DataType

variable {t : DataType} {signed : Bool} {bits : Nat} {v : Int}

/-- The widths of integer lanes. -/
theorem bits_of_lane?_eq_integer (hLane : t.lane? = some (.integer signed bits)) :
    bits = 8 ∨ bits = 16 ∨ bits = 32 ∨ bits = 64 := by
  cases t <;> simp_all [lane?]

/-- The elements of a type with an integer lane are the words of the lane, read with its
sign. -/
theorem scalar?_of_integer_lane (hLane : t.lane? = some (.integer signed bits)) (w : Nat) :
    t.scalar? w = some (if signed then .signed (BitVec.ofNat bits w).toInt
      else .unsigned (BitVec.ofNat bits w).toNat) := by
  cases t with
  | bool | decimal128 | utf8 | list | struct => exact absurd hLane (by simp [lane?])
  | half | float | double => exact absurd hLane (by simp [lane?])
  | int8 | int16 | int32 | int64 | uint8 | uint16 | uint32 | uint64 =>
      obtain ⟨rfl, rfl⟩ := Lane.integer.inj (Option.some.inj hLane)
      rfl

/-- An integer in the range of a type is stored as a word that decodes to it. -/
theorem scalar?_storedInteger (hLane : t.lane? = some (.integer signed bits))
    (hLeast : Test.leastInteger signed bits ≤ v)
    (hGreatest : v ≤ Test.greatestInteger signed bits) :
    t.scalar? (storedInteger bits v) = some (.ofInteger signed v) := by
  have hBits : 0 < bits := by have := bits_of_lane?_eq_integer hLane; omega
  rw [scalar?_of_integer_lane hLane, ofNat_storedInteger, Scalar.ofInteger]
  cases signed with
  | true =>
      simp only [Test.leastInteger, Test.greatestInteger, if_true] at hLeast hGreatest
      rw [if_pos rfl, if_pos rfl, BitVec.toInt_ofInt_eq_self hBits hLeast (by omega)]
  | false =>
      simp only [Test.leastInteger, Test.greatestInteger, Bool.false_eq_true, if_false]
        at hLeast hGreatest
      have hPow : ((2 ^ bits : Nat) : Int) = 2 ^ bits := by push_cast; rfl
      rw [if_neg Bool.false_ne_true, if_neg Bool.false_ne_true, BitVec.toNat_ofInt, hPow,
        Int.emod_eq_of_lt hLeast (by omega)]

/-- For every integer type, every operator, every integer of the type and every integer
literal: the literal has a test, the test says about the stored word what the operator says
about the two integers, and the comparison of the decoded element says the same. -/
theorem compares_integers_exactly (hLane : t.lane? = some (.integer signed bits))
    (hLeast : Test.leastInteger signed bits ≤ v)
    (hGreatest : v ≤ Test.greatestInteger signed bits) (op : Comparison) (n : Int) :
    ∃ test, (Lane.integer signed bits).test? op (.integer n) = some test ∧
      (test.holds (storedInteger bits v) = true ↔ op.Relates v n) ∧
      t.scalar? (storedInteger bits v) = some (.ofInteger signed v) ∧
      (Scalar.ofInteger signed v).satisfies op (.integer n) =
        .ok (test.holds (storedInteger bits v)) := by
  have hTest : (Lane.integer signed bits).test? op (.integer n) =
      some (.ofInteger signed bits op n) := rfl
  have hScalar := scalar?_storedInteger hLane hLeast hGreatest
  obtain ⟨s, hDecoded, hSatisfies⟩ :=
    Lane.satisfies_eq_holds hLane hTest (storedInteger bits v)
  obtain rfl : s = .ofInteger signed v := Option.some.inj (hDecoded.symm.trans hScalar)
  refine ⟨_, hTest, ?_, hScalar, hSatisfies⟩
  have hNonneg : signed = false → 0 ≤ v := fun hUnsigned => by
    rwa [hUnsigned, Test.leastInteger, if_neg Bool.false_ne_true] at hLeast
  rw [Scalar.satisfies_ofInteger hNonneg] at hSatisfies
  rw [← Except.ok.inj hSatisfies, Comparison.accepts_compare_iff]

/-- Minus one is masked to 255, which a signed word of eight bits reads as minus one again. -/
theorem compares_integers_exactly_int8 :
    DataType.int8.lane? = some (.integer true 8) ∧ Test.leastInteger true 8 ≤ 5 ∧
      5 ≤ Test.greatestInteger true 8 ∧ Test.immediate 8 (-1) = 255 ∧
      ∃ test, (Lane.integer true 8).test? .gt (.integer (-1)) = some test ∧
        (test.holds (storedInteger 8 5) = true ↔ Comparison.gt.Relates 5 (-1)) ∧
        DataType.int8.scalar? (storedInteger 8 5) = some (.ofInteger true 5) ∧
        (Scalar.ofInteger true 5).satisfies .gt (.integer (-1)) =
          .ok (test.holds (storedInteger 8 5)) :=
  ⟨rfl, by decide, by decide, by decide,
    compares_integers_exactly (t := .int8) rfl (by decide) (by decide) .gt (-1)⟩

end DataType

end Columnar
