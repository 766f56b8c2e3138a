import Columnar.Word

/-!
# Bits of a byte

A group of eight rows shares one byte, and the first row of the group is the high
bit.  `Byte.bit x j` is the bit of row `j` of the group; positions are taken
modulo eight, so a row number may be used as it is.  Every operation on bytes is
described by what it does to `Byte.bit`.
-/

namespace Columnar

/-- The byte in which only the bit of position `i` is set. -/
def bitMask (i : Nat) : UInt8 :=
  UInt8.ofNat (2 ^ (7 - i % 8))

namespace Byte

/-- The bit of position `j`, counted from the high end. -/
def bit (x : UInt8) (j : Nat) : Bool :=
  x.toNat.testBit (7 - j % 8)

theorem bit_mod (x : UInt8) (j : Nat) : bit x (j % 8) = bit x j := by
  simp [bit]

@[simp]
theorem bit_zero (j : Nat) : bit 0 j = false := by
  simp [bit]

@[simp]
theorem bit_and (x y : UInt8) (j : Nat) : bit (x &&& y) j = (bit x j && bit y j) := by
  simp [bit]

@[simp]
theorem bit_or (x y : UInt8) (j : Nat) : bit (x ||| y) j = (bit x j || bit y j) := by
  simp [bit]

@[simp]
theorem bit_not (x : UInt8) (j : Nat) : bit (~~~x) j = !bit x j := by
  have hLt : x.toNat < 2 ^ 8 := x.toNat_lt
  have hPos : 7 - j % 8 < 8 := by omega
  have hNot : (~~~x).toNat = 2 ^ 8 - (x.toNat + 1) := by
    rw [UInt8.toNat_not, UInt8.size]
    omega
  rw [bit, hNot, Nat.testBit_two_pow_sub_succ hLt, bit]
  simp [hPos]

@[simp]
theorem bit_ones (j : Nat) : bit 0xff j = true := by
  have hOnes : (0xff : UInt8) = ~~~0 := by decide
  rw [hOnes, bit_not]
  simp

theorem bit_bitMask (i j : Nat) : bit (bitMask i) j = decide (i % 8 = j % 8) := by
  have hLt : 2 ^ (7 - i % 8) < 2 ^ 8 := Nat.pow_lt_pow_right (by decide) (by omega)
  have hVal : (bitMask i).toNat = 2 ^ (7 - i % 8) := by
    simpa [bitMask] using hLt
  rw [bit, hVal, Nat.testBit_two_pow]
  simp only [decide_eq_decide]
  omega

/-- Two bytes with the same eight bits are equal. -/
theorem ext {x y : UInt8} (h : ∀ j < 8, bit x j = bit y j) : x = y := by
  apply UInt8.toNat_inj.mp
  apply Nat.eq_of_testBit_eq
  intro i
  by_cases hi : i < 8
  · have hBit := h (7 - i) (by omega)
    have hPos : 7 - (7 - i) % 8 = i := by omega
    simpa [bit, hPos] using hBit
  · have hx : x.toNat < 2 ^ i :=
      Nat.lt_of_lt_of_le x.toNat_lt (Nat.pow_le_pow_right (by decide) (by omega))
    have hy : y.toNat < 2 ^ i :=
      Nat.lt_of_lt_of_le y.toNat_lt (Nat.pow_le_pow_right (by decide) (by omega))
    rw [Nat.testBit_lt_two_pow hx, Nat.testBit_lt_two_pow hy]

/-- The byte whose bit `j` is `f j`. -/
def pack (f : Nat → Bool) : UInt8 :=
  (List.range 8).foldl (fun byte j => if f j then byte ||| bitMask j else byte) 0

private theorem bit_foldl_set (f : Nat → Bool) (positions : List Nat) (start : UInt8)
    (j : Nat) :
    bit (positions.foldl (fun byte i => if f i then byte ||| bitMask i else byte) start) j =
      (bit start j || positions.any fun i => f i && decide (i % 8 = j % 8)) := by
  induction positions generalizing start with
  | nil => simp
  | cons i rest ih =>
      rw [List.foldl_cons, ih, List.any_cons]
      cases hf : f i <;> simp [bit_bitMask, Bool.or_assoc]

theorem bit_pack (f : Nat → Bool) (j : Nat) : bit (pack f) j = f (j % 8) := by
  rw [pack, bit_foldl_set, bit_zero, Bool.false_or, Bool.eq_iff_iff, List.any_eq_true]
  constructor
  · rintro ⟨i, hi, hBit⟩
    have hLt : i < 8 := List.mem_range.mp hi
    simp only [Bool.and_eq_true, decide_eq_true_eq] at hBit
    have hEq : i = j % 8 := by omega
    rw [← hEq]
    exact hBit.1
  · intro hBit
    refine ⟨j % 8, List.mem_range.mpr (Nat.mod_lt _ (by decide)), ?_⟩
    simp [hBit]

/-- Number of set bits. -/
def popcount (x : UInt8) : Nat :=
  (List.range 8).countP (bit x)

end Byte

end Columnar
