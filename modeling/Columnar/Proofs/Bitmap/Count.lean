import Columnar.Bitmap.Basic

/-!
# Counting the bits of a bitmap

Bits are counted a byte at a time, and the last byte is cut to the rows that it holds.

* `count_eq_countP` -- the number that comes out is the number of rows whose bit is set,
  whatever the padding holds.
* `count_eq_length_iff` -- every row is counted exactly when every bit is set.
-/

namespace Columnar

namespace Byte

/-- The bits of a byte below position `n`. -/
theorem popcount_and_pack {n : Nat} (hn : n ≤ 8) (x : UInt8) :
    popcount (x &&& pack fun j => j < n) = (List.range n).countP (bit x) := by
  have hSplit : List.range 8 = List.range n ++ (List.range (8 - n)).map (n + ·) := by
    rw [← List.range_add, Nat.add_sub_cancel' hn]
  have hLow : (List.range n).countP (bit (x &&& pack fun j => j < n)) =
      (List.range n).countP (bit x) := by
    refine List.countP_congr fun j hj => ?_
    have hMod : j % 8 < n := Nat.lt_of_le_of_lt (Nat.mod_le _ _) (List.mem_range.mp hj)
    simp [bit_pack, hMod]
  have hHigh : ((List.range (8 - n)).map (n + ·)).countP
      (bit (x &&& pack fun j => j < n)) = 0 := by
    refine List.countP_eq_zero.mpr fun j hj => ?_
    obtain ⟨k, hk, rfl⟩ := List.mem_map.mp hj
    have hMod : ¬ (n + k) % 8 < n := by
      have := List.mem_range.mp hk
      omega
    simp [bit_pack, hMod]
  rw [popcount, hSplit, List.countP_append, hLow, hHigh, Nat.add_zero]

end Byte

namespace Bitmap

variable {b : Bitmap}

/-- Row `j` of the byte at `k`. -/
theorem get_of_byte (b : Bitmap) {k j : Nat} (hj : j < 8) :
    b.get (8 * k + j) = Byte.bit (b.bytes[k]?.getD 0) j := by
  have hByte : (8 * k + j) / 8 = k := by omega
  have hBit : (8 * k + j) % 8 = j % 8 := by omega
  rw [get, hByte, ← Byte.bit_mod _ (8 * k + j), hBit, Byte.bit_mod]

/-- The rows of whole bytes, counted a byte at a time. -/
theorem foldl_popcount_take (b : Bitmap) {whole : Nat} (h : whole ≤ b.bytes.size) :
    (b.bytes.toList.take whole).foldl (fun n byte => n + Byte.popcount byte) 0 =
      (List.range (8 * whole)).countP b.get := by
  induction whole with
  | zero => simp
  | succ whole ih =>
      have hSize : whole < b.bytes.size := h
      have hByte : whole < b.bytes.toList.length := by simpa using hSize
      have hRows : Byte.popcount b.bytes.toList[whole] =
          (List.range 8).countP (b.get ∘ (8 * whole + ·)) := by
        refine List.countP_congr fun j hj => ?_
        have hGet := b.get_of_byte (k := whole) (List.mem_range.mp hj)
        rw [Array.getElem?_eq_getElem hSize, Option.getD_some] at hGet
        simp [hGet]
      rw [List.take_succ_eq_append_getElem hByte, List.foldl_append, ih (by omega),
        List.foldl_cons, List.foldl_nil, hRows, Nat.mul_succ, List.range_add,
        List.countP_append, List.countP_map]

/-- The number of set bits among the rows. -/
theorem count_eq_countP (b : Bitmap) : b.count = (List.range b.length).countP b.get := by
  have hSize := b.size_eq
  have hWhole : b.length / 8 ≤ b.bytes.size := by
    rw [hSize, bytesFor]
    omega
  have hLength : b.length = 8 * (b.length / 8) + b.length % 8 := by omega
  rw [count, foldl_popcount_take b hWhole]
  by_cases hRest : b.length % 8 = 0
  · rw [if_pos hRest]
    congr 2
    omega
  · -- The last byte counts only below the first row that is not there.
    have hLast : Byte.popcount (b.bytes[b.length / 8]?.getD 0 &&&
        Byte.pack fun j => j < b.length % 8) =
          (List.range (b.length % 8)).countP (b.get ∘ (8 * (b.length / 8) + ·)) := by
      rw [Byte.popcount_and_pack (by omega)]
      refine List.countP_congr fun j hj => ?_
      have hj8 : j < 8 := by
        have := List.mem_range.mp hj
        omega
      simp [b.get_of_byte hj8]
    have hSplit := congrArg (fun n => (List.range n).countP b.get) hLength
    rw [List.range_add, List.countP_append, List.countP_map, ← hLast] at hSplit
    rw [if_neg hRest]
    exact hSplit.symm

theorem count_le_length (b : Bitmap) : b.count ≤ b.length := by
  rw [count_eq_countP]
  simpa using List.countP_le_length (p := b.get) (l := List.range b.length)

/-- Every row is counted exactly when every bit is set. -/
theorem count_eq_length_iff (b : Bitmap) :
    b.count = b.length ↔ ∀ i < b.length, b.get i = true := by
  have hAll := List.countP_eq_length (p := b.get) (l := List.range b.length)
  rw [List.length_range] at hAll
  rw [count_eq_countP, hAll]
  simp

end Bitmap

end Columnar
