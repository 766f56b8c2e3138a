import Columnar.Bitmap.Reduction

/-!
# The conjunction of many bitmaps, bit by bit

The conjunction is taken region by region, and within a region source by source.  Each
of these loops only clears bits, so the bits that are left at the end are the bits that
no step clears, whatever the order of the steps.  The regions cover every byte.

* `get_andReduce?_iff` -- a row is left in the conjunction exactly when every bitmap
  has it.
-/

namespace Columnar

/-- A byte of a range loses the bits that the source does not have; the other bytes
stay as they are. -/
theorem bit_andRange_iff (source : Array UInt8) (start count : Nat) (bytes : Array UInt8)
    (j i : Nat) :
    Byte.bit ((andRange source start count bytes)[j]?.getD 0) i = true ↔
      Byte.bit (bytes[j]?.getD 0) i = true ∧
        (start ≤ j → j < start + count → Byte.bit (source[j]?.getD 0xff) i = true) := by
  unfold andRange
  induction count generalizing start bytes with
  | zero =>
      simp only [List.range'_zero, List.foldl_nil]
      exact ⟨fun h => ⟨h, fun _ _ => by omega⟩, fun h => h.1⟩
  | succ count ih =>
      rw [List.range'_succ, List.foldl_cons, ih, Array.getElem?_modify]
      by_cases hHere : start = j
      · subst hHere
        cases hByte : bytes[start]? with
        | none => simp
        | some byte =>
            simp only [if_true, Option.map_some, Option.getD_some, Byte.bit_and,
              Bool.and_eq_true]
            constructor
            · exact fun h => ⟨h.1.1, fun _ _ => h.1.2⟩
            · exact fun h => ⟨⟨h.1, h.2 (Nat.le_refl _) (by omega)⟩, fun _ _ => by omega⟩
      · rw [if_neg hHere]
        refine and_congr_right fun _ => ?_
        constructor
        · exact fun h hLower hUpper => h (by omega) (by omega)
        · exact fun h hLower hUpper => h (by omega) (by omega)

theorem bit_foldl_andRange_iff (sources : List (Array UInt8)) (start count : Nat)
    (bytes : Array UInt8) (j i : Nat) :
    Byte.bit ((sources.foldl (fun bytes source => andRange source start count bytes)
        bytes)[j]?.getD 0) i = true ↔
      Byte.bit (bytes[j]?.getD 0) i = true ∧
        (start ≤ j → j < start + count →
          ∀ source ∈ sources, Byte.bit (source[j]?.getD 0xff) i = true) := by
  induction sources generalizing bytes with
  | nil => simp
  | cons source rest ih =>
      rw [List.foldl_cons, ih, bit_andRange_iff, List.forall_mem_cons]
      constructor
      · rintro ⟨⟨hByte, hSource⟩, hRest⟩
        exact ⟨hByte, fun hLower hUpper => ⟨hSource hLower hUpper, hRest hLower hUpper⟩⟩
      · rintro ⟨hByte, hAll⟩
        exact ⟨⟨hByte, fun hLower hUpper => (hAll hLower hUpper).1⟩,
          fun hLower hUpper => (hAll hLower hUpper).2⟩

theorem bit_foldl_andRegion_iff (sources : List (Array UInt8)) (regions : List Nat)
    (bytes : Array UInt8) (j i : Nat) :
    Byte.bit ((regions.foldl (andRegion sources) bytes)[j]?.getD 0) i = true ↔
      Byte.bit (bytes[j]?.getD 0) i = true ∧
        ∀ region ∈ regions, region * regionSize ≤ j →
          j < region * regionSize + min regionSize (bytes.size - region * regionSize) →
          ∀ source ∈ sources, Byte.bit (source[j]?.getD 0xff) i = true := by
  induction regions generalizing bytes with
  | nil => simp
  | cons region rest ih =>
      rw [List.foldl_cons, ih, size_andRegion, andRegion, bit_foldl_andRange_iff,
        List.forall_mem_cons, and_assoc]

/-- The regions cover every byte. -/
theorem bit_andRegions_iff (sources : List (Array UInt8)) {bytes : Array UInt8} {j : Nat}
    (hj : j < bytes.size) (i : Nat) :
    Byte.bit ((andRegions sources bytes)[j]?.getD 0) i = true ↔
      Byte.bit (bytes[j]?.getD 0) i = true ∧
        ∀ source ∈ sources, Byte.bit (source[j]?.getD 0xff) i = true := by
  rw [andRegions, bit_foldl_andRegion_iff]
  refine and_congr_right fun _ => ?_
  constructor
  · -- Byte `j` lies in region `j / regionSize`, and the last region is cut to the bytes.
    intro h
    have hPos : 0 < regionSize := by decide
    have hLower : j / regionSize * regionSize ≤ j := Nat.div_mul_le_self j regionSize
    have hUpper : j < j / regionSize * regionSize + regionSize := Nat.lt_div_mul_add hPos
    have hRegion : j / regionSize < (bytes.size + regionSize - 1) / regionSize := by
      refine (Nat.le_div_iff_mul_le hPos).mpr ?_
      rw [Nat.succ_mul]
      omega
    exact h (j / regionSize) (List.mem_range.mpr hRegion) hLower (by omega)
  · exact fun h _ _ _ _ => h

/-- A row is left in the conjunction exactly when every bitmap has it. -/
theorem get_andReduce?_iff {bitmaps : List Bitmap} {reduced : Bitmap} {i : Nat}
    (h : Bitmap.andReduce? bitmaps = some reduced)
    (hLengths : ∀ b ∈ bitmaps, i < b.length) :
    reduced.get i = true ↔ ∀ b ∈ bitmaps, b.get i = true := by
  cases bitmaps with
  | nil => exact absurd h (by simp [Bitmap.andReduce?])
  | cons first others =>
      obtain rfl := Option.some.inj h
      have hFirst : i / 8 < first.bytes.size :=
        Bitmap.lt_size (hLengths first List.mem_cons_self)
      rw [List.forall_mem_cons]
      refine (bit_andRegions_iff (others.map Bitmap.bytes) hFirst i).trans
        (and_congr_right fun _ => ?_)
      rw [List.forall_mem_map]
      refine forall_congr' fun b => forall_congr' fun hMem => ?_
      have hSize := Bitmap.lt_size (hLengths b (List.mem_cons_of_mem _ hMem))
      rw [Bitmap.get, Array.getElem?_eq_getElem hSize, Option.getD_some, Option.getD_some]

theorem length_andReduce? {bitmaps : List Bitmap} {reduced : Bitmap} {n : Nat}
    (h : Bitmap.andReduce? bitmaps = some reduced) (hLengths : ∀ b ∈ bitmaps, b.length = n) :
    reduced.length = n := by
  cases bitmaps with
  | nil => exact absurd h (by simp [Bitmap.andReduce?])
  | cons first others =>
      obtain rfl := Option.some.inj h
      rw [Bitmap.length_withBytes]
      exact hLengths first List.mem_cons_self

end Columnar
