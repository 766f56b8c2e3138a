import Columnar.Proofs.Bitmap.Count
import Columnar.Proofs.Column.Rows

/-!
# The validity of a column

Chunks keep their own validity bitmaps, and a mask for a whole column is put together
from the rows that are null.  A column without nulls has no mask at all, even when its
chunks have bitmaps.

* `valid_of_validityMask_eq_none` -- without a mask every cell is valid.
* `get_of_validityMask_eq_some` -- a mask has the validity of every cell.
-/

namespace Columnar

/-- Clearing the bits of some rows leaves the other rows as they are. -/
theorem get_foldl_clear_iff {rows : List Nat} {b : Bitmap} (h : ∀ row ∈ rows, row < b.length)
    (i : Nat) :
    (rows.foldl (fun mask row => mask.set row false) b).get i = true ↔
      b.get i = true ∧ i ∉ rows := by
  induction rows generalizing b with
  | nil => simp
  | cons row rest ih =>
      have hRow : row < b.length := h row List.mem_cons_self
      have hRest : ∀ other ∈ rest, other < (b.set row false).length := fun other hOther =>
        h other (List.mem_cons_of_mem _ hOther)
      rw [List.foldl_cons, ih hRest, Bitmap.get_set i false hRow]
      by_cases hEq : i = row <;> simp [hEq]

@[simp]
theorem length_foldl_clear (rows : List Nat) (b : Bitmap) :
    (rows.foldl (fun mask row => mask.set row false) b).length = b.length := by
  induction rows generalizing b with
  | nil => rfl
  | cons row rest ih => rw [List.foldl_cons, ih, Bitmap.length_set]

namespace Chunk

/-- A well formed chunk without nulls has valid elements only. -/
theorem isValid_of_nullCount_eq_zero {c : Chunk} (hChunk : c.WellFormed)
    (h : c.nullCount = 0) {k : Nat} (hk : k < c.length) : c.isValid k = true := by
  cases hValidity : c.validity with
  | none => exact isValid_of_validity_none hValidity k
  | some v =>
      have hLength := hChunk.validity_length v hValidity
      have hCount : v.count = v.length := by
        have hLe := v.count_le_length
        simp only [nullCount, hValidity] at h
        omega
      have hAll := v.count_eq_length_iff.mp hCount k (by omega)
      simpa [isValid, hValidity] using hAll

end Chunk

namespace Column

variable {c : Column}

/-- A row is null exactly when the element that holds it is not valid. -/
theorem not_mem_nullRows_iff (h : c.WellFormed) (i : Nat) :
    i ∉ c.nullRows ↔
      ∀ chunk k, locateRow c.chunks i = some (chunk, k) → chunk.isValid k = true := by
  have hRows : 0 + total (c.chunks.map Chunk.length) < 2 ^ 64 := by
    have := h.rows_lt
    omega
  -- A null position of a chunk is offset by the row at which the chunk starts.
  have hPlaces := forall_placeChunks_iff (P := fun chunk k => chunk.isValid k = true)
    0 c.chunks hRows i (Nat.zero_le i)
  rw [Nat.sub_zero] at hPlaces
  rw [← hPlaces, nullRows]
  simp only [List.mem_flatMap, List.mem_map, Chunk.mem_nullPositions, not_exists, not_and]
  refine forall_congr' fun e => forall_congr' fun he => ?_
  have hBounds := (bounds_of_mem_placeChunks hRows he).2
  constructor
  · intro hNone hLower hUpper
    cases hValid : e.2.isValid (i - e.1) with
    | true => rfl
    | false =>
        refine absurd ?_ (hNone (i - e.1) ⟨by omega, hValid⟩)
        rw [wordAdd_eq_add (by omega), Nat.add_sub_cancel' hLower]
  · rintro hAll k ⟨hk, hNull⟩ rfl
    rw [wordAdd_eq_add (by omega), Nat.add_sub_cancel_left] at hAll
    rw [hAll (by omega) (by omega)] at hNull
    exact absurd hNull (by simp)

theorem lt_length_of_mem_nullRows (h : c.WellFormed) {i : Nat} (hi : i ∈ c.nullRows) :
    i < c.length := by
  rw [length_eq_total h]
  refine Nat.lt_of_not_le fun hPast => absurd hi ?_
  rw [not_mem_nullRows_iff h, (locateRow_eq_none_iff c.chunks i).mpr hPast]
  simp

/-- Without a mask every cell is valid. -/
theorem valid_of_validityMask_eq_none (h : c.WellFormed) (hMask : c.validityMask = none)
    {i : Nat} {cell : Cell} (hCell : c.cells[i]? = some cell) : cell.valid = true := by
  have hNulls : ∀ chunk ∈ c.chunks, chunk.nullCount = 0 := by
    unfold validityMask at hMask
    split at hMask
    · next hAll => simpa using hAll
    · exact absurd hMask (by simp)
  rw [getElem?_cells, Option.map_eq_some_iff] at hCell
  obtain ⟨e, hRow, rfl⟩ := hCell
  obtain ⟨hMem, hk⟩ := mem_of_locateRow hRow
  exact Chunk.isValid_of_nullCount_eq_zero (h.chunks_wellFormed _ hMem) (hNulls _ hMem) hk

/-- A mask has the validity of every cell. -/
theorem get_of_validityMask_eq_some (h : c.WellFormed) {mask : Bitmap}
    (hMask : c.validityMask = some mask) :
    mask.length = c.length ∧
      ∀ i cell, c.cells[i]? = some cell → mask.get i = cell.valid := by
  unfold validityMask at hMask
  split at hMask
  · exact absurd hMask (by simp)
  · obtain rfl := Option.some.inj hMask
    refine ⟨length_foldl_clear _ _, fun i cell hCell => ?_⟩
    have hLength : i < c.length := by
      rw [← length_cells h]
      exact (List.getElem?_eq_some_iff.mp hCell).1
    rw [getElem?_cells, Option.map_eq_some_iff] at hCell
    obtain ⟨⟨chunk, k⟩, hRow, rfl⟩ := hCell
    rw [Bool.eq_iff_iff, get_foldl_clear_iff fun row hMem => lt_length_of_mem_nullRows h hMem,
      Bitmap.get_allSet hLength, not_mem_nullRows_iff h, hRow]
    simp [Chunk.cell]

end Column

end Columnar
