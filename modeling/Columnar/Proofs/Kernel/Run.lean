import Columnar.Proofs.Column.Rows
import Columnar.Proofs.Kernel.Mask
import Columnar.Proofs.Kernel.Span

/-!
# Running a program over a column

The masks that a program makes for a column clear the bit of a row exactly when the
word of the row fails the condition.  A mask of a span that fits decides the rows of the
elements that the span reads (`Span.keeps_mask_iff`), and the spans of a chunk read all of
its elements (`keeps_chunkMasks_iff`).

* `columnMasks_eq_ok` -- the masks of a column are those of the spans of its chunks.
* `Program.run_ok` -- running a program over a filled column of its type never fails, and
  keeps the bit of a row exactly when it was set and the word of the row satisfies the
  condition.  Bits past the last row stay as they are.
-/

namespace Columnar

open ByteMask (Keeps)

/-- The mask of a span that fits decides the rows of the elements that the span reads, and
no other row. -/
theorem Span.keeps_mask_iff {s : Span} {start length : Nat} (hFits : s.Fits start length)
    (c : Condition) (chunk : Chunk) (i : Nat) :
    ((s.mask c (s.reads.map chunk.word)).index = i / 8 →
        Byte.bit (s.mask c (s.reads.map chunk.word)).keep i = true) ↔
      (start ≤ i → i - start ∈ s.reads → c.holds (chunk.word (i - start)) = true) := by
  have hCount := hFits.count_pos
  have hBit := hFits.bit_add_count_le
  have hRow := hFits.row_eq
  simp only [mask_eq_boundaryKeep, Condition.boundaryKeep, Byte.bit_pack, mem_reads]
  constructor
  · rintro h hLower ⟨hElement, hEnd⟩
    have hKeep := h (by omega)
    have hPlace : s.element + (i % 8 - s.bit) = i - start := by omega
    rwa [if_pos (by omega), hPlace] at hKeep
  · intro h hIndex
    split
    · have hPlace : s.element + (i % 8 - s.bit) = i - start := by omega
      rw [hPlace]
      exact h (by omega) (by omega)
    · rfl

namespace Program

/-- The spans of a chunk together decide every row of the chunk, and no other row. -/
theorem keeps_chunkMasks_iff (c : Condition) {chunk : Chunk} (hLength : chunk.length < 2 ^ 63)
    (start i : Nat) :
    Keeps (masks c chunk (chunkSpans start chunk.length)) i ↔
      (start ≤ i → i < start + chunk.length → c.holds (chunk.word (i - start)) = true) := by
  simp only [Keeps, masks, List.forall_mem_map]
  constructor
  · intro h hLower hUpper
    obtain ⟨s, hMem, hReads⟩ := exists_mem_reads start hLength
      (show i - start < chunk.length by omega)
    exact (Span.keeps_mask_iff (fits_of_mem_chunkSpans hLength hMem) c chunk i).mp
      (h s hMem) hLower hReads
  · intro h s hMem
    have hFits := fits_of_mem_chunkSpans hLength hMem
    refine (Span.keeps_mask_iff hFits c chunk i).mpr fun hLower hReads => h hLower ?_
    have hEnd := hFits.element_add_count_le
    have hRead := (Span.mem_reads.mp hReads).2
    omega

section Column

variable {k : Program} {column : Column}

/-- The masks of the bulk passes of a column, chunk by chunk. -/
def bulkPasses (k : Program) (column : Column) : List (List ByteMask) :=
  column.placed.map fun e => masks k.condition e.2 (bulkSpans e.1 e.2.length)

/-- The masks of the boundary passes of a column, chunk by chunk. -/
def boundaryPasses (k : Program) (column : Column) : List (List ByteMask) :=
  column.placed.map fun e => masks k.condition e.2 (boundarySpans e.1 e.2.length)

/-- All masks of a column, the bulk passes first. -/
def passMasks (k : Program) (column : Column) : List ByteMask :=
  (k.bulkPasses column).flatten ++ (k.boundaryPasses column).flatten

/-- No pass over a chunk of the column is refused. -/
theorem passes_ok (hColumn : column.Filled) (hType : column.type = k.field.type)
    (hFixed : k.field.type.isFixedWidth = true) {e : Nat × Chunk} (he : e ∈ column.placed) :
    k.bulkOf e.1 e.2 = .ok (masks k.condition e.2 (bulkSpans e.1 e.2.length)) ∧
      k.boundariesOf e.1 e.2 =
        .ok (masks k.condition e.2 (boundarySpans e.1 e.2.length)) := by
  obtain ⟨hEnd, hMem⟩ := hColumn.bounds_of_mem_placed he
  have hCheck : k.checkChunk e.2 = .ok () :=
    checkChunk_ok ((column.chunks_type e.2 hMem).trans hType) hFixed
  have hRows := hColumn.rows_lt
  rw [← hColumn.length_eq_total] at hRows
  exact ⟨bulkOf_eq_ok_masks hCheck e.1, boundariesOf_eq_ok_masks hCheck (by omega)⟩

/-- The masks of a column are those of the spans of its chunks. -/
theorem columnMasks_eq_ok (hColumn : column.Filled) (hType : column.type = k.field.type)
    (hFixed : k.field.type.isFixedWidth = true) :
    k.columnMasks column = .ok (k.passMasks column) := by
  have hBulk := Result.mapM_eq_ok_map (l := column.placed) (f := fun e => k.bulkOf e.1 e.2)
    fun e he => (passes_ok hColumn hType hFixed he).1
  have hBoundaries := Result.mapM_eq_ok_map (l := column.placed)
    (f := fun e => k.boundariesOf e.1 e.2) fun e he => (passes_ok hColumn hType hFixed he).2
  rw [columnMasks, hBulk, Result.ok_bind, hBoundaries]
  rfl

/-- The masks of a column decide every row by the word of the row. -/
theorem keeps_passMasks_iff (hColumn : column.Filled)
    (hFixed : column.type.isFixedWidth = true) (i : Nat) :
    Keeps (k.passMasks column) i ↔
      ∀ w, column.word? i = some w → k.condition.holds w = true := by
  have hRows : 0 + total (column.chunks.map Chunk.length) < 2 ^ 64 := by
    have := hColumn.rows_lt
    omega
  rw [← column.forall_locateRow_iff fun w => k.condition.holds w = true, passMasks,
    ByteMask.keeps_append_iff, ByteMask.keeps_flatten_iff, ByteMask.keeps_flatten_iff,
    ← Nat.sub_zero i, ← forall_placeChunks_iff 0 column.chunks hRows i (Nat.zero_le i)]
  simp only [Nat.sub_zero, bulkPasses, boundaryPasses, List.forall_mem_map, ← forall_and]
  refine forall_congr' fun e => forall_congr' fun he => ?_
  have hMem := (hColumn.bounds_of_mem_placed he).2
  rw [← ByteMask.keeps_append_iff, ← keeps_chunkMasks_iff _ (hColumn.length_lt hFixed hMem),
    chunkSpans, masks, masks, masks, List.map_append]

theorem run_eq_ok_masked (hColumn : column.Filled) (hType : column.type = k.field.type)
    (hFixed : k.field.type.isFixedWidth = true) (b : Bitmap) :
    k.run column b = .ok (b.masked (k.passMasks column)) := by
  rw [run, columnMasks_eq_ok hColumn hType hFixed]
  rfl

/-- Running a program over a column of its type never fails.  It keeps the bit of a row
that was set and whose word satisfies the condition, and clears the bit of every other
row; a bit past the last row stays as it is. -/
theorem run_ok (hColumn : column.Filled) (hType : column.type = k.field.type)
    (hFixed : k.field.type.isFixedWidth = true) (b : Bitmap) :
    ∃ b', k.run column b = .ok b' ∧ b'.length = b.length ∧
      ∀ i, b'.get i = true ↔ b.get i = true ∧
        ∀ w, column.word? i = some w → k.condition.holds w = true := by
  refine ⟨_, run_eq_ok_masked hColumn hType hFixed b, rfl, fun i => ?_⟩
  rw [Bitmap.get_masked_iff, keeps_passMasks_iff hColumn (hType ▸ hFixed) i]

end Column

end Program

end Columnar
