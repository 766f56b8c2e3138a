import Columnar.Proofs.Kernel.Interleaving
import Columnar.Proofs.Kernel.Run

/-!
# The bulk passes of a column keep apart

The bulk passes of a column write to one bitmap from several workers, without a lock.  They
may, because a byte that a bulk pass writes holds rows of one chunk only.  `Isolation` lists
what that takes: where the passes write, what they read, and that no order of their loads and
stores shows in the bitmap.

* `rows_of_mem_bulkSpans` -- the byte of a bulk span holds eight rows of its chunk.
* `separate_bulkPasses` -- the workers of the bulk passes keep apart.
* `isolation` -- every filled column of the type of a program is run in isolation.
-/

namespace Columnar

/-- A span that fits goes to a byte of every bitmap that has the rows of the chunk. -/
theorem Span.Fits.index_lt {s : Span} {start length rows : Nat} (h : s.Fits start length)
    (hRows : start + length ≤ rows) : s.index < bytesFor rows := by
  have hCount := h.count_pos
  have hElement := h.element_add_count_le
  rw [h.index_eq]
  exact div_lt_bytesFor (by omega)

namespace Program

/-- The byte of a bulk span holds eight rows of its chunk. -/
theorem rows_of_mem_bulkSpans {start length : Nat} (hLength : length < 2 ^ 63) {s : Span}
    (h : s ∈ bulkSpans start length) :
    start ≤ 8 * s.index ∧ 8 * s.index + 8 ≤ start + length := by
  obtain ⟨group, hGroup, rfl⟩ := (mem_bulkSpans_iff hLength).mp h
  have hFits := (fits_bulkSpan hGroup).1
  have hRow := hFits.row_eq
  have hElement := hFits.element_add_count_le
  simp only [bulkSpan] at hRow hElement ⊢
  omega

/-- Running a program over a column, pass by pass, on the bytes of a bitmap. -/
structure Isolation (k : Program) (column : Column) (b : Bitmap) : Prop where
  /-- No pass is refused, and what a pass clears is what its spans say. -/
  passes_ok : ∀ e ∈ column.placed,
    k.bulkOf e.1 e.2 = .ok (masks k.condition e.2 (bulkSpans e.1 e.2.length)) ∧
      k.boundariesOf e.1 e.2 = .ok (masks k.condition e.2 (boundarySpans e.1 e.2.length))
  /-- The bulk passes of two chunks go to different bytes. -/
  bulk_disjoint : column.placed.Pairwise fun e e' =>
    ∀ s ∈ bulkSpans e.1 e.2.length, ∀ s' ∈ bulkSpans e'.1 e'.2.length, s.index ≠ s'.index
  /-- A bulk pass goes to bytes of the bitmap, each of which holds eight rows of the chunk. -/
  bulk_inside : ∀ e ∈ column.placed, ∀ s ∈ bulkSpans e.1 e.2.length,
    s.index < b.bytes.size ∧ e.1 ≤ 8 * s.index ∧ 8 * s.index + 8 ≤ e.1 + e.2.length
  /-- No boundary pass goes to a byte of a bulk pass. -/
  boundary_apart : ∀ e ∈ column.placed, ∀ e' ∈ column.placed,
    ∀ s ∈ bulkSpans e.1 e.2.length, ∀ s' ∈ boundarySpans e'.1 e'.2.length, s.index ≠ s'.index
  /-- A boundary pass goes to a byte of the bitmap and does not overflow it. -/
  boundary_inside : ∀ e ∈ column.placed, ∀ s ∈ boundarySpans e.1 e.2.length,
    s.index < b.bytes.size ∧ s.count + s.bit ≤ 8
  /-- Every element that is read is one of the chunk, and its bytes lie inside the chunk. -/
  reads_inside : ∀ e ∈ column.placed, ∀ s ∈ chunkSpans e.1 e.2.length, ∀ i ∈ s.reads,
    i < e.2.length ∧ wordMul i column.type.width + column.type.width ≤ e.2.bytes.size
  /-- The workers of the bulk passes come to an end, however they take turns.  When they
  have, the boundary passes in any order make the bitmap of the whole run. -/
  order_free : ∃ b', k.run column b = .ok b' ∧
    (∃ crew, Crew.Reaches (.start b.bytes (k.bulkPasses column)) crew ∧
      ∀ next, ¬ Crew.Step crew next) ∧
    ∀ crew, Crew.Reaches (.start b.bytes (k.bulkPasses column)) crew →
      (∀ next, ¬ Crew.Step crew next) →
      ∀ order, order.Perm (k.boundaryPasses column).flatten →
        ByteMask.applyAll crew.bytes order = b'.bytes

section Column

variable {k : Program} {column : Column}

theorem bulkSpans_apart (hColumn : column.Filled) (hFixed : column.type.isFixedWidth = true) :
    column.placed.Pairwise fun e e' =>
      ∀ s ∈ bulkSpans e.1 e.2.length, ∀ s' ∈ bulkSpans e'.1 e'.2.length,
        s.index ≠ s'.index := by
  refine hColumn.pairwise_placed.imp_of_mem fun {e e'} he he' hOrder s hs s' hs' => ?_
  have hLength := hColumn.length_lt hFixed (hColumn.bounds_of_mem_placed he).2
  have hLength' := hColumn.length_lt hFixed (hColumn.bounds_of_mem_placed he').2
  have hRows := rows_of_mem_bulkSpans hLength hs
  have hRows' := rows_of_mem_bulkSpans hLength' hs'
  omega

/-- A byte of a bulk pass holds rows of its own chunk only, so no boundary pass of another
chunk goes to it. -/
theorem boundarySpans_apart (hColumn : column.Filled)
    (hFixed : column.type.isFixedWidth = true) {e e' : Nat × Chunk} (he : e ∈ column.placed)
    (he' : e' ∈ column.placed) {s s' : Span} (hs : s ∈ bulkSpans e.1 e.2.length)
    (hs' : s' ∈ boundarySpans e'.1 e'.2.length) : s.index ≠ s'.index := by
  have hLength := hColumn.length_lt hFixed (hColumn.bounds_of_mem_placed he).2
  rcases hColumn.eq_or_apart he he' with rfl | hApart
  · exact index_ne_of_mem_boundarySpans hLength hs hs'
  · have hRows := rows_of_mem_bulkSpans hLength hs
    have hFits := fits_of_mem_boundarySpans hs'
    have hIndex := hFits.index_eq
    have hCount := hFits.count_pos
    have hElement := hFits.element_add_count_le
    omega

/-- The workers of the bulk passes keep apart. -/
theorem separate_bulkPasses (hColumn : column.Filled)
    (hFixed : column.type.isFixedWidth = true) {b : Bitmap} (hLength : b.length = column.length) :
    (Crew.start b.bytes (k.bulkPasses column)).Separate := by
  have hIndices : ((k.bulkPasses column).flatten.map ByteMask.index) =
      column.placed.flatMap fun e => (bulkSpans e.1 e.2.length).map Span.index := by
    simp only [bulkPasses, masks, List.map_flatten, List.map_map, List.flatMap_def,
      Function.comp_def, Span.mask]
  refine Crew.separate_start ?_ fun m hm => ?_
  · rw [hIndices, List.nodup_flatMap]
    refine ⟨fun e _ => nodup_index_bulkSpans e.1 e.2.length, ?_⟩
    refine (bulkSpans_apart hColumn hFixed).imp fun {e e'} hApart => ?_
    refine List.disjoint_left.mpr fun index hIndex hIndex' => ?_
    obtain ⟨s, hs, rfl⟩ := List.mem_map.mp hIndex
    obtain ⟨s', hs', hSame⟩ := List.mem_map.mp hIndex'
    exact hApart s hs s' hs' hSame.symm
  · have hIndex : m.index ∈ (k.bulkPasses column).flatten.map ByteMask.index :=
      List.mem_map_of_mem hm
    rw [hIndices] at hIndex
    obtain ⟨e, he, hIndex⟩ := List.mem_flatMap.mp hIndex
    obtain ⟨s, hs, hSame⟩ := List.mem_map.mp hIndex
    obtain ⟨hEnd, hMem⟩ := hColumn.bounds_of_mem_placed he
    rw [← hSame, b.size_eq, hLength]
    exact (fits_of_mem_bulkSpans (hColumn.length_lt hFixed hMem) hs).index_lt hEnd

/-- A program runs over every filled column of its type in isolation: whatever the chunks
are, the passes stay inside their own bytes, read elements of their own chunks and give one
bitmap in every order. -/
theorem isolation (hColumn : column.Filled) (hType : column.type = k.field.type)
    (hFixed : k.field.type.isFixedWidth = true) {b : Bitmap}
    (hLength : b.length = column.length) : k.Isolation column b := by
  have hWidth : column.type.isFixedWidth = true := hType ▸ hFixed
  have hSmall : ∀ e ∈ column.placed, e.2.length < 2 ^ 63 := fun e he =>
    hColumn.length_lt hWidth (hColumn.bounds_of_mem_placed he).2
  have hRoom : ∀ e ∈ column.placed, ∀ s : Span, s.Fits e.1 e.2.length →
      s.index < b.bytes.size := fun e he s hFits => by
    rw [b.size_eq, hLength]
    exact hFits.index_lt (hColumn.bounds_of_mem_placed he).1
  refine
    { passes_ok := fun e he => passes_ok hColumn hType hFixed he
      bulk_disjoint := bulkSpans_apart hColumn hWidth
      bulk_inside := fun e he s hs =>
        ⟨hRoom e he s (fits_of_mem_bulkSpans (hSmall e he) hs),
          rows_of_mem_bulkSpans (hSmall e he) hs⟩
      boundary_apart := fun e he e' he' s hs s' hs' =>
        boundarySpans_apart hColumn hWidth he he' hs hs'
      boundary_inside := fun e he s hs => ?_
      reads_inside := fun e he s hs i hi => ?_
      order_free := ?_ }
  · have hFits := fits_of_mem_boundarySpans hs
    exact ⟨hRoom e he s hFits, by rw [Nat.add_comm]; exact hFits.bit_add_count_le⟩
  · have hFits := fits_of_mem_chunkSpans (hSmall e he) hs
    have hElement := hFits.element_add_count_le
    have hRead := (Span.mem_reads.mp hi).2
    have hInside : i < e.2.length := by omega
    obtain ⟨hPlace, hEnd⟩ :=
      hColumn.wordMul_add_width_le (hColumn.bounds_of_mem_placed he).2 hInside
    exact ⟨hInside, by rw [hPlace]; exact hEnd⟩
  · have hSeparate : (Crew.start b.bytes (k.bulkPasses column)).Separate :=
      separate_bulkPasses hColumn hWidth hLength
    refine ⟨_, run_eq_ok_masked hColumn hType hFixed b, ?_, ?_⟩
    · obtain ⟨crew, hRun, hFinished⟩ := hSeparate.exists_finished
      exact ⟨crew, hRun, Crew.not_step_of_pending hFinished⟩
    · intro crew hRun hEnd order hOrder
      have hBytes := (hSeparate.bytes_eq hRun hEnd).2
      rw [Crew.pending_start] at hBytes
      calc
        ByteMask.applyAll crew.bytes order
            = ByteMask.applyAll crew.bytes (k.boundaryPasses column).flatten :=
          ByteMask.applyAll_perm hOrder _
        _ = ByteMask.applyAll b.bytes (k.passMasks column) := by
          rw [hBytes, passMasks, ByteMask.applyAll_append]
          rfl

end Column

/-- The program of `3 <= v and v < 30`. -/
def within : Program where
  field := { name := "v", type := .uint8 }
  condition := .combine .and (.test (.integer false 8 .ge 3#8)) (.test (.integer false 8 .lt 30#8))

/-- Of the five bytes of the rows two belong to one chunk each.  The boundary passes go to
the other three, the first of them from three chunks. -/
theorem isolation_uneven :
    Column.uneven.Filled ∧
      (Column.uneven.placed.flatMap fun e => bulkSpans e.1 e.2.length).map Span.index = [1, 3] ∧
      (Column.uneven.placed.flatMap fun e => boundarySpans e.1 e.2.length).map Span.index =
        [0, 0, 0, 2, 2, 4] ∧
      within.Isolation .uneven (.allSet 37) :=
  ⟨Column.filled_uneven, by decide +kernel, by decide +kernel,
    isolation Column.filled_uneven rfl rfl (by decide +kernel)⟩

end Program

end Columnar
