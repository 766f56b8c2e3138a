import Columnar.Proofs.Context.Materialize
import Mathlib.Data.List.Forall2

/-!
# The layout of a compacted table

A compacted table has the selected rows of every column, in order, and its chunks are cut by
the chunk size alone.  `Column.CompactsTo` says what that means for one column.

* `Column.compactsTo_packSelected` -- the packing of the selected cells has this layout.
* `Context.materialize_layout` -- every compaction of a pending selection over columns of
  fixed width succeeds, with this layout for every column.
-/

namespace Columnar

/-- The column `compacted` consists of the selected rows of `column`, in chunks of `size`
rows. -/
structure Column.CompactsTo (selection : Bitmap) (size : Nat) (column compacted : Column) :
    Prop where
  type_eq : compacted.type = column.type
  wellFormed : compacted.WellFormed
  /-- The rows are the selected ones in their order, each with its bytes and its validity. -/
  cells_eq : compacted.cells.map some =
    ((List.range selection.length).filter selection.get).map (column.cells[·]?)
  /-- The chunks hold the value bytes of their rows, one after the other. -/
  bytes_eq : compacted.chunks.flatMap (fun chunk => chunk.bytes.toList) =
    compacted.cells.flatMap Cell.bytes
  /-- Without a selected row there is one empty chunk, which has no validity bitmap. -/
  chunks_of_none : selection.count = 0 → compacted.chunks = [Chunk.empty column.type]
  /-- There are as many chunks as the selected rows need. -/
  length_chunks : selection.count ≠ 0 →
    compacted.chunks.length = (selection.count + size - 1) / size
  /-- Every chunk but the last is full, and none is empty. -/
  length_chunk : selection.count ≠ 0 → ∀ i chunk, compacted.chunks[i]? = some chunk →
    (i + 1 < compacted.chunks.length → chunk.length = size) ∧
      0 < chunk.length ∧ chunk.length ≤ size
  /-- A chunk has a validity bitmap exactly when some chunk of the column has one. -/
  validity_iff : selection.count ≠ 0 → ∀ chunk ∈ compacted.chunks,
    (chunk.validity.isSome = true ↔ ∃ source ∈ column.chunks, source.validity.isSome = true)

namespace Column

variable {column : Column} {selection : Bitmap}

theorem selectedCells_ne_nil_iff (h : column.WellFormed)
    (hLength : selection.length = column.length) :
    column.selectedCells selection ≠ [] ↔ selection.count ≠ 0 := by
  rw [← length_selectedCells h hLength, Ne, Ne, List.length_eq_zero_iff]

/-- The packing of the selected cells is the compacted column. -/
theorem compactsTo_packSelected (h : column.WellFormed)
    (hFixed : column.type.isFixedWidth = true) (hLength : selection.length = column.length)
    {size : Nat} (hSize : 0 < size) :
    CompactsTo selection size column (column.packSelected selection size) := by
  have hCells := cells_packSelected h hFixed selection hSize
  have hSome := selectedCells_ne_nil_iff h hLength
  constructor
  case type_eq => rfl
  case wellFormed => exact wellFormed_packSelected h hFixed selection hSize
  case cells_eq => rw [hCells, map_some_selectedCells h, hLength]
  case bytes_eq => rw [hCells, packSelected, bytes_pack hSize]
  case chunks_of_none =>
    intro hNone
    have hNil : column.selectedCells selection = [] := by
      by_contra hNonempty
      exact hSome.mp hNonempty hNone
    rw [packSelected, hNil, pack_nil]
    rfl
  case length_chunks =>
    intro hCount
    rw [packSelected, chunks_pack (hSome.mpr hCount), List.length_map, length_pieces,
      length_selectedCells h hLength]
  case length_chunk => exact fun hCount i chunk => length_pack (hSome.mpr hCount) hSize
  case validity_iff =>
    intro hCount chunk hMem
    rw [validity_pack (hSome.mpr hCount) hMem, tracksValidity, List.any_eq_true]

end Column

namespace Context

variable {ctx : Context} {selection : Bitmap}

/-- A pending selection over columns of fixed width is compacted without a check that fails.
The compacted context has no selection, the schema of the table and as many rows as are
selected, and every column of it consists of the selected rows in chunks of the chunk size;
a size of zero acts as one. -/
theorem materialize_layout (hTable : ctx.table.WellFormed)
    (hChunks : ctx.table.isChunkless = false)
    (hFixed : ∀ field ∈ ctx.table.schema.fields, field.type.isFixedWidth = true)
    (hSelection : ctx.selection = some selection)
    (hLength : selection.length = ctx.table.rowCount) (chunkSize : Nat) :
    ∃ ctx', ctx.materialize chunkSize = .ok ctx' ∧ ctx'.selection = none ∧
      ctx'.table.schema = ctx.table.schema ∧ ctx'.table.rowCount = selection.count ∧
      List.Forall₂ (Column.CompactsTo selection (max chunkSize 1)) ctx.table.columns
        ctx'.table.columns := by
  have hCtx : ctx.WellFormed :=
    ⟨hTable, fun b hb => by rw [← hLength, Option.some.inj (hSelection.symm.trans hb)]⟩
  obtain ⟨t, hMade, hSchema, hRows, hColumns⟩ :=
    exists_materialized hCtx hChunks hFixed hSelection chunkSize
  refine ⟨ofTable t, hMade, rfl, hSchema, hRows, ?_⟩
  show List.Forall₂ _ ctx.table.columns t.columns
  rw [hColumns, List.forall₂_map_right_iff, List.forall₂_same]
  exact fun column hMem => Column.compactsTo_packSelected (hTable column hMem)
    (isFixedWidth_of_mem hFixed hMem) (length_selection hCtx hSelection hMem) (by omega)

/-- All rows of the sample but the second, with bits set in the padding. -/
def fourOfFive : Bitmap :=
  ⟨#[0xbd], 5, rfl⟩

/-- Four rows of the sample in chunks of three: a full chunk and one with the last row. -/
theorem materialize_sample_layout :
    ∃ ctx', ((ofTable .sample).select fourOfFive).materialize 3 = .ok ctx' ∧
      ctx'.selection = none ∧ ctx'.table.schema = Table.sample.schema ∧
      ctx'.table.rowCount = fourOfFive.count ∧
      List.Forall₂ (Column.CompactsTo fourOfFive 3) Table.sample.columns ctx'.table.columns :=
  @materialize_layout ((ofTable .sample).select fourOfFive) fourOfFive Table.wellFormed_sample rfl
    (by decide) rfl rfl 3

end Context

end Columnar
