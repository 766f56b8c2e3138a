import Columnar.Proofs.Context.Records

/-!
# Compaction keeps the records

Compacting a context leaves the same records in a table that consists of them, and the
table depends on nothing else: not on the chunks it came from, nor on rows that are not
selected.

* `exists_materialized` -- compaction packs every column to its selected cells.
* `materialize_ok` -- a pending selection over columns of fixed width can be compacted,
  and the compacted table has the selected records.
* `Alike.materialize_eq` -- like contexts are compacted into the same table.
-/

namespace Columnar

namespace Context

variable {ctx ctx' : Context} {selection : Bitmap}

/-- Compaction of a pending selection, column by column. -/
theorem materialize_eq (hCtx : ctx.WellFormed) (hChunks : ctx.table.isChunkless = false)
    (hSelection : ctx.selection = some selection) (chunkSize : Nat) :
    ctx.materialize chunkSize =
      match ctx.table.schema.fields.find? fun field => !field.type.isFixedWidth with
      | some field => .error
          (.notImplemented s!"materializing {field.type.name} column '{field.name}'")
      | none =>
          ctx.table.columns.mapM (fun c => c.compact selection chunkSize) >>= fun columns =>
            Table.make ctx.table.schema columns >>= fun t => .ok (ofTable t) := by
  rw [materialize, hCtx.checkSelection, Result.ok_bind, hChunks, if_neg (by simp), hSelection]
  cases hFind : ctx.table.schema.fields.find? fun field => !field.type.isFixedWidth <;> rfl

/-- Only columns of fixed width can be compacted. -/
theorem isFixedWidth_of_materialize (hCtx : ctx.WellFormed)
    (hChunks : ctx.table.isChunkless = false) (hPending : ctx.selection.isSome = true)
    {chunkSize : Nat} (h : ctx.materialize chunkSize = .ok ctx') :
    ∀ field ∈ ctx.table.schema.fields, field.type.isFixedWidth = true := by
  obtain ⟨selection, hSelection⟩ := Option.isSome_iff_exists.mp hPending
  rw [materialize_eq hCtx hChunks hSelection] at h
  cases hFind : ctx.table.schema.fields.find? fun field => !field.type.isFixedWidth with
  | some field =>
      rw [hFind] at h
      exact absurd h (by simp)
  | none => simpa using List.find?_eq_none.mp hFind

/-- A table with chunks is compacted only when a selection is pending. -/
theorem isSome_of_materialize (hChunks : ctx.table.isChunkless = false) {chunkSize : Nat}
    (h : ctx.materialize chunkSize = .ok ctx') : ctx.selection.isSome = true := by
  cases hSelection : ctx.selection with
  | some b => rfl
  | none =>
      obtain ⟨_, -, hRest⟩ := Result.bind_eq_ok_iff.mp h
      rw [hChunks, if_neg (by simp), hSelection] at hRest
      exact (Result.throw_ne_ok _ _ hRest).elim

/-- Compaction leaves a table without chunks as it is. -/
theorem materialize_of_isChunkless (hCtx : ctx.WellFormed)
    (hChunks : ctx.table.isChunkless = true) (chunkSize : Nat) :
    ctx.materialize chunkSize = .ok ctx.selectAll := by
  rw [materialize, hCtx.checkSelection, Result.ok_bind, hChunks, if_pos rfl]
  rfl

/-- The cells that compaction selects from a column are the cells of the kept rows. -/
theorem map_some_selectedCells (hCtx : ctx.WellFormed)
    (hSelection : ctx.selection = some selection) {column : Column}
    (hMem : column ∈ ctx.table.columns) :
    (column.selectedCells selection).map some = ctx.keptRows.map (column.cells[·]?) := by
  have hRows : (List.range column.length).filter selection.get = ctx.keptRows := by
    rw [Table.length_of_mem hMem, keptRows]
    refine List.filter_congr fun i _ => ?_
    rw [keeps, hSelection]
  rw [Column.map_some_selectedCells (hCtx.table_wellFormed column hMem), hRows]

theorem isFixedWidth_of_mem
    (hFixed : ∀ field ∈ ctx.table.schema.fields, field.type.isFixedWidth = true)
    {column : Column} (hMem : column ∈ ctx.table.columns) : column.type.isFixedWidth = true := by
  have hTypes : column.type ∈ ctx.table.schema.fields.map Field.type := by
    rw [← ctx.table.types_eq]
    exact List.mem_map_of_mem hMem
  obtain ⟨field, hField, hSame⟩ := List.mem_map.mp hTypes
  rw [← hSame]
  exact hFixed field hField

/-- What a compacted column has in common with the column it comes from. -/
structure Compacted (ctx : Context) (column compacted : Column) : Prop where
  type_eq : compacted.type = column.type
  wellFormed : compacted.WellFormed
  chunks_ne_nil : compacted.chunks ≠ []
  cells_eq : compacted.cells.map some = ctx.keptRows.map (column.cells[·]?)
  tracks_eq : ctx.keptRows ≠ [] → compacted.tracksValidity = column.tracksValidity

/-- The cell of row `i` of a compacted column is the cell of the kept row number `i`. -/
theorem Compacted.getElem?_cells {column compacted : Column}
    (h : ctx.Compacted column compacted) (hCtx : ctx.WellFormed)
    (hMem : column ∈ ctx.table.columns) {i : Nat} (hi : i < ctx.keptRows.length) :
    compacted.cells[i]? = column.cells[ctx.keptRows[i]]? := by
  have hRow := (mem_keptRows ctx ctx.keptRows[i]).mp (List.getElem_mem hi)
  obtain ⟨cell, hCell⟩ := exists_cell hCtx.table_wellFormed hMem hRow.1
  have hAt := congrArg (·[i]?) h.cells_eq
  simp only [List.getElem?_map, List.getElem?_eq_getElem hi, Option.map_some, hCell,
    Option.map_eq_some_iff, Option.some.injEq, exists_eq_right] at hAt
  rw [hAt, hCell]

/-- A selection has a bit for each row of every column. -/
theorem length_selection (hCtx : ctx.WellFormed) (hSelection : ctx.selection = some selection)
    {column : Column} (hMem : column ∈ ctx.table.columns) :
    selection.length = column.length := by
  rw [Table.length_of_mem hMem]
  exact hCtx.selection_fits selection hSelection

/-- As many rows are kept as the selection has bits. -/
theorem length_keptRows (hCtx : ctx.WellFormed) (hSelection : ctx.selection = some selection) :
    ctx.keptRows.length = selection.count := by
  rw [keptRows, Bitmap.count_eq_countP, hCtx.selection_fits selection hSelection,
    List.countP_eq_length_filter]
  exact congrArg List.length (List.filter_congr fun i _ => by rw [keeps, hSelection])

/-- A pending selection over columns of fixed width is compacted without a check that fails.
Every column of the compacted table is the packing of its selected cells. -/
theorem exists_materialized (hCtx : ctx.WellFormed) (hChunks : ctx.table.isChunkless = false)
    (hFixed : ∀ field ∈ ctx.table.schema.fields, field.type.isFixedWidth = true)
    (hSelection : ctx.selection = some selection) (chunkSize : Nat) :
    ∃ t, ctx.materialize chunkSize = .ok (ofTable t) ∧ t.schema = ctx.table.schema ∧
      t.rowCount = selection.count ∧
      t.columns = ctx.table.columns.map (·.packSelected selection (max chunkSize 1)) := by
  have hSize : 0 < max chunkSize 1 := by omega
  let packed : Column → Column := (·.packSelected selection (max chunkSize 1))
  have hColumns : ctx.table.columns.mapM (fun c => c.compact selection chunkSize) =
      .ok (ctx.table.columns.map packed) :=
    Result.mapM_eq_ok_map fun column hMem =>
      Column.compact_eq_pack (hCtx.table_wellFormed column hMem)
        (isFixedWidth_of_mem hFixed hMem) (length_selection hCtx hSelection hMem) chunkSize
  have hTypes : (ctx.table.columns.map packed).map Column.type =
      ctx.table.schema.fields.map Field.type := by
    rw [← ctx.table.types_eq, List.map_map]
    rfl
  have hLengths : ∀ c ∈ ctx.table.columns.map packed, c.length = selection.count :=
    List.forall_mem_map.mpr fun column hMem =>
      Column.length_packSelected (hCtx.table_wellFormed column hMem)
        (isFixedWidth_of_mem hFixed hMem) (length_selection hCtx hSelection hMem) hSize
  obtain ⟨t, hMake, hSchema, hMade, hRows⟩ := Table.exists_make hTypes hLengths
  refine ⟨t, ?_, hSchema, hRows fun hNil => ?_, hMade⟩
  · rw [materialize_eq hCtx hChunks hSelection, List.find?_eq_none.mpr (by simpa using hFixed),
      hColumns, Result.ok_bind, hMake, Result.ok_bind]
  · have hNone : ctx.table.columns = [] := List.map_eq_nil_iff.mp hNil
    simp [Table.isChunkless, hNone] at hChunks

/-- The packing of the selected cells is a compacted column. -/
theorem compacted_packSelected (hCtx : ctx.WellFormed) (hSelection : ctx.selection = some selection)
    {column : Column} (hMem : column ∈ ctx.table.columns)
    (hFixed : column.type.isFixedWidth = true) {size : Nat} (hSize : 0 < size) :
    ctx.Compacted column (column.packSelected selection size) := by
  have hColumn := hCtx.table_wellFormed column hMem
  have hCells := map_some_selectedCells hCtx hSelection hMem
  constructor
  case type_eq => rfl
  case wellFormed => exact Column.wellFormed_packSelected hColumn hFixed selection hSize
  case chunks_ne_nil => exact Column.chunks_pack_ne_nil hSize
  case cells_eq => rw [Column.cells_packSelected hColumn hFixed selection hSize, hCells]
  case tracks_eq =>
    refine fun hKept => Column.tracksValidity_pack (fun hNone => hKept ?_) hSize
    rw [hNone] at hCells
    exact List.map_eq_nil_iff.mp hCells.symm

/-- A table of the selected rows has the selected records. -/
theorem records_ofTable_eq {t : Table} (hRows : t.rowCount = ctx.keptRows.length)
    (hRecord : ∀ i (hi : i < ctx.keptRows.length),
      t.record i = ctx.table.record ctx.keptRows[i]) :
    (ofTable t).records = ctx.records := by
  rw [records_ofTable, records]
  refine List.ext_getElem (by simp [hRows]) fun i hLeft hRight => ?_
  rw [List.length_map] at hRight
  simp only [List.getElem_map, List.getElem_range, hRecord i hRight]

/-- A pending selection over columns of fixed width can be compacted.  The compacted
table has the selected records, and every column of it has a chunk. -/
theorem materialize_ok (hCtx : ctx.WellFormed) (hChunks : ctx.table.isChunkless = false)
    (hPending : ctx.selection.isSome = true)
    (hFixed : ∀ field ∈ ctx.table.schema.fields, field.type.isFixedWidth = true)
    (chunkSize : Nat) :
    ∃ t, ctx.materialize chunkSize = .ok (ofTable t) ∧ t.WellFormed ∧
      (∀ column ∈ t.columns, column.chunks ≠ []) ∧ (ofTable t).Alike ctx := by
  obtain ⟨selection, hSelection⟩ := Option.isSome_iff_exists.mp hPending
  obtain ⟨t, hMade, hSchema, hRows, hColumns⟩ :=
    exists_materialized hCtx hChunks hFixed hSelection chunkSize
  rw [← length_keptRows hCtx hSelection] at hRows
  have hCompacted : ∀ column ∈ ctx.table.columns,
      ctx.Compacted column (column.packSelected selection (max chunkSize 1)) :=
    fun column hMem => compacted_packSelected hCtx hSelection hMem
      (isFixedWidth_of_mem hFixed hMem) (by omega)
  have hEach : ∀ c' ∈ t.columns, c'.WellFormed ∧ c'.chunks ≠ [] := by
    rw [hColumns]
    exact List.forall_mem_map.mpr fun column hMem =>
      ⟨(hCompacted column hMem).wellFormed, (hCompacted column hMem).chunks_ne_nil⟩
  refine ⟨t, hMade, fun c' hc' => (hEach c' hc').1, fun c' hc' => (hEach c' hc').2, hSchema, ?_,
    fun hSome => ?_⟩
  · refine records_ofTable_eq hRows fun i hi => ?_
    rw [Table.record, Table.record, hColumns, List.map_map]
    exact List.map_congr_left fun column hMem =>
      (hCompacted column hMem).getElem?_cells hCtx hMem hi
  · have hKept : ctx.keptRows ≠ [] := fun hNil => hSome <| by
      rw [records_ofTable, hRows, hNil]
      rfl
    show t.tracks = ctx.table.tracks
    rw [Table.tracks, Table.tracks, hColumns, List.map_map]
    exact List.map_congr_left fun column hMem => (hCompacted column hMem).tracks_eq hKept

/-- A compaction that succeeds on a table with chunks had a selection pending, and leaves
a table with the selected records in which every column has a chunk. -/
theorem compacted_of_materialize (hCtx : ctx.WellFormed)
    (hChunks : ctx.table.isChunkless = false) {chunkSize : Nat}
    (h : ctx.materialize chunkSize = .ok ctx') :
    ctx.selection.isSome = true ∧ ∃ t, ctx' = ofTable t ∧ t.WellFormed ∧
      (∀ column ∈ t.columns, column.chunks ≠ []) ∧ (ofTable t).Alike ctx := by
  have hPending := isSome_of_materialize hChunks h
  obtain ⟨t, hMade, hFacts⟩ := materialize_ok hCtx hChunks hPending
    (isFixedWidth_of_materialize hCtx hChunks hPending h) chunkSize
  rw [hMade] at h
  exact ⟨hPending, t, (Except.ok.inj h).symm, hFacts⟩

/-- The cells that compaction selects from a column are one column of the records. -/
theorem map_some_selectedCells_eq_map_records (hCtx : ctx.WellFormed)
    (hSelection : ctx.selection = some selection) {k : Nat} {column : Column}
    (hColumn : ctx.table.columns[k]? = some column) :
    (column.selectedCells selection).map some =
      ctx.records.map fun record => record[k]?.join := by
  rw [map_some_selectedCells hCtx hSelection (List.mem_of_getElem? hColumn),
    map_records ctx hColumn]

/-- Columns at one position of like contexts are compacted into the same column. -/
theorem Alike.compact_eq {a b : Context} (h : a.Alike b) (ha : a.WellFormed) (hb : b.WellFormed)
    {selection selection' : Bitmap} (hSelection : a.selection = some selection)
    (hSelection' : b.selection = some selection') {k : Nat} {column column' : Column}
    (hColumn : a.table.columns[k]? = some column) (hColumn' : b.table.columns[k]? = some column')
    (hType : column.type = column'.type) (hFixed : column'.type.isFixedWidth = true)
    (chunkSize : Nat) :
    column.compact selection chunkSize = column'.compact selection' chunkSize := by
  have hCells : column.selectedCells selection = column'.selectedCells selection' := by
    refine (List.map_inj_right fun _ _ => Option.some.inj).mp ?_
    rw [map_some_selectedCells_eq_map_records ha hSelection hColumn,
      map_some_selectedCells_eq_map_records hb hSelection' hColumn', h.records_eq]
  rw [Column.compact_eq_pack (Table.wellFormed_of_getElem? ha.table_wellFormed hColumn)
      (by rw [hType]; exact hFixed)
      (length_selection ha hSelection (List.mem_of_getElem? hColumn)),
    Column.compact_eq_pack (Table.wellFormed_of_getElem? hb.table_wellFormed hColumn') hFixed
      (length_selection hb hSelection' (List.mem_of_getElem? hColumn')),
    Column.packSelected, Column.packSelected, hCells, hType]
  by_cases hNone : a.records = []
  · -- Without records only an empty chunk is left, whether validity is tracked or not.
    have hNoCells : column'.selectedCells selection' = [] := by
      have hMap := map_some_selectedCells_eq_map_records hb hSelection' hColumn'
      rw [← h.records_eq, hNone] at hMap
      exact List.map_eq_nil_iff.mp hMap
    rw [hNoCells, Column.pack_nil, Column.pack_nil]
  · have hTracks : column.tracksValidity = column'.tracksValidity := by
      simpa [Table.tracks, hColumn, hColumn'] using congrArg (·[k]?) (h.tracks_eq hNone)
    rw [hTracks]

/-- Like contexts are compacted into the same table. -/
theorem Alike.materialize_eq {a b : Context} (h : a.Alike b) (ha : a.WellFormed)
    (hb : b.WellFormed) (hChunks : a.table.isChunkless = false)
    (hChunks' : b.table.isChunkless = false) (hPending : a.selection.isSome = true)
    (hPending' : b.selection.isSome = true) (chunkSize : Nat) :
    a.materialize chunkSize = b.materialize chunkSize := by
  obtain ⟨selection, hSelection⟩ := Option.isSome_iff_exists.mp hPending
  obtain ⟨selection', hSelection'⟩ := Option.isSome_iff_exists.mp hPending'
  rw [Context.materialize_eq ha hChunks hSelection,
    Context.materialize_eq hb hChunks' hSelection', h.schema_eq]
  cases hFind : b.table.schema.fields.find? fun field => !field.type.isFixedWidth with
  | some field => rfl
  | none =>
      have hFixed : ∀ field ∈ b.table.schema.fields, field.type.isFixedWidth = true := by
        simpa using List.find?_eq_none.mp hFind
      have hTypes : a.table.columns.map Column.type = b.table.columns.map Column.type := by
        rw [a.table.types_eq, b.table.types_eq, h.schema_eq]
      have hSame : a.table.columns.map (·.compact selection chunkSize) =
          b.table.columns.map (·.compact selection' chunkSize) := by
        refine List.ext_getElem (by simpa using congrArg List.length hTypes)
          fun k hLeft hRight => ?_
        rw [List.length_map] at hLeft hRight
        have hColumn : a.table.columns[k]? = some a.table.columns[k] :=
          List.getElem?_eq_getElem hLeft
        have hColumn' : b.table.columns[k]? = some b.table.columns[k] :=
          List.getElem?_eq_getElem hRight
        have hType : a.table.columns[k].type = b.table.columns[k].type := by
          simpa [hColumn, hColumn'] using congrArg (·[k]?) hTypes
        rw [List.getElem_map, List.getElem_map]
        exact h.compact_eq ha hb hSelection hSelection' hColumn hColumn' hType
          (isFixedWidth_of_mem hFixed (List.getElem_mem hRight)) chunkSize
      rw [Result.mapM_eq_of_map_eq hSame]

end Context

end Columnar
