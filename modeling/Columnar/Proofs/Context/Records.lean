import Columnar.Proofs.Compaction.Column
import Columnar.Proofs.Selection.Filter

/-!
# The records of a context

A context stands for the records of its selected rows, in row order.  Two contexts may
hold tables of different lengths and still stand for the same records: one after a
compaction, and one with the selection still pending.

* `records_of_filter` -- a filter keeps the records that it accepts.
* `Alike` -- contexts with the same schema and the same records, which a compaction
  cannot tell apart.
-/

namespace Columnar

/-- For each column, whether it tracks validity. -/
def Table.tracks (t : Table) : List Bool :=
  t.columns.map Column.tracksValidity

namespace Context

variable {ctx ctx' : Context} {p : Predicate}

/-- The selected rows, in ascending order. -/
def keptRows (ctx : Context) : List Nat :=
  (List.range ctx.table.rowCount).filter ctx.keeps

/-- The records of the selected rows. -/
def records (ctx : Context) : List Record :=
  ctx.keptRows.map ctx.table.record

theorem mem_keptRows (ctx : Context) (i : Nat) :
    i ∈ ctx.keptRows ↔ i < ctx.table.rowCount ∧ ctx.keeps i = true := by
  simp [keptRows]

@[simp]
theorem keptRows_ofTable (t : Table) : (ofTable t).keptRows = List.range t.rowCount :=
  List.filter_eq_self.mpr fun _ _ => rfl

theorem records_ofTable (t : Table) :
    (ofTable t).records = (List.range t.rowCount).map t.record := by
  rw [records, keptRows_ofTable]
  rfl

theorem wellFormed_ofTable {t : Table} (h : t.WellFormed) : (ofTable t).WellFormed :=
  ⟨h, fun _ hSelection => absurd hSelection (by simp [ofTable])⟩

/-- Below the number of rows a column of the table has a cell. -/
theorem exists_cell (h : ctx.table.WellFormed) {column : Column}
    (hMem : column ∈ ctx.table.columns) {i : Nat} (hi : i < ctx.table.rowCount) :
    ∃ cell, column.cells[i]? = some cell := by
  have hLength : i < column.cells.length := by
    rw [Column.length_cells (h column hMem), Table.length_of_mem hMem]
    exact hi
  exact ⟨_, List.getElem?_eq_getElem hLength⟩

/-- One column of the records, row by row. -/
theorem map_records (ctx : Context) {k : Nat} {column : Column}
    (hColumn : ctx.table.columns[k]? = some column) :
    ctx.records.map (fun record => record[k]?.join) =
      ctx.keptRows.map (column.cells[·]?) := by
  rw [records, List.map_map]
  refine List.map_congr_left fun i _ => ?_
  rw [Function.comp, Table.getElem?_record, hColumn]
  rfl

/-- A filter keeps the table, and of the records those that it accepts. -/
theorem records_of_filter (hCtx : ctx.WellFormed) (hChunks : ctx.table.isChunkless = false)
    (h : ctx.filter p = .ok ctx') :
    ctx'.table = ctx.table ∧ ctx'.selection.isSome = true ∧ ctx'.WellFormed ∧
      ctx'.records = ctx.records.filter (ctx.table.schema.accepts p) := by
  obtain ⟨b, hFilter, hLength, hBits⟩ :=
    filter_of_admits hCtx hChunks (admits_of_filter hChunks h)
  rw [hFilter] at h
  obtain rfl := Except.ok.inj h
  refine ⟨rfl, rfl, ⟨hCtx.table_wellFormed, fun b' hb' => ?_⟩, ?_⟩
  · rw [← Option.some.inj hb']
    exact hLength
  · have hRows : (ctx.select b).keptRows =
        ctx.keptRows.filter fun i => ctx.table.schema.accepts p (ctx.table.record i) := by
      rw [keptRows, keptRows, List.filter_filter]
      exact List.filter_congr fun i hi => hBits i (List.mem_range.mp hi)
    rw [records, hRows, records, List.filter_map]
    rfl

/-- Two contexts have the same schema and the same records.  Where there are records,
their columns also track validity alike. -/
structure Alike (a b : Context) : Prop where
  schema_eq : a.table.schema = b.table.schema
  records_eq : a.records = b.records
  tracks_eq : a.records ≠ [] → a.table.tracks = b.table.tracks

namespace Alike

variable {a b c : Context}

theorem symm (h : a.Alike b) : b.Alike a :=
  ⟨h.schema_eq.symm, h.records_eq.symm, fun hSome =>
    (h.tracks_eq (by rw [h.records_eq]; exact hSome)).symm⟩

theorem trans (h : a.Alike b) (h' : b.Alike c) : a.Alike c :=
  ⟨h.schema_eq.trans h'.schema_eq, h.records_eq.trans h'.records_eq, fun hSome =>
    (h.tracks_eq hSome).trans (h'.tracks_eq (by rw [← h.records_eq]; exact hSome))⟩

/-- Like contexts are filtered alike. -/
theorem filter {a' : Context} (h : a.Alike b) (ha : a.WellFormed) (hb : b.WellFormed)
    (hChunks : a.table.isChunkless = false) (hChunks' : b.table.isChunkless = false)
    (hFilter : a.filter p = .ok a') : ∃ b', b.filter p = .ok b' ∧ a'.Alike b' := by
  have hAdmits := admits_of_filter hChunks hFilter
  rw [h.schema_eq] at hAdmits
  obtain ⟨bits, hFilter', -, -⟩ := filter_of_admits hb hChunks' hAdmits
  obtain ⟨hTable, -, -, hRecords⟩ := records_of_filter ha hChunks hFilter
  obtain ⟨-, -, -, hRecords'⟩ := records_of_filter hb hChunks' hFilter'
  refine ⟨_, hFilter', ?_, ?_, fun hSome => ?_⟩
  · rw [hTable]
    exact h.schema_eq
  · rw [hRecords, hRecords', h.records_eq, h.schema_eq]
  · rw [hTable]
    refine h.tracks_eq fun hNone => hSome ?_
    rw [hRecords, hNone, List.filter_nil]

end Alike

/-- Two filters in a row keep what their conjunction keeps. -/
theorem filter_and_of_filter_filter {q : Predicate} {mid last : Context}
    (hCtx : ctx.WellFormed) (hChunks : ctx.table.isChunkless = false)
    (hFirst : ctx.filter q = .ok mid) (hSecond : mid.filter p = .ok last) :
    ∃ ctx', ctx.filter (q.and p) = .ok ctx' ∧ ctx'.Alike last := by
  obtain ⟨hTable, -, hMid, hRecords⟩ := records_of_filter hCtx hChunks hFirst
  have hMidChunks : mid.table.isChunkless = false := by rw [hTable]; exact hChunks
  obtain ⟨hTable', -, -, hRecords'⟩ := records_of_filter hMid hMidChunks hSecond
  have hAdmits : ctx.table.schema.Admits (q.and p) := by
    refine (Schema.admits_combine_iff _ _ _ _).mpr ⟨admits_of_filter hChunks hFirst, ?_⟩
    rw [← hTable]
    exact admits_of_filter hMidChunks hSecond
  obtain ⟨bits, hFilter, -, -⟩ := filter_of_admits hCtx hChunks hAdmits
  obtain ⟨-, -, -, hBoth⟩ := records_of_filter hCtx hChunks hFilter
  have hSame : ctx.records.filter (ctx.table.schema.accepts (q.and p)) =
      (ctx.records.filter (ctx.table.schema.accepts q)).filter
        (ctx.table.schema.accepts p) := by
    rw [List.filter_filter]
    refine List.filter_congr fun record _ => ?_
    rw [Schema.accepts_and, Bool.and_comm]
  refine ⟨_, hFilter, ?_, ?_, fun _ => ?_⟩
  · rw [hTable', hTable]
    rfl
  · rw [hBoth, hRecords', hRecords, hTable, hSame]
  · rw [hTable', hTable]
    rfl

end Context

end Columnar
