import Mathlib.Data.List.Basic
import Columnar.Proofs.Chunk.Construction
import Columnar.Proofs.Column.Validity
import Columnar.Proofs.Selection.Values

/-!
# Filters agree with row evaluation

A filter answers for all rows at once, from kernels, constants and bitmap algebra, and
puts the null masks and the earlier selection on top.  The row evaluator answers one row
at a time from decoded values.  Both give the same answer.

* `filter_of_admits` -- a filter on an admitted predicate succeeds, and leaves the rows
  that were selected and whose record is accepted.
* `admits_of_filter` -- a filter that succeeds on a table with chunks had an admitted
  predicate.
* `filter_agrees_with_evaluation` -- the selection of a filter that succeeds, in terms of
  the row evaluator.
-/

namespace Columnar

namespace Table

variable {t : Table}

/-- A value is null exactly when its cell is not valid. -/
theorem isSome_value?_record (hTable : t.WellFormed) {name : String} {field : Field}
    {k : Nat} {column : Column} (hField : t.schema.find name = .ok field)
    (hFixed : field.type.isFixedWidth = true) (hIndex : t.schema.indexOf? name = some k)
    (hColumn : t.columns[k]? = some column) {i : Nat} (hi : i < t.rowCount) :
    ∃ cell, column.cells[i]? = some cell ∧
      (t.schema.value? (t.record i) name).isSome = cell.valid := by
  have hMem := List.mem_of_getElem? hColumn
  have hLength : i < column.cells.length := by
    rw [Column.length_cells (hTable column hMem), length_of_mem hMem]
    exact hi
  refine ⟨column.cells[i], List.getElem?_eq_getElem hLength, ?_⟩
  rw [Schema.value?, hField, cell?_record hIndex hColumn, List.getElem?_eq_getElem hLength]
  exact Cell.isSome_scalar? hFixed _

/-- The validity mask of a column marks the rows that are not null in it. -/
theorem selects_validityMask (hTable : t.WellFormed) {name : String} {field : Field} {k : Nat}
    {column : Column} (hField : t.schema.find name = .ok field)
    (hFixed : field.type.isFixedWidth = true) (hIndex : t.schema.indexOf? name = some k)
    (hColumn : t.columns[k]? = some column) {mask : Bitmap}
    (hMask : column.validityMask = some mask) :
    t.Selects mask fun record => (t.schema.value? record name).isSome := by
  obtain ⟨hLength, hGet⟩ :=
    Column.get_of_validityMask_eq_some (wellFormed_of_getElem? hTable hColumn) hMask
  refine ⟨?_, fun i hi => ?_⟩
  · rw [hLength, length_of_mem (List.mem_of_getElem? hColumn)]
  · obtain ⟨cell, hCell, hValid⟩ := isSome_value?_record hTable hField hFixed hIndex hColumn hi
    exact (hGet i cell hCell).trans hValid.symm

/-- Rejecting nulls leaves the rows without a null under the given names. -/
theorem rejectNulls_ok (hTable : t.WellFormed) {names : List String}
    (hNames : ∀ name ∈ names,
      ∃ field, t.schema.find name = .ok field ∧ field.type.isNumeric = true)
    {b : Bitmap} {test : Record → Bool} (hBits : t.Selects b test) :
    ∃ b', t.rejectNulls names b = .ok b' ∧ t.Selects b' fun record =>
      test record && names.all fun name => (t.schema.value? record name).isSome := by
  induction names generalizing b test with
  | nil => exact ⟨b, rfl, hBits.congr fun i _ => by simp⟩
  | cons name rest ih =>
      obtain ⟨field, hField, hNumeric⟩ := hNames name List.mem_cons_self
      obtain ⟨k, hIndex, hAt⟩ := Schema.find_eq_ok_iff.mp hField
      obtain ⟨column, hColumn, -⟩ := exists_column hAt
      have hFixed := DataType.isFixedWidth_of_isNumeric hNumeric
      have hRest := fun other hOther => hNames other (List.mem_cons_of_mem name hOther)
      rw [rejectNulls, List.foldlM_cons, column_eq_ok hIndex hColumn, Result.ok_bind]
      cases hMask : column.validityMask with
      | none =>
          -- Without a mask no row is null, so there is nothing to reject.
          obtain ⟨b', hReject, hLeft⟩ := ih hRest hBits
          refine ⟨b', hReject, hLeft.congr fun i hi => ?_⟩
          obtain ⟨cell, hCell, hValid⟩ :=
            isSome_value?_record hTable hField hFixed hIndex hColumn hi
          have hWellFormed := wellFormed_of_getElem? hTable hColumn
          rw [List.all_cons, hValid,
            Column.valid_of_validityMask_eq_none hWellFormed hMask hCell, Bool.true_and]
      | some mask =>
          obtain ⟨b', hReject, hLeft⟩ := ih hRest
            (hBits.and (selects_validityMask hTable hField hFixed hIndex hColumn hMask))
          exact ⟨b', hReject, hLeft.congr fun i _ => by rw [List.all_cons, Bool.and_assoc]⟩

end Table

namespace Context

variable {ctx ctx' : Context} {p : Predicate}

/-- The table is well formed, and a selection has one bit for each of its rows. -/
structure WellFormed (ctx : Context) : Prop where
  table_wellFormed : ctx.table.WellFormed
  selection_fits : ∀ b, ctx.selection = some b → b.length = ctx.table.rowCount

theorem WellFormed.checkSelection (h : ctx.WellFormed) : ctx.checkSelection = .ok () :=
  (checkSelection_eq_ok_iff ctx).mpr h.selection_fits

/-- Whether row `i` is selected; without a selection every row is. -/
def keeps (ctx : Context) (i : Nat) : Bool :=
  match ctx.selection with
  | none => true
  | some b => b.get i

/-- A filter on an admitted predicate succeeds, and leaves the rows that were selected
and whose record is accepted. -/
theorem filter_of_admits (hCtx : ctx.WellFormed) (hChunks : ctx.table.isChunkless = false)
    (hAdmits : ctx.table.schema.Admits p) :
    ∃ b, ctx.filter p = .ok (ctx.select b) ∧ b.length = ctx.table.rowCount ∧
      ∀ i < ctx.table.rowCount,
        b.get i = (ctx.table.schema.accepts p (ctx.table.record i) && ctx.keeps i) := by
  obtain ⟨values, hValues, hTree⟩ := Table.selectValues_ok hCtx.table_wellFormed hAdmits
  obtain ⟨b, hReject, hLength, hBits⟩ := Table.rejectNulls_ok hCtx.table_wellFormed
    (fun name hName => Schema.exists_field_of_admits hAdmits hName) hTree
  have hAccepts : ∀ i < ctx.table.rowCount,
      b.get i = ctx.table.schema.accepts p (ctx.table.record i) := fun i hi => by
    rw [hBits i hi, Schema.accepts, Bool.and_comm]
  have hFilter : ctx.filter p = .ok (ctx.select (ctx.selection.elim b b.and)) := by
    rw [filter, hCtx.checkSelection, Result.ok_bind, hChunks, if_neg (by simp),
      (Table.validate_eq_ok_iff ctx.table p).mpr hAdmits, Result.ok_bind, hValues,
      Result.ok_bind, hReject, Result.ok_bind]
    cases ctx.selection <;> rfl
  refine ⟨ctx.selection.elim b b.and, hFilter, ?_⟩
  cases hSelection : ctx.selection with
  | none =>
      refine ⟨hLength, fun i hi => ?_⟩
      rw [Option.elim_none, hAccepts i hi, keeps, hSelection, Bool.and_true]
  | some existing =>
      have hFits := hCtx.selection_fits existing hSelection
      refine ⟨hLength, fun i hi => ?_⟩
      rw [Option.elim_some, Bitmap.get_and (by rw [hLength]; exact hi) (by rw [hFits]; exact hi),
        hAccepts i hi, keeps, hSelection]

/-- A filter leaves a table without chunks and its selection as they are. -/
theorem filter_of_isChunkless (hCtx : ctx.WellFormed) (hChunks : ctx.table.isChunkless = true)
    (p : Predicate) : ctx.filter p = .ok ctx := by
  rw [filter, hCtx.checkSelection, Result.ok_bind, if_pos hChunks]
  rfl

/-- A filter that succeeds on a table with chunks had an admitted predicate. -/
theorem admits_of_filter (hChunks : ctx.table.isChunkless = false)
    (h : ctx.filter p = .ok ctx') : ctx.table.schema.Admits p := by
  obtain ⟨_, -, hRest⟩ := Result.bind_eq_ok_iff.mp h
  rw [hChunks, if_neg (by simp)] at hRest
  obtain ⟨_, hValidate, -⟩ := Result.bind_eq_ok_iff.mp hRest
  exact (Table.validate_eq_ok_iff ctx.table p).mp hValidate

/-- A filter that succeeds leaves exactly the selected rows that the row evaluator
accepts, and the row evaluator answers for every row. -/
theorem filter_agrees_with_evaluation (hCtx : ctx.WellFormed)
    (hChunks : ctx.table.isChunkless = false) (h : ctx.filter p = .ok ctx') :
    ctx'.table = ctx.table ∧
      ∃ b, ctx'.selection = some b ∧ b.length = ctx.table.rowCount ∧
        ∀ i < ctx.table.rowCount,
          ∃ v, p.evaluate (ctx.table.row i) = .ok v ∧ b.get i = (v && ctx.keeps i) := by
  have hAdmits := admits_of_filter hChunks h
  obtain ⟨b, hFilter, hLength, hBits⟩ := filter_of_admits hCtx hChunks hAdmits
  rw [hFilter] at h
  obtain rfl := Except.ok.inj h
  exact ⟨rfl, b, rfl, hLength, fun i hi => ⟨_, Table.evaluate_row hAdmits i, hBits i hi⟩⟩

end Context

/-- Five rows.  The first column is cut after its third row and has a null. -/
def Table.sample : Table where
  schema := ⟨[{ name := "id", type := .int16 }, { name := "score", type := .uint8 }], by decide⟩
  columns := [
    { type := .int16
      chunks := [.ofOptions .int16 [some 1#16, none, some 3#16], .ofValues .int16 [4#16, 5#16]]
      chunks_type := by simp },
    .ofSlices .uint8 [[10#8, 20#8, 30#8, 40#8, 50#8]]]
  types_eq := rfl
  rows_eq := by decide

theorem Table.wellFormed_sample : sample.WellFormed := by
  intro column hMem
  simp only [sample, List.mem_cons, List.not_mem_nil, or_false] at hMem
  rcases hMem with rfl | rfl
  · constructor
    case chunks_wellFormed =>
      intro chunk hChunk
      simp only [List.mem_cons, List.not_mem_nil, or_false] at hChunk
      rcases hChunk with rfl | rfl
      · exact Chunk.wellFormed_ofOptions (by decide) (by decide)
      · exact Chunk.wellFormed_ofValues (by decide) (by decide)
    all_goals decide
  · constructor
    case chunks_wellFormed =>
      intro chunk hChunk
      obtain rfl := List.mem_singleton.mp hChunk
      exact Chunk.wellFormed_ofValues (by decide) (by decide)
    all_goals decide

namespace Context

/-- The sample with its last row left out. -/
def sample : Context :=
  (ofTable .sample).select (.ofBools [true, true, true, true, false])

theorem wellFormed_sample : sample.WellFormed :=
  ⟨Table.wellFormed_sample, fun b hb => by rw [← Option.some.inj hb]; decide⟩

/-- Of the rows but the last, the third and the fourth have an identifier above one. -/
theorem filter_sample_agrees_with_evaluation :
    sample.WellFormed ∧ sample.table.isChunkless = false ∧
      sample.filter (.compare "id" .gt (.integer 1)) =
        .ok (sample.select ⟨#[0x30], 5, rfl⟩) ∧
      ∃ b, (sample.select ⟨#[0x30], 5, rfl⟩).selection = some b ∧
        b.length = sample.table.rowCount ∧ ∀ i < sample.table.rowCount,
          ∃ v, (Predicate.compare "id" .gt (.integer 1)).evaluate (sample.table.row i) = .ok v ∧
            b.get i = (v && sample.keeps i) :=
  have hFilter : sample.filter (.compare "id" .gt (.integer 1)) =
      .ok (sample.select ⟨#[0x30], 5, rfl⟩) := by decide +kernel
  ⟨wellFormed_sample, rfl, hFilter,
    (filter_agrees_with_evaluation wellFormed_sample rfl hFilter).2⟩

end Context

end Columnar
