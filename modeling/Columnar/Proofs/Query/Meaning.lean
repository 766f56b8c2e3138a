import Columnar.Proofs.Query.Recorded

/-!
# The meaning of a query

A query that executes answers with the requested columns of the rows that all of its
predicates accept.  Neither the interleaving of filters and projections nor the plan that
is run for them shows in the answer.

* `Query.Answers` -- the table that a sequence of calls asks for, read off the source
  table and the row evaluator.
* `Query.Meaning` -- the same of a context on the way there, as records.  Every call
  preserves it.
* `Query.execute_answers` -- a query that executes answers.
-/

namespace Columnar

namespace Call

/-- The predicate of a filter. -/
def predicate? : Call → Option Predicate
  | filter p => some p
  | project _ => none

/-- The names of a projection. -/
def names? : Call → Option (List String)
  | filter _ => none
  | project names => some names

end Call

/-- The cells of row `i` of the table under the names of another schema. -/
def Table.recordUnder (t : Table) (s : Schema) (i : Nat) : Record :=
  s.fields.map fun field => t.schema.cell? (t.record i) field.name

/-- Under its own schema a row has its own cells. -/
theorem Table.recordUnder_schema (t : Table) (i : Nat) :
    t.recordUnder t.schema i = t.record i := by
  refine List.ext_getElem (by simp [recordUnder, length_columns]) fun k hLeft hRight => ?_
  simp only [recordUnder, List.length_map] at hLeft
  have hField : t.schema.fields[k]? = some t.schema.fields[k] := List.getElem?_eq_getElem hLeft
  simp only [recordUnder, List.getElem_map, Schema.cell?, Schema.indexOf?_of_getElem? hField,
    Option.bind_some, List.getElem?_eq_getElem hRight, Option.join_some]

/-- A name finds the same cell in a row of the table and in its cells under a schema. -/
theorem Table.cell?_recordUnder {t : Table} {s : Schema} {name : String} {field : Field}
    (h : s.find name = .ok field) (i : Nat) :
    s.cell? (t.recordUnder s i) name = t.schema.cell? (t.record i) name := by
  obtain ⟨k, hIndex, hField⟩ := Schema.find_eq_ok_iff.mp h
  rw [Schema.cell?, hIndex, Option.bind_some, recordUnder, List.getElem?_map, hField,
    Option.map_some, Option.join_some, Schema.name_of_find h]

namespace Query

/-- The fields of the last projection in the order of its names; without a projection
those of the source. -/
def requestedFields (s : Schema) (calls : List Call) : Result (List Field) :=
  match (calls.filterMap Call.names?).getLast? with
  | some names => names.mapM s.find
  | none => .ok s.fields

/-- The rows at which the row evaluator finds every predicate true, in ascending order. -/
def acceptedRows (t : Table) (calls : List Call) : List Nat :=
  (List.range t.rowCount).filter fun i =>
    (calls.filterMap Call.predicate?).all fun p => decide (p.evaluate (t.row i) = .ok true)

/-- The table that a sequence of calls asks for: the requested fields, and under each of
them the cells of the source column at the accepted rows. -/
structure Answers (t : Table) (calls : List Call) (made : Table) : Prop where
  fields_eq : requestedFields t.schema calls = .ok made.schema.fields
  cells_eq : ∀ (k : Nat) (field : Field) (column : Column),
    made.schema.fields[k]? = some field → made.columns[k]? = some column →
      ∃ source, t.column field.name = .ok source ∧ column.type = source.type ∧
        column.cells.map some = (acceptedRows t calls).map (source.cells[·]?)

/-- What a context has to do with the calls that lead to it.  Without columns there are no
rows, so nothing is said of the records there. -/
structure Meaning (t : Table) (calls : List Call) (ctx : Context) : Prop where
  settled : ctx.Settled
  fields_eq : requestedFields t.schema calls = .ok ctx.table.schema.fields
  find_eq : ∀ field ∈ ctx.table.schema.fields, t.schema.find field.name = .ok field
  records_eq : ctx.table.columns ≠ [] →
    ctx.records = (acceptedRows t calls).map (t.recordUnder ctx.table.schema)

variable {t made : Table} {settings : Settings} {calls : List Call} {ctx ctx' : Context}
  {p : Predicate} {names : List String}

theorem acceptedRows_filter (t : Table) (calls : List Call) (p : Predicate) :
    acceptedRows t (calls ++ [.filter p]) =
      (acceptedRows t calls).filter fun i => decide (p.evaluate (t.row i) = .ok true) := by
  rw [acceptedRows, acceptedRows, List.filter_filter]
  refine List.filter_congr fun i _ => ?_
  simp [List.filterMap_append, Call.predicate?, Bool.and_comm]

theorem acceptedRows_project (t : Table) (calls : List Call) (names : List String) :
    acceptedRows t (calls ++ [.project names]) = acceptedRows t calls := by
  simp [acceptedRows, List.filterMap_append, Call.predicate?]

theorem requestedFields_filter (s : Schema) (calls : List Call) (p : Predicate) :
    requestedFields s (calls ++ [.filter p]) = requestedFields s calls := by
  simp [requestedFields, List.filterMap_append, Call.names?]

theorem requestedFields_project (s : Schema) (calls : List Call) (names : List String) :
    requestedFields s (calls ++ [.project names]) = names.mapM s.find := by
  simp [requestedFields, List.filterMap_append, Call.names?]

theorem meaning_ofTable (hTable : t.WellFormed) : Meaning t [] (Context.ofTable t) := by
  refine ⟨Context.settled_ofTable hTable, rfl, fun field hMem => ?_, fun _ => ?_⟩
  · obtain ⟨k, hField⟩ := List.mem_iff_getElem?.mp hMem
    exact Schema.find_of_getElem? hField
  · have hRows : acceptedRows t [] = List.range t.rowCount :=
      List.filter_eq_self.mpr fun _ _ => rfl
    rw [Context.records_ofTable, hRows]
    exact List.map_congr_left fun i _ => (t.recordUnder_schema i).symm

namespace Meaning

/-- A predicate that the context admits accepts the cells of a row exactly when the row
evaluator finds it true at that row. -/
theorem accepts_eq (h : Meaning t calls ctx) (hAdmits : ctx.table.schema.Admits p) (i : Nat) :
    ctx.table.schema.accepts p (t.recordUnder ctx.table.schema i) =
      decide (p.evaluate (t.row i) = .ok true) := by
  have hFind : ∀ {name field}, ctx.table.schema.find name = .ok field →
      t.schema.find name = .ok field := fun {name field} hField => by
    obtain ⟨k, -, hAt⟩ := Schema.find_eq_ok_iff.mp hField
    have hSame := h.find_eq field (List.mem_of_getElem? hAt)
    rwa [Schema.name_of_find hField] at hSame
  have hSource : t.schema.Admits p := fun name op l hMem => by
    obtain ⟨field, hField, hTest⟩ := hAdmits name op l hMem
    exact ⟨field, hFind hField, hTest⟩
  have hSame : ctx.table.schema.accepts p (t.recordUnder ctx.table.schema i) =
      t.schema.accepts p (t.record i) := by
    refine Schema.accepts_congr fun name hName => ?_
    obtain ⟨field, hField, -⟩ := Schema.exists_field_of_admits hAdmits hName
    exact ⟨by rw [hField, hFind hField], Table.cell?_recordUnder hField i⟩
  rw [hSame, Table.evaluate_row hSource]
  simp

/-- Narrowing by a predicate keeps the rows that it accepts. -/
theorem of_narrow {chunkSize : Nat} (h : Meaning t calls ctx)
    (hRun : ctx.narrow chunkSize p = .ok ctx') : Meaning t (calls ++ [.filter p]) ctx' := by
  have hFields := requestedFields_filter t.schema calls p
  cases hChunks : ctx.table.isChunkless with
  | true =>
      rw [Context.narrow_of_isChunkless h.settled hChunks] at hRun
      obtain rfl := Except.ok.inj hRun
      refine ⟨h.settled, by rw [hFields, h.fields_eq], h.find_eq, fun hColumns => ?_⟩
      -- A table without chunks has no rows, so no row has been accepted before either.
      have hNone : ctx.records = [] := by
        rw [Context.records, Context.keptRows, Table.rowCount_of_isChunkless hChunks]
        rfl
      have hRows : acceptedRows t calls = [] := by
        rw [h.records_eq hColumns] at hNone
        exact List.map_eq_nil_iff.mp hNone
      rw [hNone, acceptedRows_filter, hRows]
      rfl
  | false =>
      obtain ⟨mid, hNarrowed⟩ := Context.narrowed_of_narrow h.settled hChunks hRun
      have hAdmits := Context.admits_of_filter hChunks hNarrowed.filter_eq
      obtain ⟨-, -, -, hRecords⟩ :=
        Context.records_of_filter h.settled.wellFormed hChunks hNarrowed.filter_eq
      refine ⟨hNarrowed.settled, ?_, ?_, fun hColumns => ?_⟩
      · rw [hFields, hNarrowed.schema_eq, h.fields_eq]
      · rw [hNarrowed.schema_eq]
        exact h.find_eq
      · have hBefore : ctx.table.columns ≠ [] := fun hNil =>
          hColumns (Context.columns_eq_nil_of_schema_eq hNarrowed.schema_eq.symm hNil)
        rw [hNarrowed.alike.records_eq, hRecords, h.records_eq hBefore, List.filter_map,
          acceptedRows_filter, hNarrowed.schema_eq]
        refine congrArg (List.map _) (List.filter_congr fun i _ => ?_)
        exact h.accepts_eq hAdmits i

/-- A projection asks for its names and keeps the rows. -/
theorem of_project (h : Meaning t calls ctx) (hRun : ctx.project names = .ok ctx') :
    Meaning t (calls ++ [.project names]) ctx' := by
  obtain ⟨indices, hProjected⟩ := Context.projected_of_project hRun
  have hNames : ctx'.table.schema.fields.map Field.name = names := by
    rw [hProjected.fields_eq]
    exact Schema.map_name_filterMap hProjected.indices_eq
  have hFind : ∀ field ∈ ctx'.table.schema.fields, t.schema.find field.name = .ok field := by
    intro field hMem
    rw [hProjected.fields_eq] at hMem
    obtain ⟨k, -, hField⟩ := List.mem_filterMap.mp hMem
    exact h.find_eq field (List.mem_of_getElem? hField)
  refine ⟨h.settled.of_project hRun, ?_, hFind, fun hColumns => ?_⟩
  · rw [requestedFields_project, Result.mapM_eq_ok_iff, ← hNames, List.map_map]
    exact List.map_congr_left hFind
  · obtain ⟨column, hMem⟩ := List.exists_mem_of_ne_nil _ hColumns
    have hBefore : ctx.table.columns ≠ [] := List.ne_nil_of_mem (hProjected.mem_columns hMem)
    -- A projection on no names would have left no column.
    have hNamed : names ≠ [] := by
      rintro rfl
      have hNone : indices = [] := List.map_eq_nil_iff.mp hProjected.indices_eq.symm
      rw [hProjected.columns_eq, hNone] at hColumns
      exact hColumns rfl
    rw [hProjected.records_eq hNamed, h.records_eq hBefore, List.map_map, acceptedRows_project]
    refine List.map_congr_left fun i _ => ?_
    rw [Function.comp, Table.recordUnder, Table.recordUnder, hProjected.fields_eq,
      List.map_filterMap]
    refine congrArg (List.filterMap · indices) (funext fun k => ?_)
    rw [List.getElem?_map]

/-- The context that the recorded plan ends in has the meaning of the calls. -/
theorem of_execute (hTable : t.WellFormed)
    (h : (record t settings calls).plan.execute settings t = .ok ctx) : Meaning t calls ctx := by
  -- The last call is the outermost step of the plan.
  induction calls using List.reverseRecOn generalizing ctx with
  | nil =>
      obtain rfl := Except.ok.inj h
      exact meaning_ofTable hTable
  | append_singleton calls c ih =>
      rw [record_append] at h
      cases c with
      | filter p =>
          obtain ⟨below, hBelow, hNarrow⟩ :=
            Result.bind_eq_ok_iff.mp ((Plan.execute_narrow ..).symm.trans h)
          exact (ih hBelow).of_narrow hNarrow
      | project names =>
          obtain ⟨below, hBelow, hProject⟩ := Plan.execute_cons_eq_ok_iff.mp h
          exact (ih hBelow).of_project hProject

/-- A column of the context has the cells of its source at the accepted rows. -/
theorem cells_eq (h : Meaning t calls ctx) {k : Nat} {field : Field} {column : Column}
    (hField : ctx.table.schema.fields[k]? = some field)
    (hColumn : ctx.table.columns[k]? = some column) :
    ∃ source, t.column field.name = .ok source ∧ column.type = source.type ∧
      column.cells.map some = (acceptedRows t calls).map (source.cells[·]?) := by
  have hMem := List.mem_of_getElem? hColumn
  obtain ⟨j, hIndex, hAt⟩ := Schema.find_eq_ok_iff.mp
    (h.find_eq field (List.mem_of_getElem? hField))
  obtain ⟨source, hSource, hSourceType⟩ := Table.exists_column hAt
  obtain ⟨same, hSame, hType⟩ := Table.exists_column hField
  rw [hColumn] at hSame
  obtain rfl := Option.some.inj hSame
  refine ⟨source, Table.column_eq_ok hIndex hSource, hType.trans hSourceType.symm, ?_⟩
  have hRows : ctx.keptRows = List.range column.cells.length := by
    rw [Column.length_cells (h.settled.table_wellFormed column hMem), Table.length_of_mem hMem]
    refine List.filter_eq_self.mpr fun i _ => ?_
    rw [Context.keeps, h.settled.selection_eq_none]
  have hCells : column.cells.map some = ctx.keptRows.map (column.cells[·]?) := by
    rw [hRows]
    exact List.ext_getElem (by simp) fun i hLeft _ => by simp at hLeft; simp [hLeft]
  rw [hCells, ← Context.map_records ctx hColumn, h.records_eq (List.ne_nil_of_mem hMem),
    List.map_map]
  refine List.map_congr_left fun i _ => ?_
  rw [Function.comp, Table.recordUnder, List.getElem?_map, hField, Option.map_some,
    Option.join_some, Table.cell?_record hIndex hSource]

end Meaning

/-- A query that executes answers with the requested columns at the accepted rows. -/
theorem execute_answers (hTable : t.WellFormed)
    (h : (record t settings calls).execute = .ok made) : Answers t calls made := by
  obtain ⟨hSource, hSettings, hPlan⟩ := recorded_record t settings calls
  have hTable' : (record t settings calls).plan.toTable settings t = .ok made := by
    rw [execute, hSource, hSettings] at h
    exact (hPlan.toTable_run_eq_ok_iff hTable).mp h
  obtain ⟨ctx, hRun, rfl⟩ := (hPlan.toTable_eq_ok_iff hTable).mp hTable'
  have hMeaning := Meaning.of_execute hTable hRun
  exact ⟨hMeaning.fields_eq, fun _ _ _ hField hColumn => hMeaning.cells_eq hField hColumn⟩

theorem execute_sample_answers :
    (record .sample {} sampleCalls).execute = .ok .sampleScores ∧
      Answers .sample sampleCalls .sampleScores :=
  have hExecute : (record .sample {} sampleCalls).execute = .ok .sampleScores := by
    decide +kernel
  ⟨hExecute, execute_answers Table.wellFormed_sample hExecute⟩

end Query

end Columnar
