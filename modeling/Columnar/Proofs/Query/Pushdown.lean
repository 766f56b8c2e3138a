import Columnar.Proofs.Query.Recorded

/-!
# Projections below filters

A projection can be taken before a filter instead of after it, as long as it keeps the
columns that the filter compares.  The two runs then filter tables of different columns in
different places, and compact different columns.  They still make the same table, down to
its chunks: a filter reads no more of a row than the compared cells, and a compaction packs
each column for itself.

* `Projected.accepts_eq` -- a projection does not change whether a record is accepted.
* `Narrowed.exists_project` -- on a table with chunks, projecting what a filter and its
  compaction left is filtering and compacting the projection.
* `Query.project_below_filter` -- the same of two queries, for every table whose columns
  have chunks and every list of names.
-/

namespace Columnar

namespace Context

variable {ctx ctx' mid out made : Context} {p : Predicate} {names : List String}
  {indices : List Nat} {chunkSize : Nat}

namespace Projected

/-- A kept name finds the same field. -/
theorem find_eq (h : Projected names indices ctx ctx') {name : String} (hName : name ∈ names) :
    ctx'.table.schema.find name = ctx.table.schema.find name := by
  obtain ⟨j, k, hIndex', hIndex, -, hFields⟩ := h.exists_position hName
  obtain ⟨field, hField, -⟩ := Schema.field_of_indexOf? hIndex
  rw [Schema.find_eq_ok_iff.mpr ⟨k, hIndex, hField⟩,
    Schema.find_eq_ok_iff.mpr ⟨j, hIndex', hFields.trans hField⟩]

/-- A kept name finds the same cell in the kept part of a record. -/
theorem cell?_eq (h : Projected names indices ctx ctx') {name : String} (hName : name ∈ names)
    (i : Nat) :
    ctx'.table.schema.cell? (indices.filterMap ((ctx.table.record i)[·]?)) name =
      ctx.table.schema.cell? (ctx.table.record i) name := by
  obtain ⟨j, k, hIndex', hIndex, hk, -⟩ := h.exists_position hName
  have hSome : ∀ i' ∈ indices, ((ctx.table.record i)[i']?).isSome = true := fun i' hi' => by
    simpa [Table.length_columns] using Schema.lt_of_mem_indices h.indices_eq hi'
  rw [Schema.cell?, Schema.cell?, hIndex', hIndex, Option.bind_some, Option.bind_some,
    getElem?_filterMap_of_isSome hSome, hk, Option.bind_some]

/-- A projection that keeps the compared columns does not change whether a record is
accepted. -/
theorem accepts_eq (h : Projected names indices ctx ctx')
    (hKept : ∀ name ∈ p.columns, name ∈ names) (i : Nat) :
    ctx'.table.schema.accepts p (indices.filterMap ((ctx.table.record i)[·]?)) =
      ctx.table.schema.accepts p (ctx.table.record i) :=
  Schema.accepts_congr fun name hName =>
    ⟨h.find_eq (hKept name hName), h.cell?_eq (hKept name hName) i⟩

/-- A projection that keeps the compared columns still admits the predicate. -/
theorem admits (h : Projected names indices ctx ctx')
    (hKept : ∀ name ∈ p.columns, name ∈ names) (hAdmits : ctx.table.schema.Admits p) :
    ctx'.table.schema.Admits p := by
  intro name op l hMem
  rw [h.find_eq (hKept name (Predicate.mem_columns_of_mem_comparisons hMem))]
  exact hAdmits name op l hMem

theorem isChunkless_eq_false (h : Projected names indices ctx ctx') (hNames : names ≠ [])
    (hChunks : ∀ column ∈ ctx.table.columns, column.chunks ≠ []) :
    ctx'.table.isChunkless = false :=
  Table.isChunkless_eq_false (h.columns_ne_nil hNames) fun column hMem =>
    hChunks column (h.mem_columns hMem)

theorem isFixedWidth (h : Projected names indices ctx ctx')
    (hFixed : ∀ field ∈ ctx.table.schema.fields, field.type.isFixedWidth = true) :
    ∀ field ∈ ctx'.table.schema.fields, field.type.isFixedWidth = true := by
  intro field hMem
  rw [h.fields_eq] at hMem
  obtain ⟨k, -, hField⟩ := List.mem_filterMap.mp hMem
  exact hFixed field (List.mem_of_getElem? hField)

/-- A projection of a compacted table is the compaction of the projection, since each column
is packed for itself. -/
theorem materialize_eq {below : Context} (h : Projected names indices ctx below)
    (hNames : names ≠ []) (hCtx : ctx.WellFormed)
    (hChunks : ∀ column ∈ ctx.table.columns, column.chunks ≠ [])
    (hMaterialize : ctx.materialize chunkSize = .ok out)
    (hProject : out.project names = .ok made) :
    below.materialize chunkSize = .ok made := by
  have hCtxChunks : ctx.table.isChunkless = false := by
    refine Table.isChunkless_eq_false (fun hNil => h.columns_ne_nil hNames ?_) hChunks
    rw [h.columns_eq, hNil]
    simp
  have hPending := isSome_of_materialize hCtxChunks hMaterialize
  have hFixed := isFixedWidth_of_materialize hCtx hCtxChunks hPending hMaterialize
  obtain ⟨selection, hSelection⟩ := Option.isSome_iff_exists.mp hPending
  obtain ⟨t, hOut, hSchema, -, hColumns⟩ :=
    exists_materialized hCtx hCtxChunks hFixed hSelection chunkSize
  rw [hOut] at hMaterialize
  obtain rfl := Except.ok.inj hMaterialize
  obtain ⟨t', hBelow, hSchema', -, hColumns'⟩ :=
    exists_materialized (h.wellFormed hCtx hNames) (h.isChunkless_eq_false hNames hChunks)
      (h.isFixedWidth hFixed) (h.selection_eq.trans hSelection) chunkSize
  obtain ⟨indices', hMade⟩ := projected_of_project hProject
  obtain rfl := Schema.indices_unique h.indices_eq (hSchema ▸ hMade.indices_eq)
  have hSame : made.table = t' := by
    refine Table.eq_of_columns (Schema.eq_of_fields ?_) ?_
    · rw [hSchema', hMade.fields_eq, h.fields_eq, ← hSchema]
      rfl
    · rw [hColumns', hMade.columns_eq, h.columns_eq, List.map_filterMap]
      refine congrArg (List.filterMap · indices) (funext fun k => ?_)
      show t.columns[k]? = _
      rw [hColumns, List.getElem?_map]
  rw [hBelow, ← hSame]
  refine congrArg Except.ok ?_
  obtain ⟨table, pending⟩ := made
  rw [ofTable, show pending = none from hMade.selection_eq]

end Projected

/-- A projection that keeps the compared columns can be filtered as what it projects, and
the two filters leave the same records of it. -/
theorem Projected.exists_filter {below : Context} (h : Projected names indices ctx ctx')
    (hNames : names ≠ []) (hKept : ∀ name ∈ p.columns, name ∈ names) (hCtx : ctx.WellFormed)
    (hChunks : ∀ column ∈ ctx.table.columns, column.chunks ≠ [])
    (hCtxChunks : ctx.table.isChunkless = false) (hFilter : ctx.filter p = .ok mid)
    (hBelow : Projected names indices mid below) :
    ∃ pending, ctx'.filter p = .ok pending ∧ pending.Alike below := by
  have hChunks' := h.isChunkless_eq_false hNames hChunks
  have hAdmits := h.admits hKept (admits_of_filter hCtxChunks hFilter)
  obtain ⟨bits, hFilter', -, -⟩ := filter_of_admits (h.wellFormed hCtx hNames) hChunks' hAdmits
  obtain ⟨hTable', -, -, hRecords'⟩ :=
    records_of_filter (h.wellFormed hCtx hNames) hChunks' hFilter'
  obtain ⟨hTable, -, -, hRecords⟩ := records_of_filter hCtx hCtxChunks hFilter
  refine ⟨_, hFilter', ?_, ?_, fun _ => ?_⟩
  · refine Schema.eq_of_fields ?_
    rw [hTable', h.fields_eq, hBelow.fields_eq, hTable]
  · -- Accepting a record and keeping some of its cells commute.
    rw [hRecords', h.records_eq hNames, hBelow.records_eq hNames, hRecords, List.filter_map]
    refine congrArg (List.map _) (List.filter_congr fun record hMem => ?_)
    obtain ⟨i, -, rfl⟩ := List.mem_map.mp hMem
    exact h.accepts_eq hKept i
  · rw [hTable', h.tracks_eq, hBelow.tracks_eq, hTable]

/-- On a table with chunks, projecting what a filter and its compaction left is filtering
and compacting the projection. -/
theorem Narrowed.exists_project (h : Narrowed chunkSize p ctx mid out) (hCtx : ctx.WellFormed)
    (hChunks : ∀ column ∈ ctx.table.columns, column.chunks ≠ []) (hNames : names ≠ [])
    (hKept : ∀ name ∈ p.columns, name ∈ names) (hProject : out.project names = .ok made) :
    ∃ below, ctx.project names = .ok below ∧ below.narrow chunkSize p = .ok made := by
  -- The context is projected at the table it has, and once more with the rows selected.
  have hSchema := (exists_project_iff out names).mp ⟨made, hProject⟩
  rw [h.schema_eq] at hSchema
  obtain ⟨below, hBelow⟩ := (exists_project_iff ctx names).mpr hSchema
  rw [← h.mid_table] at hSchema
  obtain ⟨last, hLast⟩ := (exists_project_iff mid names).mpr hSchema
  obtain ⟨indices, hProjected⟩ := projected_of_project hBelow
  obtain ⟨indices', hProjectedMid⟩ := projected_of_project hLast
  obtain rfl := Schema.indices_unique hProjected.indices_eq
    (h.mid_table ▸ hProjectedMid.indices_eq)
  have hMidChunks : ∀ column ∈ mid.table.columns, column.chunks ≠ [] := by
    rw [h.mid_table]
    exact hChunks
  have hCtxChunks : ctx.table.isChunkless = false := by
    rw [← h.mid_table]
    exact h.mid_isChunkless
  obtain ⟨pending, hFilter, hAlike⟩ := hProjected.exists_filter hNames hKept hCtx hChunks
    hCtxChunks h.filter_eq hProjectedMid
  have hBelowWellFormed := hProjected.wellFormed hCtx hNames
  have hBelowChunks := hProjected.isChunkless_eq_false hNames hChunks
  obtain ⟨hTable, hPending, hWellFormed, -⟩ :=
    records_of_filter hBelowWellFormed hBelowChunks hFilter
  refine ⟨below, hBelow, ?_⟩
  rw [narrow, hFilter, Result.ok_bind, hAlike.materialize_eq hWellFormed
    (hProjectedMid.wellFormed h.mid_wellFormed hNames) (by rw [hTable]; exact hBelowChunks)
    (hProjectedMid.isChunkless_eq_false hNames hMidChunks) hPending
    (by rw [hProjectedMid.selection_eq]; exact h.mid_pending)]
  exact hProjectedMid.materialize_eq hNames h.mid_wellFormed hMidChunks h.materialize_eq hProject

/-- A projection to no columns leaves nothing of a context but its selection. -/
theorem project_nil (h : ctx.Settled) : ctx.project [] = .ok (ofTable .empty) := by
  obtain ⟨made, hMade⟩ := (exists_project_iff ctx []).mpr
    (Schema.exists_project_iff.mpr ⟨List.nodup_nil, fun _ hName => absurd hName (by simp)⟩)
  obtain ⟨indices, hProjected⟩ := projected_of_project hMade
  obtain rfl : indices = [] := List.map_eq_nil_iff.mp hProjected.indices_eq.symm
  rw [hMade]
  obtain ⟨table, selection⟩ := made
  have hNone : selection = none := hProjected.selection_eq.trans h.selection_eq_none
  have hTable : table = .empty :=
    Table.eq_of_columns (Schema.eq_of_fields hProjected.fields_eq) hProjected.columns_eq
  rw [hNone, hTable, ofTable]

/-- A projection that keeps the compared columns may be taken before a filter and its
compaction. -/
theorem narrow_of_project (h : ctx.Settled)
    (hChunks : ∀ column ∈ ctx.table.columns, column.chunks ≠ [])
    (hKept : ∀ name ∈ p.columns, name ∈ names) (hNarrow : ctx.narrow chunkSize p = .ok out)
    (hProject : out.project names = .ok made) :
    ∃ below, ctx.project names = .ok below ∧ below.narrow chunkSize p = .ok made := by
  cases hChunkless : ctx.table.isChunkless with
  | false =>
      by_cases hNames : names = []
      · -- Nothing is left to filter below a projection to no columns.
        subst hNames
        rw [project_nil (h.of_narrow hNarrow)] at hProject
        refine ⟨_, project_nil h, ?_⟩
        have hEmpty : Table.empty.WellFormed := fun _ hMem => absurd hMem (by simp [Table.empty])
        rw [narrow_of_isChunkless (settled_ofTable hEmpty) rfl]
        exact hProject
      · obtain ⟨mid, hNarrowed⟩ := narrowed_of_narrow h hChunkless hNarrow
        exact hNarrowed.exists_project h.wellFormed hChunks hNames hKept hProject
  | true =>
      -- Every column has a chunk, so there are no columns, before the projection or after it.
      rw [narrow_of_isChunkless h hChunkless] at hNarrow
      obtain rfl := Except.ok.inj hNarrow
      refine ⟨made, hProject, narrow_of_isChunkless (h.of_project hProject) ?_ chunkSize p⟩
      obtain ⟨indices, hProjected⟩ := projected_of_project hProject
      refine Table.isChunkless_of_columns_nil (List.eq_nil_iff_forall_not_mem.mpr ?_)
      intro column hMem
      have hColumns := List.ne_nil_of_mem (hProjected.mem_columns hMem)
      rw [Table.isChunkless_eq_false hColumns hChunks] at hChunkless
      exact absurd hChunkless (by simp)

end Context

namespace Query

variable {t made : Table} {settings : Settings} {p : Predicate} {names : List String}

/-- The table of a query is the table of the context in which its recorded plan ends. -/
theorem execute_record_eq_ok_iff (hTable : t.WellFormed) (calls : List Call) :
    (record t settings calls).execute = .ok made ↔
      ∃ ctx, (record t settings calls).plan.execute settings t = .ok ctx ∧ ctx.table = made := by
  obtain ⟨hSource, hSettings, hPlan⟩ := recorded_record t settings calls
  rw [execute, hSource, hSettings, optimizedPlan]
  exact (hPlan.toTable_run_eq_ok_iff hTable).trans (hPlan.toTable_eq_ok_iff hTable)

/-- A projection that keeps the compared columns may be moved below a filter: the query
then makes the same table. -/
theorem project_below_filter (hTable : t.WellFormed)
    (hChunks : ∀ column ∈ t.columns, column.chunks ≠ [])
    (hKept : ∀ name ∈ p.columns, name ∈ names)
    (h : (((ofTable t settings).filter p).project names).execute = .ok made) :
    (((ofTable t settings).project names).filter p).execute = .ok made := by
  have hFirst := (execute_record_eq_ok_iff hTable [.filter p, .project names]).mp h
  refine (execute_record_eq_ok_iff hTable [.project names, .filter p]).mpr ?_
  obtain ⟨last, hRun, hMade⟩ := hFirst
  obtain ⟨out, hNarrowed, hProject⟩ := Plan.execute_cons_eq_ok_iff.mp hRun
  have hNarrow : (Context.ofTable t).narrow settings.chunkSize p = .ok out :=
    (Plan.execute_narrow settings p [] t).symm.trans hNarrowed
  obtain ⟨below, hBelow, hAfter⟩ := Context.narrow_of_project (Context.settled_ofTable hTable)
    hChunks hKept hNarrow hProject
  refine ⟨last, ?_, hMade⟩
  show Plan.execute settings [.materialize, .filter p, .project names] t = .ok last
  have hProjected : Plan.execute settings [.project names] t = .ok below :=
    Plan.execute_cons_eq_ok_iff.mpr ⟨Context.ofTable t, rfl, hBelow⟩
  rw [Plan.execute_narrow, hProjected, Result.ok_bind]
  exact hAfter

end Query

/-- The rows of the sample with a score above ten, the columns the other way around. -/
def Table.sampleTurned : Table where
  schema := ⟨[{ name := "score", type := .uint8 }, { name := "id", type := .int16 }], by decide⟩
  columns := [
    .ofSlices .uint8 [[20#8, 30#8, 40#8, 50#8]],
    { type := .int16
      chunks := [{ Chunk.ofValues .int16 [0#16, 3#16, 4#16, 5#16] with
        validity := some (.ofBools [false, true, true, true]) }]
      chunks_type := by simp }]
  types_eq := rfl
  rows_eq := by decide

namespace Query

/-- Below the filter the projection makes the other column the first. -/
theorem project_below_filter_sample :
    Table.sample.WellFormed ∧ (∀ column ∈ Table.sample.columns, column.chunks ≠ []) ∧
      (∀ name ∈ (Predicate.compare "score" .gt (.integer 10)).columns,
        name ∈ ["score", "id"]) ∧
      (((ofTable .sample {}).filter (.compare "score" .gt (.integer 10))).project
        ["score", "id"]).execute = .ok .sampleTurned ∧
      (((ofTable .sample {}).project ["score", "id"]).filter
        (.compare "score" .gt (.integer 10))).execute = .ok .sampleTurned :=
  have hChunks : ∀ column ∈ Table.sample.columns, column.chunks ≠ [] := by decide
  have hKept : ∀ name ∈ (Predicate.compare "score" .gt (.integer 10)).columns,
      name ∈ ["score", "id"] := by decide
  have hExecute : (((ofTable .sample {}).filter (.compare "score" .gt (.integer 10))).project
      ["score", "id"]).execute = .ok .sampleTurned := by decide +kernel
  ⟨Table.wellFormed_sample, hChunks, hKept, hExecute,
    project_below_filter Table.wellFormed_sample hChunks hKept hExecute⟩

end Query

end Columnar
