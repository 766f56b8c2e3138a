import Columnar.Proofs.Context.Records
import Columnar.Proofs.Schema.Projection

/-!
# Projection of records

A projection picks columns and leaves the rows and the selection alone.  Whether it
succeeds depends on the schema only, and it picks the same cells from every record.  A
projection to no columns is the exception: a table without columns has no rows.

* `exists_project_iff` -- which projections succeed.
* `records_of_project` -- the records of a projection to at least one column.
-/

namespace Columnar

namespace Context

variable {ctx ctx' : Context} {names : List String} {indices : List Nat}

/-- A projection keeps the columns at the positions of the names, and the selection. -/
theorem project_eq_ok_iff :
    ctx.project names = .ok ctx' ↔
      ∃ projected indices, ctx.table.schema.project names = .ok (projected, indices) ∧
        Table.make projected (indices.filterMap (ctx.table.columns[·]?)) = .ok ctx'.table ∧
        ctx'.selection = ctx.selection := by
  rw [project, Result.bind_eq_ok_iff]
  constructor
  · rintro ⟨t, hProject, hCtx⟩
    obtain rfl := Except.ok.inj hCtx
    obtain ⟨⟨projected, indices⟩, hSchema, hMake⟩ := Result.bind_eq_ok_iff.mp hProject
    exact ⟨projected, indices, hSchema, hMake, rfl⟩
  · rintro ⟨projected, indices, hSchema, hMake, hSelection⟩
    refine ⟨ctx'.table, ?_, ?_⟩
    · rw [Table.project, hSchema]
      exact hMake
    · cases ctx'
      cases hSelection
      rfl

/-- A projection succeeds exactly when the schema can be projected. -/
theorem exists_project_iff (ctx : Context) (names : List String) :
    (∃ ctx', ctx.project names = .ok ctx') ↔
      ∃ made, ctx.table.schema.project names = .ok made := by
  constructor
  · rintro ⟨ctx', h⟩
    obtain ⟨projected, indices, hSchema, -⟩ := project_eq_ok_iff.mp h
    exact ⟨_, hSchema⟩
  · rintro ⟨⟨projected, indices⟩, hSchema⟩
    have hTypes : (indices.filterMap (ctx.table.columns[·]?)).map Column.type =
        projected.fields.map Field.type := by
      rw [Schema.fields_of_ofFields (Schema.project_eq_ok_iff.mp hSchema).2,
        List.map_filterMap, List.map_filterMap]
      refine congrArg (List.filterMap · indices) (funext fun k => ?_)
      have hType := congrArg (·[k]?) ctx.table.types_eq
      simp only [List.getElem?_map] at hType
      exact hType
    have hLengths : ∀ c ∈ indices.filterMap (ctx.table.columns[·]?),
        c.length = ctx.table.rowCount := by
      intro c hc
      obtain ⟨k, -, hColumn⟩ := List.mem_filterMap.mp hc
      exact Table.length_of_mem (List.mem_of_getElem? hColumn)
    obtain ⟨made, hMake, -⟩ := Table.exists_make hTypes hLengths
    exact ⟨⟨made, ctx.selection⟩, project_eq_ok_iff.mpr ⟨projected, indices, hSchema, hMake, rfl⟩⟩

/-- What a projection that succeeds does. -/
structure Projected (names : List String) (indices : List Nat) (ctx ctx' : Context) : Prop where
  indices_eq : names.map ctx.table.schema.indexOf? = indices.map some
  fields_eq : ctx'.table.schema.fields = indices.filterMap (ctx.table.schema.fields[·]?)
  columns_eq : ctx'.table.columns = indices.filterMap (ctx.table.columns[·]?)
  selection_eq : ctx'.selection = ctx.selection

theorem projected_of_project (h : ctx.project names = .ok ctx') :
    ∃ indices, Projected names indices ctx ctx' := by
  obtain ⟨projected, indices, hSchema, hMake, hSelection⟩ := project_eq_ok_iff.mp h
  obtain ⟨hIndices, hFields⟩ := Schema.project_eq_ok_iff.mp hSchema
  obtain ⟨-, -, hSame, hColumns⟩ := Table.make_eq_ok_iff.mp hMake
  exact ⟨indices, hIndices, by rw [hSame]; exact Schema.fields_of_ofFields hFields, hColumns,
    hSelection⟩

/-- Columns at distinct positions can be projected to, by the names of their fields. -/
theorem exists_project_positions (ctx : Context) (indices : List Nat) (hNodup : indices.Nodup)
    (hRange : ∀ k ∈ indices, k < ctx.table.columns.length) :
    ∃ names ctx', ctx.project names = .ok ctx' ∧ Projected names indices ctx ctx' := by
  let name : Nat → String := fun k => (ctx.table.schema.fields[k]?.map Field.name).getD ""
  have hIndices : (indices.map name).map ctx.table.schema.indexOf? = indices.map some := by
    rw [List.map_map]
    refine List.map_congr_left fun k hk => ?_
    have hField := List.getElem?_eq_getElem (ctx.table.length_columns ▸ hRange k hk)
    simp only [name, Function.comp, hField, Option.map_some, Option.getD_some,
      Schema.indexOf?_of_getElem? hField]
  -- Names at distinct positions are distinct, since each of them is found at its own.
  have hNames : (indices.map name).Nodup := by
    refine List.Nodup.of_map ctx.table.schema.indexOf? ?_
    rw [hIndices]
    exact hNodup.map fun _ _ => Option.some.inj
  obtain ⟨ctx', hProject⟩ := (exists_project_iff ctx _).mpr
    (Schema.exists_project_iff.mpr ⟨hNames, fun _ => Schema.exists_indexOf?_of_mem hIndices⟩)
  obtain ⟨found, hProjected⟩ := projected_of_project hProject
  obtain rfl := Schema.indices_unique hProjected.indices_eq hIndices
  exact ⟨_, ctx', hProject, hProjected⟩

namespace Projected

theorem mem_columns (h : Projected names indices ctx ctx') {column : Column}
    (hMem : column ∈ ctx'.table.columns) : column ∈ ctx.table.columns := by
  rw [h.columns_eq] at hMem
  obtain ⟨k, -, hColumn⟩ := List.mem_filterMap.mp hMem
  exact List.mem_of_getElem? hColumn

/-- A kept name has a position before the projection and one after it, with the same field
and, in every record, the same cell. -/
theorem exists_position (h : Projected names indices ctx ctx') {name : String}
    (hName : name ∈ names) :
    ∃ j k, ctx'.table.schema.indexOf? name = some j ∧
      ctx.table.schema.indexOf? name = some k ∧ indices[j]? = some k ∧
      ctx'.table.schema.fields[j]? = ctx.table.schema.fields[k]? := by
  obtain ⟨j, hj⟩ := List.getElem?_of_mem hName
  obtain ⟨k, field, hk, hIndex, hField, -, hKept, hIndex'⟩ :=
    Schema.exists_position h.indices_eq h.fields_eq hj
  exact ⟨j, k, hIndex', hIndex, hk, hKept.trans hField.symm⟩

/-- At least one column is left when at least one is named. -/
theorem columns_ne_nil (h : Projected names indices ctx ctx') (hNames : names ≠ []) :
    ctx'.table.columns ≠ [] := by
  obtain ⟨name, rest, rfl⟩ := List.exists_cons_of_ne_nil hNames
  have hIndices := h.indices_eq
  cases indices with
  | nil => exact absurd hIndices (by simp)
  | cons k ks =>
      have hk := Schema.lt_of_mem_indices hIndices (List.mem_cons_self (l := ks))
      rw [← Table.length_columns] at hk
      rw [h.columns_eq, List.filterMap_cons_some (List.getElem?_eq_getElem hk)]
      simp

theorem rowCount_eq (h : Projected names indices ctx ctx') (hNames : names ≠ []) :
    ctx'.table.rowCount = ctx.table.rowCount := by
  obtain ⟨column, hMem⟩ := List.exists_mem_of_ne_nil _ (h.columns_ne_nil hNames)
  rw [← Table.length_of_mem hMem, Table.length_of_mem (h.mem_columns hMem)]

theorem table_wellFormed (h : Projected names indices ctx ctx') (hTable : ctx.table.WellFormed) :
    ctx'.table.WellFormed := fun _ hMem => hTable _ (h.mem_columns hMem)

theorem wellFormed (h : Projected names indices ctx ctx') (hCtx : ctx.WellFormed)
    (hNames : names ≠ []) : ctx'.WellFormed := by
  refine ⟨h.table_wellFormed hCtx.table_wellFormed, fun b hb => ?_⟩
  rw [h.rowCount_eq hNames]
  exact hCtx.selection_fits b (by rw [← h.selection_eq, hb])

theorem record_eq (h : Projected names indices ctx ctx') (i : Nat) :
    ctx'.table.record i = indices.filterMap ((ctx.table.record i)[·]?) := by
  rw [Table.record, h.columns_eq, List.map_filterMap]
  exact congrArg (List.filterMap · indices)
    (funext fun k => (Table.getElem?_record ctx.table i k).symm)

theorem tracks_eq (h : Projected names indices ctx ctx') :
    ctx'.table.tracks = indices.filterMap (ctx.table.tracks[·]?) := by
  rw [Table.tracks, h.columns_eq, List.map_filterMap]
  refine congrArg (List.filterMap · indices) (funext fun k => ?_)
  rw [Table.tracks, List.getElem?_map]

/-- A projection picks the same cells from every record. -/
theorem records_eq (h : Projected names indices ctx ctx') (hNames : names ≠ []) :
    ctx'.records = ctx.records.map fun record => indices.filterMap (record[·]?) := by
  have hRows : ctx'.keptRows = ctx.keptRows := by
    rw [keptRows, keptRows, h.rowCount_eq hNames]
    refine List.filter_congr fun i _ => ?_
    rw [keeps, keeps, h.selection_eq]
  rw [records, records, hRows, List.map_map]
  exact List.map_congr_left fun i _ => h.record_eq i

end Projected

/-- Like contexts are projected alike. -/
theorem Alike.project {a b a' : Context} (h : a.Alike b) (hNames : names ≠ [])
    (hProject : a.project names = .ok a') :
    ∃ b', b.project names = .ok b' ∧ a'.Alike b' := by
  obtain ⟨b', hProject'⟩ : ∃ b', b.project names = .ok b' := by
    rw [exists_project_iff, ← h.schema_eq]
    exact (exists_project_iff a names).mp ⟨a', hProject⟩
  obtain ⟨indices, hLeft⟩ := projected_of_project hProject
  obtain ⟨indices', hRight⟩ := projected_of_project hProject'
  obtain rfl := Schema.indices_unique hLeft.indices_eq (h.schema_eq ▸ hRight.indices_eq)
  have hRecords : a'.records = b'.records := by
    rw [hLeft.records_eq hNames, hRight.records_eq hNames, h.records_eq]
  refine ⟨b', hProject', Schema.eq_of_fields ?_, hRecords, fun hSome => ?_⟩
  · rw [hLeft.fields_eq, hRight.fields_eq, h.schema_eq]
  · rw [hLeft.tracks_eq, hRight.tracks_eq, h.tracks_eq fun hNone => hSome ?_]
    rw [hLeft.records_eq hNames, hNone, List.map_nil]

end Context

end Columnar
