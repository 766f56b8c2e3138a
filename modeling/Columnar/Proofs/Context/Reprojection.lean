import Columnar.Proofs.Context.Project

/-!
# Projecting a projection

A projection keeps the columns that it names, so names among them can be projected to as well
before it as after it.  Only the first of two projections can make a difference, by being
refused: then there is nothing to project again.

* `Context.project_eq_of_indices` -- a projection as a function of the positions of its names.
* `Context.project_project` -- the second of two projections gives what it gives alone.
* `Schema.projections_compose` -- how a list of names is answered, and two lists in a row.
-/

namespace Columnar

/-- Places of positions pick from what was picked what the positions pick. -/
theorem filterMap_getElem?_of_places {α : Type} {indices places positions : List Nat}
    {xs : List α} (hRange : ∀ k ∈ indices, k < xs.length)
    (h : places.map (indices[·]?) = positions.map some) :
    places.filterMap ((indices.filterMap (xs[·]?))[·]?) = positions.filterMap (xs[·]?) := by
  have hSome : ∀ k ∈ indices, (xs[k]?).isSome = true := fun k hk => by
    simpa using hRange k hk
  calc places.filterMap ((indices.filterMap (xs[·]?))[·]?)
      = places.filterMap fun j => indices[j]?.bind (xs[·]?) :=
        congrArg (List.filterMap · places)
          (funext fun j => getElem?_filterMap_of_isSome hSome j)
    _ = (places.map (indices[·]?)).filterMap fun position => position.bind (xs[·]?) := by
        rw [List.filterMap_map]
        rfl
    _ = positions.filterMap (xs[·]?) := by
        rw [h, List.filterMap_map]
        rfl

namespace Context

variable {ctx ctx' : Context} {names further : List String} {indices : List Nat}

/-- Names that are known are projected to through their positions. -/
theorem project_eq_of_indices (h : names.map ctx.table.schema.indexOf? = indices.map some) :
    ctx.project names = (do
      let schema ← Schema.ofFields (indices.filterMap ctx.table.schema.field?)
      let table ← Table.make schema (indices.filterMap (ctx.table.columns[·]?))
      return { table, selection := ctx.selection }) := by
  rw [project, Table.project, Schema.project, Schema.mapM_locate_eq_ok_iff.mpr h, Result.ok_bind]
  cases Schema.ofFields (indices.filterMap ctx.table.schema.field?) <;> rfl

/-- The positions of kept names after a projection are places of their positions before it. -/
theorem Projected.exists_indices (h : Projected names indices ctx ctx')
    (hFurther : further ⊆ names) :
    ∃ places positions : List Nat, further.map ctx'.table.schema.indexOf? = places.map some ∧
      further.map ctx.table.schema.indexOf? = positions.map some ∧
      places.map (indices[·]?) = positions.map some := by
  induction further with
  | nil => exact ⟨[], [], rfl, rfl, rfl⟩
  | cons name rest ih =>
      obtain ⟨hName, hRest⟩ := List.cons_subset.mp hFurther
      obtain ⟨j, k, hPlace, hPosition, hSame, -⟩ := h.exists_position hName
      obtain ⟨places, positions, hPlaces, hPositions, hAll⟩ := ih hRest
      refine ⟨j :: places, k :: positions, ?_, ?_, ?_⟩
      · rw [List.map_cons, List.map_cons, hPlace, hPlaces]
      · rw [List.map_cons, List.map_cons, hPosition, hPositions]
      · rw [List.map_cons, List.map_cons, hSame, hAll]

/-- Behind a projection that is made, names among those that it keeps are projected to as
before it: the table and the selection are the same, and so is the refusal. -/
theorem project_project (h : ctx.project names = .ok ctx') (hFurther : further ⊆ names) :
    ctx'.project further = ctx.project further := by
  obtain ⟨indices, hProjected⟩ := projected_of_project h
  obtain ⟨places, positions, hPlaces, hPositions, hSame⟩ := hProjected.exists_indices hFurther
  have hRange : ∀ k ∈ indices, k < ctx.table.schema.fields.length := fun k hk =>
    Schema.lt_of_mem_indices hProjected.indices_eq hk
  have hFields : places.filterMap ctx'.table.schema.field? =
      positions.filterMap ctx.table.schema.field? := by
    show places.filterMap (ctx'.table.schema.fields[·]?) = _
    rw [hProjected.fields_eq]
    exact filterMap_getElem?_of_places hRange hSame
  have hColumns : places.filterMap (ctx'.table.columns[·]?) =
      positions.filterMap (ctx.table.columns[·]?) := by
    rw [hProjected.columns_eq]
    rw [← Table.length_columns] at hRange
    exact filterMap_getElem?_of_places hRange hSame
  rw [project_eq_of_indices hPlaces, project_eq_of_indices hPositions, hFields, hColumns,
    hProjected.selection_eq]

end Context

/-- A list of names is projected to exactly when the schema knows them all and none is repeated,
and is refused for the first unknown name, or else for the first repeated one.  Two projections
in a row, the second to names of the first, are made exactly when each of them is made alone,
and leave what the second leaves alone. -/
theorem Schema.projections_compose (s : Schema) (names : List String) :
    ((∃ made, s.project names = .ok made) ↔
        (∀ name ∈ names, name ∈ s.fields.map Field.name) ∧ names.Nodup) ∧
      s.Projection names (s.project names) ∧
      ∀ (ctx : Context) (further : List String), further ⊆ names → ∀ out,
        (ctx.project names >>= fun ctx' => ctx'.project further) = .ok out ↔
          (∃ ctx', ctx.project names = .ok ctx') ∧ ctx.project further = .ok out := by
  refine ⟨?_, s.project_projection names, fun ctx further hFurther out => ?_⟩
  · rw [exists_project_iff, and_comm]
    simp only [mem_names_iff]
  · rw [Result.bind_eq_ok_iff]
    constructor
    · rintro ⟨ctx', hFirst, hSecond⟩
      exact ⟨⟨ctx', hFirst⟩, (Context.project_project hFirst hFurther).symm.trans hSecond⟩
    · rintro ⟨⟨ctx', hFirst⟩, hAlone⟩
      exact ⟨ctx', hFirst, (Context.project_project hFirst hFurther).trans hAlone⟩

/-- The sample with its identifiers only. -/
def Context.sampleIds : Context where
  table := {
    schema := ⟨[{ name := "id", type := .int16 }], by decide⟩
    columns := Table.sample.columns.take 1
    types_eq := rfl
    rows_eq := by decide }
  selection := sample.selection

/-- The identifiers of the sample, projected to alone and after a projection that turns the
columns around. -/
theorem Schema.projections_compose_sample :
    ["id"] ⊆ ["score", "id"] ∧ Context.sample.project ["id"] = .ok .sampleIds ∧
      (Context.sample.project ["score", "id"] >>= fun ctx => ctx.project ["id"]) =
        .ok .sampleIds :=
  have hKept : ["id"] ⊆ ["score", "id"] := by decide
  have hAlone : Context.sample.project ["id"] = .ok .sampleIds := by decide +kernel
  have hFirst : ∃ ctx, Context.sample.project ["score", "id"] = .ok ctx :=
    (Context.exists_project_iff _ _).mpr
      ((projections_compose Table.sample.schema ["score", "id"]).1.mpr ⟨by decide, by decide⟩)
  ⟨hKept, hAlone, ((projections_compose Table.sample.schema ["score", "id"]).2.2
    Context.sample ["id"] hKept .sampleIds).mpr ⟨hFirst, hAlone⟩⟩

/-- A first projection that repeats a name is refused, and so there is nothing to project again;
the second one alone is made. -/
theorem Context.project_project_repeated :
    ["id"] ⊆ ["id", "id"] ∧
      (sample.project ["id", "id"] >>= fun ctx => ctx.project ["id"]) =
        .error (.schema "duplicate field name 'id'") ∧
      sample.project ["id"] = .ok sampleIds := by
  refine ⟨by decide, ?_, ?_⟩ <;> decide +kernel

end Columnar
