import Columnar.Proofs.Context.Failures

/-!
# Compactions that find a selection

A compaction of a table with chunks needs a selection, and one that finds none is reported as
`unreachable`.  A plan is sensible when every compaction has a filter below it, and none of the
other compactions in between.  A filter leaves a selection unless the table has no chunks, and
whether it has is asked of the first column: a projection between the two steps may bring a
column with chunks to the front, and then the compaction asks for a selection that the filter
did not make.

* `Context.unselected_of_unreachable` -- nothing else is ever reported as `unreachable`.
* `Plan.Sensible.run` -- joining filters keeps a plan sensible.
* `Plan.sensible_findsSelections_iff` -- the tables on which every sensible plan finds its
  selections are those whose columns agree on having chunks; on the others a plan still does
  when every compaction stands on its filter.
-/

namespace Columnar

/-- Either every column has a chunk or none has. -/
def Table.EvenlyChunked (t : Table) : Prop :=
  ∀ c ∈ t.columns, ∀ c' ∈ t.columns, c.chunks = [] → c'.chunks = []

instance (t : Table) : Decidable t.EvenlyChunked :=
  inferInstanceAs (Decidable (∀ c ∈ t.columns, ∀ c' ∈ t.columns, c.chunks = [] → c'.chunks = []))

/-- A table without chunks has a first column without chunks, if it has columns at all. -/
theorem Table.chunks_eq_nil_of_isChunkless {t : Table} (hEven : t.EvenlyChunked)
    (h : t.isChunkless = true) {column : Column} (hMem : column ∈ t.columns) :
    column.chunks = [] := by
  obtain ⟨first, rest, hList⟩ := List.exists_cons_of_ne_nil (List.ne_nil_of_mem hMem)
  rw [isChunkless, hList, List.isEmpty_iff] at h
  exact hEven first (by rw [hList]; exact List.mem_cons_self) column hMem h

theorem Table.exists_chunks_of_isChunkless_eq_false {t : Table} (h : t.isChunkless = false) :
    ∃ column ∈ t.columns, column.chunks ≠ [] := by
  cases hList : t.columns with
  | nil =>
      rw [isChunkless_of_columns_nil hList] at h
      cases h
  | cons first rest =>
      rw [isChunkless, hList] at h
      exact ⟨first, List.mem_cons_self, by simpa using h⟩

namespace Context

variable {ctx ctx' : Context} {settings : Settings} {step : Step}

/-- A compaction would find what it needs: a selection, unless the table has no chunks. -/
def Compactable (ctx : Context) : Prop :=
  ctx.table.isChunkless = false → ctx.selection.isSome = true

/-- A selection fits, or that is reported as sizes that do not fit. -/
theorem checkSelection_cases (ctx : Context) :
    ctx.checkSelection = .ok () ∨ ∃ reason, ctx.checkSelection = .error (.runtime reason) := by
  unfold checkSelection
  split
  · exact .inl rfl
  · split
    · exact .inl rfl
    · exact .inr ⟨_, rfl⟩

/-- Whatever asks for a selection that fits is not reported as unreachable without one. -/
theorem wellFormed_of_unreachable (hTable : ctx.table.WellFormed) {α : Type}
    {rest : Unit → Result α} {reason : String}
    (h : (ctx.checkSelection >>= rest) = .error (.unreachable reason)) : ctx.WellFormed := by
  obtain hFits | ⟨other, hMisfit⟩ := ctx.checkSelection_cases
  · exact ⟨hTable, (checkSelection_eq_ok_iff ctx).mp hFits⟩
  · rw [hMisfit] at h
    cases h

/-- The only step that is reported as unreachable is a compaction of a table with chunks while no
selection is pending. -/
theorem unselected_of_unreachable (hTable : ctx.table.WellFormed) {reason : String}
    (h : step.run settings ctx = .error (.unreachable reason)) :
    step = .materialize ∧ ¬ ctx.Compactable := by
  cases step with
  | project names =>
      obtain ⟨name, -, hError⟩ | ⟨name, -, hError⟩ := error_of_project h
      all_goals cases hError
  | filter p => cases fault_of_filter (wellFormed_of_unreachable hTable h) h
  | materialize =>
      have hCtx := wellFormed_of_unreachable hTable h
      refine ⟨rfl, fun hReady => ?_⟩
      cases hChunks : ctx.table.isChunkless with
      | true =>
          rw [Step.run, materialize_of_isChunkless hCtx hChunks] at h
          cases h
      | false =>
          obtain ⟨hNone, -⟩ | ⟨field, -, -, hError⟩ := error_of_materialize hCtx h
          · have hSome := hReady hChunks
            rw [hNone] at hSome
            cases hSome
          · cases hError

/-- After a filter a compaction finds what it needs. -/
theorem compactable_of_filter (hTable : ctx.table.WellFormed) {p : Predicate}
    (h : ctx.filter p = .ok ctx') : ctx'.Compactable := by
  have hCtx := wellFormed_of_checkSelection hTable h
  intro hChunks
  rw [(hCtx.of_filter h).2] at hChunks
  exact (records_of_filter hCtx hChunks h).2.1

/-- Where the columns agree on having chunks, a projection leaves a compaction what it needs. -/
theorem Compactable.of_project {names : List String} (h : ctx.Compactable)
    (hEven : ctx.table.EvenlyChunked) (hRun : ctx.project names = .ok ctx') :
    ctx'.Compactable := by
  obtain ⟨indices, hProjected⟩ := projected_of_project hRun
  intro hChunks
  obtain ⟨column, hMem, hSome⟩ := Table.exists_chunks_of_isChunkless_eq_false hChunks
  rw [hProjected.selection_eq]
  refine h (Bool.eq_false_iff.mpr fun hNone => hSome ?_)
  exact Table.chunks_eq_nil_of_isChunkless hEven hNone (hProjected.mem_columns hMem)

/-- Every step keeps the columns in agreement on having chunks. -/
theorem evenlyChunked_of_run (hTable : ctx.table.WellFormed) (hEven : ctx.table.EvenlyChunked)
    (h : step.run settings ctx = .ok ctx') : ctx'.table.EvenlyChunked := by
  cases step with
  | project names =>
      obtain ⟨indices, hProjected⟩ := projected_of_project h
      exact fun c hc c' hc' =>
        hEven c (hProjected.mem_columns hc) c' (hProjected.mem_columns hc')
  | filter p =>
      rw [((wellFormed_of_checkSelection hTable h).of_filter h).2]
      exact hEven
  | materialize =>
      have hCtx := wellFormed_of_checkSelection hTable h
      cases hChunks : ctx.table.isChunkless with
      | true =>
          rw [Step.run, materialize_of_isChunkless hCtx hChunks] at h
          rw [← Except.ok.inj h]
          exact hEven
      | false =>
          -- A compaction leaves a chunk in every column.
          obtain ⟨-, t, rfl, -, hChunk, -⟩ := compacted_of_materialize hCtx hChunks h
          exact fun c hc _ _ hNone => absurd hNone (hChunk c hc)

/-- A compaction that does not find a selection says so. -/
theorem materialize_of_unselected (hChunks : ctx.table.isChunkless = false)
    (hNone : ctx.selection = none) (chunkSize : Nat) :
    ctx.materialize chunkSize =
      .error (.unreachable "materialize reached without a selection bitmap") := by
  have hFits : ctx.checkSelection = .ok () := by rw [checkSelection, hNone]
  rw [materialize, hFits, Result.ok_bind, hChunks, if_neg (by simp), hNone]
  rfl

end Context

namespace Plan

variable {settings : Settings} {plan : Plan} {t : Table} {ctx : Context}

/-- A filter stands above the last compaction of the plan. -/
def filtersLast : Plan → Bool
  | [] => false
  | .filter _ :: _ => true
  | .project _ :: input => filtersLast input
  | .materialize :: _ => false

/-- Every compaction has a filter below it, with no other compaction in between. -/
def Sensible : Plan → Prop
  | [] => True
  | .materialize :: input => filtersLast input = true ∧ Sensible input
  | .filter _ :: input => Sensible input
  | .project _ :: input => Sensible input

/-- Every compaction stands on a filter, with nothing in between. -/
def Tight : Plan → Prop
  | [] => True
  | .materialize :: input => (∃ p below, input = .filter p :: below) ∧ Tight input
  | .filter _ :: input => Tight input
  | .project _ :: input => Tight input

/-- No run of the plan reports a compaction without a selection. -/
def FindsSelections (settings : Settings) (t : Table) (plan : Plan) : Prop :=
  ∀ reason, plan.execute settings t ≠ .error (.unreachable reason) ∧
    plan.toTable settings t ≠ .error (.unreachable reason)

theorem filtersLast_joinFilter (p : Predicate) (plan : Plan) :
    (plan.joinFilter p).filtersLast = true := by
  obtain ⟨q, below, hPlan⟩ := exists_joinFilter p plan
  rw [hPlan, filtersLast]

/-- The pass leaves a filter above the last compaction where there was one. -/
theorem filtersLast_run (h : plan.filtersLast = true) :
    filtersLast (Pass.joinFilters.run plan) = true := by
  induction plan with
  | nil => cases h
  | cons step input ih =>
      cases step with
      | project names => exact ih h
      | filter p => exact filtersLast_joinFilter p _
      | materialize => cases h

theorem Sensible.joinFilter (h : plan.Sensible) (p : Predicate) :
    (plan.joinFilter p).Sensible := by
  induction plan with
  | nil => trivial
  | cons step input ih =>
      cases step with
      | project names => exact h
      | filter q => exact h
      | materialize => exact ih h.2

/-- Joining filters keeps a plan sensible. -/
theorem Sensible.run (h : plan.Sensible) : Sensible (Pass.joinFilters.run plan) := by
  induction plan with
  | nil => trivial
  | cons step input ih =>
      cases step with
      | project names => exact ih h
      | filter p => exact (ih h).joinFilter p
      | materialize => exact ⟨filtersLast_run h.1, ih h.2⟩

theorem Tight.joinFilter (h : plan.Tight) (p : Predicate) : (plan.joinFilter p).Tight := by
  induction plan with
  | nil => trivial
  | cons step input ih =>
      cases step with
      | project names => exact h
      | filter q => exact h
      | materialize => exact ih h.2

/-- Joining filters leaves every compaction on a filter. -/
theorem Tight.run (h : plan.Tight) : Tight (Pass.joinFilters.run plan) := by
  induction plan with
  | nil => trivial
  | cons step input ih =>
      cases step with
      | project names => exact ih h
      | filter p => exact (ih h).joinFilter p
      | materialize =>
          obtain ⟨p, below, rfl⟩ := h.1
          exact ⟨exists_joinFilter p _, ih h.2⟩

theorem table_wellFormed_of_execute (hTable : t.WellFormed)
    (h : plan.execute settings t = .ok ctx) : ctx.table.WellFormed := by
  induction plan generalizing ctx with
  | nil =>
      rw [← Except.ok.inj h]
      exact hTable
  | cons step input ih =>
      obtain ⟨below, hBelow, hRun⟩ := execute_cons_eq_ok_iff.mp h
      exact Context.table_wellFormed_of_run (ih hBelow) hRun

theorem evenlyChunked_of_execute (hTable : t.WellFormed) (hEven : t.EvenlyChunked)
    (h : plan.execute settings t = .ok ctx) : ctx.table.EvenlyChunked := by
  induction plan generalizing ctx with
  | nil =>
      rw [← Except.ok.inj h]
      exact hEven
  | cons step input ih =>
      obtain ⟨below, hBelow, hRun⟩ := execute_cons_eq_ok_iff.mp h
      exact Context.evenlyChunked_of_run (table_wellFormed_of_execute hTable hBelow) (ih hBelow)
        hRun

/-- A plan that leaves a filter above its last compaction leaves what the next one needs. -/
theorem compactable_of_filtersLast (hTable : t.WellFormed) (hEven : t.EvenlyChunked)
    (hFilters : plan.filtersLast = true) (h : plan.execute settings t = .ok ctx) :
    ctx.Compactable := by
  induction plan generalizing ctx with
  | nil => cases hFilters
  | cons step input ih =>
      obtain ⟨below, hBelow, hRun⟩ := execute_cons_eq_ok_iff.mp h
      cases step with
      | project names =>
          exact (ih hFilters hBelow).of_project (evenlyChunked_of_execute hTable hEven hBelow) hRun
      | filter p =>
          exact Context.compactable_of_filter (table_wellFormed_of_execute hTable hBelow) hRun
      | materialize => cases hFilters

/-- A plan is safe when each of its compactions finds what it needs in the context that the steps
below it leave. -/
theorem findsSelections_of_compactable (hTable : t.WellFormed)
    (h : ∀ above input ctx, plan = above ++ .materialize :: input →
      execute settings input t = .ok ctx → ctx.Compactable) :
    plan.FindsSelections settings t := by
  have hExecute : ∀ reason, plan.execute settings t ≠ .error (.unreachable reason) := by
    intro reason
    induction plan with
    | nil => exact nofun
    | cons step input ih =>
        intro hFail
        rw [execute_cons] at hFail
        rcases Result.bind_eq_error_iff.mp hFail with hBelow | ⟨ctx, hBelow, hRun⟩
        · exact ih (fun above rest ctx hInput => h (step :: above) rest ctx (by rw [hInput]; rfl))
            hBelow
        · obtain ⟨rfl, hMissing⟩ :=
            Context.unselected_of_unreachable (table_wellFormed_of_execute hTable hBelow) hRun
          exact hMissing (h [] input ctx rfl hBelow)
  refine fun reason => ⟨hExecute reason, fun hFail => ?_⟩
  rcases Result.bind_eq_error_iff.mp hFail with hBelow | ⟨ctx, hBelow, hRest⟩
  · exact hExecute reason hBelow
  · split at hRest
    · cases hRest
    · next selection hSelection =>
        -- The compaction at the end is there for a selection that is pending.
        rcases Result.bind_eq_error_iff.mp hRest with hLast | ⟨out, -, hMade⟩
        · have hRun : Step.materialize.run settings ctx = .error (.unreachable reason) := hLast
          have hMissing := (Context.unselected_of_unreachable
            (table_wellFormed_of_execute hTable hBelow) hRun).2
          exact hMissing fun _ => by rw [hSelection]; rfl
        · cases hMade

theorem Sensible.filtersLast {above input : Plan}
    (h : Sensible (above ++ .materialize :: input)) : input.filtersLast = true := by
  induction above with
  | nil => exact h.1
  | cons step above ih =>
      cases step with
      | project names => exact ih h
      | filter p => exact ih h
      | materialize => exact ih h.2

theorem Tight.exists_filter {above input : Plan} (h : Tight (above ++ .materialize :: input)) :
    ∃ p below, input = .filter p :: below := by
  induction above with
  | nil => exact h.1
  | cons step above ih =>
      cases step with
      | project names => exact ih h
      | filter p => exact ih h
      | materialize => exact ih h.2

/-- Where the columns agree on having chunks, the compactions of a sensible plan find their
selections. -/
theorem Sensible.findsSelections (h : plan.Sensible) (hTable : t.WellFormed)
    (hEven : t.EvenlyChunked) : plan.FindsSelections settings t := by
  refine findsSelections_of_compactable hTable fun above input ctx hPlan hInput => ?_
  subst hPlan
  exact compactable_of_filtersLast hTable hEven h.filtersLast hInput

/-- Compactions that stand on filters find their selections on every table. -/
theorem Tight.findsSelections (h : plan.Tight) (hTable : t.WellFormed) :
    plan.FindsSelections settings t := by
  refine findsSelections_of_compactable hTable fun above input ctx hPlan hInput => ?_
  subst hPlan
  obtain ⟨p, below, rfl⟩ := h.exists_filter
  obtain ⟨ctx', hBelow, hRun⟩ := execute_cons_eq_ok_iff.mp hInput
  exact Context.compactable_of_filter (table_wellFormed_of_execute hTable hBelow) hRun

/-- Where a column without chunks stands beside one with chunks, a sensible plan can miss a
selection: it filters while the one is first, and compacts when the other is. -/
theorem exists_sensible_of_not_evenlyChunked (hTable : t.WellFormed) (hUneven : ¬ t.EvenlyChunked) :
    ∃ plan : Plan, plan.Sensible ∧ ∀ settings, plan.execute settings t =
      .error (.unreachable "materialize reached without a selection bitmap") := by
  simp only [Table.EvenlyChunked, not_forall] at hUneven
  obtain ⟨bare, hBare, held, hHeld, hNone, hSome⟩ := hUneven
  obtain ⟨i, hi⟩ := List.getElem?_of_mem hBare
  obtain ⟨j, hj⟩ := List.getElem?_of_mem hHeld
  have hDistinct : i ≠ j := by
    rintro rfl
    rw [hi, Option.some.injEq] at hj
    exact hSome (hj ▸ hNone)
  -- Both columns, the one without chunks in front.
  obtain ⟨names, both, hBoth, hPair⟩ := (Context.ofTable t).exists_project_positions [i, j]
    (by simpa using hDistinct) (by
      simp only [List.forall_mem_cons, List.not_mem_nil, false_implies, implies_true, and_true]
      exact ⟨(List.getElem?_eq_some_iff.mp hi).1, (List.getElem?_eq_some_iff.mp hj).1⟩)
  have hColumns : both.table.columns = [bare, held] := by
    rw [hPair.columns_eq]
    simp [Context.ofTable, hi, hj]
  have hSettled := (Context.settled_ofTable hTable).of_project hBoth
  have hChunkless : both.table.isChunkless = true := by
    rw [Table.isChunkless, hColumns]
    simpa using hNone
  -- Then the other column alone.
  obtain ⟨name, last, hLast, hAlone⟩ := both.exists_project_positions [1] (by simp)
    (by simp [hColumns])
  have hChunks : last.table.isChunkless = false := by
    rw [Table.isChunkless, hAlone.columns_eq, hColumns]
    simpa using hSome
  have hUnselected := (hSettled.of_project hLast).selection_eq_none
  refine ⟨[.materialize, .project name, .filter (.constant true), .project names],
    ⟨rfl, trivial⟩, fun settings => ?_⟩
  simp only [execute_cons, execute_nil, Result.ok_bind, Step.run, hBoth,
    Context.filter_of_isChunkless hSettled.wellFormed hChunkless, hLast,
    Context.materialize_of_unselected hChunks hUnselected]

/-- The tables on which no sensible plan misses a selection are those whose columns agree on
having chunks.  On every table the plans whose compactions stand on filters miss none.  Joining
filters changes neither. -/
theorem sensible_findsSelections_iff (hTable : t.WellFormed) :
    ((∀ (settings : Settings) (plan : Plan), plan.Sensible →
        plan.FindsSelections settings t ∧
          FindsSelections settings t (Pass.joinFilters.run plan)) ↔ t.EvenlyChunked) ∧
      ∀ (settings : Settings) (plan : Plan), plan.Tight →
        plan.FindsSelections settings t ∧
          FindsSelections settings t (Pass.joinFilters.run plan) := by
  refine ⟨⟨fun hFinds => ?_, fun hEven settings plan hPlan => ?_⟩, fun settings plan hPlan => ?_⟩
  · by_contra hUneven
    obtain ⟨plan, hPlan, hFails⟩ := exists_sensible_of_not_evenlyChunked hTable hUneven
    exact ((hFinds {} plan hPlan).1 _).1 (hFails {})
  · exact ⟨hPlan.findsSelections hTable hEven, hPlan.run.findsSelections hTable hEven⟩
  · exact ⟨hPlan.findsSelections hTable, hPlan.run.findsSelections hTable⟩

/-- The compaction of the sample plan finds its selection behind a projection. -/
theorem sensible_sample_findsSelections :
    Table.sample.WellFormed ∧ Table.sample.EvenlyChunked ∧ sample.Sensible ∧
      sample.FindsSelections {} .sample ∧
      FindsSelections {} .sample (Pass.joinFilters.run sample) :=
  have hEven : Table.sample.EvenlyChunked := by decide
  have hPlan : sample.Sensible := ⟨rfl, trivial⟩
  ⟨Table.wellFormed_sample, hEven, hPlan,
    (sensible_findsSelections_iff Table.wellFormed_sample).1.mpr hEven {} sample hPlan⟩

end Plan

/-- A table without rows, whose first column has no chunk and whose second one has an empty
chunk. -/
def Table.rowless : Table where
  schema := ⟨[{ name := "a", type := .int32 }, { name := "b", type := .int32 }], by decide⟩
  columns := [{ type := .int32, chunks := [], chunks_type := by simp }, .ofSlices .int32 [[]]]
  types_eq := rfl
  rows_eq := by decide

theorem Table.wellFormed_rowless : Table.rowless.WellFormed := by
  intro column hColumn
  simp only [rowless, List.mem_cons, List.not_mem_nil, or_false] at hColumn
  rcases hColumn with rfl | rfl
  · exact ⟨by simp, by decide, by decide⟩
  · refine ⟨fun chunk hChunk => ?_, by decide, by decide⟩
    simp only [Column.ofSlices, List.map_cons, List.map_nil, List.mem_singleton] at hChunk
    subst hChunk
    exact Chunk.wellFormed_ofValues (by decide) (by decide)

namespace Plan

/-- A filter on a column with a chunk, while one without chunks is first. -/
def uncovering : Plan :=
  ofScan [.filter (.compare "b" .le (.integer 7)), .project ["b"], .materialize]

/-- The filter leaves no selection, since it looks at the first column, and the compaction asks
for one, since the projection has brought the other column to the front. -/
theorem uncovering_misses_selection :
    Table.rowless.WellFormed ∧ uncovering.Sensible ∧
      ¬ uncovering.FindsSelections {} .rowless ∧
      uncovering.execute {} .rowless =
        .error (.unreachable "materialize reached without a selection bitmap") ∧
      execute {} (Pass.joinFilters.run uncovering) .rowless =
        .error (.unreachable "materialize reached without a selection bitmap") :=
  have hFails : uncovering.execute {} .rowless =
      .error (.unreachable "materialize reached without a selection bitmap") := by decide +kernel
  ⟨Table.wellFormed_rowless, ⟨rfl, trivial⟩, fun hFinds => (hFinds _).1 hFails, hFails,
    by decide +kernel⟩

end Plan

end Columnar
