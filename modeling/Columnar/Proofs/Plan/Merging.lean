import Columnar.Plan.Optimization
import Columnar.Proofs.Context.Simulation

/-!
# Merging filters preserves results

The pass that joins filters moves a filter down past compactions and fuses it with the
filter that it meets.  The rewritten plan runs over longer tables with pending
selections where the given plan has compacted, and still arrives at a matching context.

* `execute_sound` -- every context that a plan reaches is sound.
* `execute_joinFilter` -- a filter put on a plan by the pass ends in a context that
  matches the one of the filter put on top.
* `execute_run` -- a whole plan and its rewriting end in matching contexts.
* `toTable_run` -- when a plan makes a table, its rewriting makes the same table.
-/

namespace Columnar

namespace Context

variable {ctx mid last : Context} {p q : Predicate}

/-- A filter and the filter on what it left match the filter on their conjunction. -/
theorem Sound.filter_and_matches (h : ctx.Sound) (hFirst : ctx.filter q = .ok mid)
    (hSecond : mid.filter p = .ok last) :
    ∃ ctx', ctx.filter (q.and p) = .ok ctx' ∧ last.Matches ctx' := by
  by_cases hColumns : ctx.table.columns = []
  · rw [h.filter_of_columns_nil hColumns] at hFirst
    obtain rfl := Except.ok.inj hFirst
    rw [h.filter_of_columns_nil hColumns] at hSecond
    obtain rfl := Except.ok.inj hSecond
    exact ⟨ctx, h.filter_of_columns_nil hColumns _, Matches.refl ctx⟩
  · have hChunks := h.isChunkless_eq_false hColumns
    obtain ⟨hTable, -, hMid, -⟩ := records_of_filter h.wellFormed hChunks hFirst
    have hPending := (records_of_filter hMid (by rw [hTable]; exact hChunks) hSecond).2.1
    obtain ⟨ctx', hFilter, hAlike⟩ :=
      filter_and_of_filter_filter h.wellFormed hChunks hFirst hSecond
    exact ⟨ctx', hFilter, Or.inr ⟨hPending,
      (records_of_filter h.wellFormed hChunks hFilter).2.1, hAlike.symm⟩⟩

/-- A filter on a compacted context matches the filter on the context itself. -/
theorem Sound.filter_matches_of_materialize (h : ctx.Sound) {chunkSize : Nat}
    (hFirst : ctx.materialize chunkSize = .ok mid) (hSecond : mid.filter p = .ok last) :
    ∃ ctx', ctx.filter p = .ok ctx' ∧ last.Matches ctx' := by
  by_cases hColumns : ctx.table.columns = []
  · rw [h.materialize_of_columns_nil hColumns] at hFirst
    obtain rfl := Except.ok.inj hFirst
    exact ⟨last, hSecond, Matches.refl last⟩
  · obtain ⟨-, hMid, hMidColumns, hAlike⟩ := h.alike_of_materialize hColumns hFirst
    exact Matches.of_filter_alike hAlike hMid h hMidColumns hSecond

end Context

namespace Plan

variable {settings : Settings} {plan : Plan} {t : Table} {ctx : Context}

/-- Every projection of the plan names at least one column. -/
def NamesColumns (plan : Plan) : Prop :=
  ∀ step ∈ plan, step.NamesColumns

/-- The outermost step of a plan that succeeds ran on what the steps below it left. -/
theorem execute_cons_eq_ok_iff {step : Step} {input : Plan} :
    execute settings (step :: input) t = .ok ctx ↔
      ∃ below, execute settings input t = .ok below ∧ step.run settings below = .ok ctx := by
  rw [execute_cons, Result.bind_eq_ok_iff]

/-- Every context that a plan reaches is sound. -/
theorem execute_sound (hTable : (Context.ofTable t).Sound) (hNames : plan.NamesColumns)
    (h : execute settings plan t = .ok ctx) : ctx.Sound := by
  induction plan generalizing ctx with
  | nil =>
      obtain rfl := Except.ok.inj h
      exact hTable
  | cons step input ih =>
      obtain ⟨hStep, hInput⟩ := List.forall_mem_cons.mp hNames
      obtain ⟨below, hBelow, hRun⟩ := execute_cons_eq_ok_iff.mp h
      exact (ih hInput hBelow).of_run hStep hRun

/-- A filter that the pass puts on a plan ends in a context that matches the one of the
filter put on top. -/
theorem execute_joinFilter (hTable : (Context.ofTable t).Sound) (hNames : plan.NamesColumns)
    {p : Predicate} {last : Context} (h : execute settings plan t = .ok ctx)
    (hFilter : ctx.filter p = .ok last) :
    ∃ ctx', execute settings (plan.joinFilter p) t = .ok ctx' ∧ last.Matches ctx' := by
  -- The induction follows the filter down the plan, through the compactions.
  induction plan generalizing ctx last with
  | nil => exact ⟨last, execute_cons_eq_ok_iff.mpr ⟨ctx, h, hFilter⟩, Context.Matches.refl last⟩
  | cons step input ih =>
      obtain ⟨-, hInput⟩ := List.forall_mem_cons.mp hNames
      obtain ⟨below, hBelow, hRun⟩ := execute_cons_eq_ok_iff.mp h
      have hSound := execute_sound hTable hInput hBelow
      cases step with
      | project names =>
          exact ⟨last, execute_cons_eq_ok_iff.mpr ⟨ctx, h, hFilter⟩, Context.Matches.refl last⟩
      | filter q =>
          obtain ⟨ctx', hJoined, hMatches⟩ := hSound.filter_and_matches hRun hFilter
          exact ⟨ctx', execute_cons_eq_ok_iff.mpr ⟨below, hBelow, hJoined⟩, hMatches⟩
      | materialize =>
          obtain ⟨mid, hPassed, hMatches⟩ :=
            hSound.filter_matches_of_materialize hRun hFilter
          obtain ⟨ctx', hJoined, hRest⟩ := ih hInput hBelow hPassed
          exact ⟨ctx', hJoined, hMatches.trans hRest⟩

/-- The pass keeps the projections of a plan. -/
theorem namesColumns_joinFilter (hNames : plan.NamesColumns) (p : Predicate) :
    (plan.joinFilter p).NamesColumns := by
  induction plan with
  | nil => exact List.forall_mem_cons.mpr ⟨trivial, hNames⟩
  | cons step input ih =>
      obtain ⟨hStep, hInput⟩ := List.forall_mem_cons.mp hNames
      cases step with
      | project names => exact List.forall_mem_cons.mpr ⟨trivial, hNames⟩
      | filter q => exact List.forall_mem_cons.mpr ⟨trivial, hInput⟩
      | materialize => exact ih hInput

theorem namesColumns_run (hNames : plan.NamesColumns) :
    NamesColumns (Pass.joinFilters.run plan) := by
  induction plan with
  | nil => exact hNames
  | cons step input ih =>
      obtain ⟨hStep, hInput⟩ := List.forall_mem_cons.mp hNames
      cases step with
      | filter p => exact namesColumns_joinFilter (ih hInput) p
      | project names | materialize => exact List.forall_mem_cons.mpr ⟨hStep, ih hInput⟩

/-- A plan and its rewriting end in matching contexts. -/
theorem execute_run (hTable : (Context.ofTable t).Sound) (hNames : plan.NamesColumns)
    (h : execute settings plan t = .ok ctx) :
    ∃ ctx', execute settings (Pass.joinFilters.run plan) t = .ok ctx' ∧ ctx.Matches ctx' := by
  induction plan generalizing ctx with
  | nil => exact ⟨ctx, h, Context.Matches.refl ctx⟩
  | cons step input ih =>
      obtain ⟨hStep, hInput⟩ := List.forall_mem_cons.mp hNames
      obtain ⟨below, hBelow, hRun⟩ := execute_cons_eq_ok_iff.mp h
      obtain ⟨below', hBelow', hMatches⟩ := ih hInput hBelow
      have hSound := execute_sound hTable hInput hBelow
      have hSound' := execute_sound hTable (namesColumns_run hInput) hBelow'
      obtain ⟨ctx', hRun', hLast⟩ := hMatches.of_run hSound hSound' hStep hRun
      -- Only a filter is moved; the other steps stay on top of the rewritten plan.
      cases step with
      | filter p =>
          obtain ⟨joined, hJoined, hRest⟩ :=
            execute_joinFilter hTable (namesColumns_run hInput) hBelow' hRun'
          exact ⟨joined, hJoined, hLast.trans hRest⟩
      | project names | materialize =>
          exact ⟨ctx', execute_cons_eq_ok_iff.mpr ⟨below', hBelow', hRun'⟩, hLast⟩

/-- Matching contexts end in the same table, whether a selection is pending or not. -/
theorem toTable_eq_of_matches {other : Plan} {ctx' : Context} (hSound : ctx.Sound)
    (hSound' : ctx'.Sound) (hMatches : ctx.Matches ctx')
    (h : execute settings plan t = .ok ctx) (h' : execute settings other t = .ok ctx') :
    toTable settings plan t = toTable settings other t := by
  rw [toTable, toTable, h, h', Result.ok_bind, Result.ok_bind]
  rcases hMatches with rfl | ⟨hPending, hPending', hAlike⟩
  · rfl
  · rw [hAlike.materialize_eq hSound.wellFormed hSound'.wellFormed
      (hSound.isChunkless_eq_false (Context.Matches.columns_ne_nil hSound hPending))
      (hSound'.isChunkless_eq_false (Context.Matches.columns_ne_nil hSound' hPending'))
      hPending hPending']
    obtain ⟨b, hb⟩ := Option.isSome_iff_exists.mp hPending
    obtain ⟨b', hb'⟩ := Option.isSome_iff_exists.mp hPending'
    rw [hb, hb']

/-- Over a well formed table whose columns all have chunks, a plan that makes a table and
its rewriting make the same table. -/
theorem toTable_run {made : Table} (hTable : t.WellFormed)
    (hChunks : ∀ column ∈ t.columns, column.chunks ≠ [])
    (hNames : ∀ names, Step.project names ∈ plan → names ≠ [])
    (h : plan.toTable settings t = .ok made) :
    Plan.toTable settings (Pass.joinFilters.run plan) t = .ok made := by
  have hSource := Context.sound_ofTable hTable hChunks
  have hPlan : plan.NamesColumns := fun step hMem => by
    cases step with
    | project names => exact hNames names hMem
    | filter p | materialize => trivial
  obtain ⟨ctx, hExecute, -⟩ := Result.bind_eq_ok_iff.mp h
  obtain ⟨ctx', hExecute', hMatches⟩ := execute_run hSource hPlan hExecute
  rw [← h]
  exact (toTable_eq_of_matches (execute_sound hSource hPlan hExecute)
    (execute_sound hSource (namesColumns_run hPlan) hExecute') hMatches hExecute hExecute').symm

/-- A projection between a filter and its compaction, and a filter left pending. -/
def sample : Plan :=
  ofScan [.filter (.compare "id" .ge (.integer 3)), .project ["score"], .materialize,
    .filter (.compare "score" .lt (.integer 50))]

end Plan

/-- The scores of the third and the fourth row of the sample. -/
def Table.sampleScores : Table where
  schema := ⟨[{ name := "score", type := .uint8 }], by decide⟩
  columns := [.ofSlices .uint8 [[30#8, 40#8]]]
  types_eq := rfl
  rows_eq := by decide

namespace Plan

/-- The rewritten plan compacts at the end only. -/
theorem toTable_run_sample :
    sample.toTable {} .sample = .ok .sampleScores ∧
      Plan.toTable {} (Pass.joinFilters.run sample) .sample = .ok .sampleScores :=
  have hMade : sample.toTable {} .sample = .ok .sampleScores := by decide +kernel
  have hChunks : ∀ column ∈ Table.sample.columns, column.chunks ≠ [] := by decide
  have hNames : ∀ names, Step.project names ∈ sample → names ≠ [] := by
    intro names hMem hNil
    subst hNil
    exact absurd hMem (by decide)
  ⟨hMade, toTable_run Table.wellFormed_sample hChunks hNames hMade⟩

end Plan

end Columnar
