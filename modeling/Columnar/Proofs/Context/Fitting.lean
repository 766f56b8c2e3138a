import Columnar.Proofs.Context.Failures

/-!
# A selection that fits its table

A context holds a table and a selection side by side, and every step replaces one of them or
both.  Filters, compactions and projections to some columns keep a bit for each row.  A
projection to no columns does not: its table has no rows, while a selection that is pending
keeps its bits.  From then on no filter and no compaction runs, since the first thing they do
is to look for a bit for each row.

* `Context.wellFormed_attemptAll_iff` -- the selection fits after a run exactly when no rows
  were taken away from under it.
* `Context.Misfit.attemptAll` -- a selection that has come to not fit stays that way.
* `Context.selection_fits_of_keepsRows` -- until then the selection fits after every step, and
  no size is ever reported that does not fit.
-/

namespace Columnar.Context

variable {settings : Settings} {ctx : Context} {t : Table}

/-- Makes a step; a step that fails leaves the context as it was. -/
def attempt (settings : Settings) (ctx : Context) (step : Step) : Context :=
  match step.run settings ctx with
  | .ok next => next
  | .error _ => ctx

/-- Makes some steps, the first one first. -/
def attemptAll (settings : Settings) (ctx : Context) (steps : List Step) : Context :=
  steps.foldl (attempt settings) ctx

/-- No step of a run takes rows away from under a pending selection. -/
def KeepsRows (settings : Settings) : Context → List Step → Prop
  | _, [] => True
  | ctx, step :: rest => step.KeepsRows ctx ∧ KeepsRows settings (ctx.attempt settings step) rest

instance decidableKeepsRows : (ctx : Context) → (steps : List Step) →
    Decidable (ctx.KeepsRows settings steps)
  | _, [] => .isTrue trivial
  | ctx, step :: rest =>
      have := decidableKeepsRows (ctx.attempt settings step) rest
      inferInstanceAs (Decidable (_ ∧ _))

theorem keepsRows_append_iff {done rest : List Step} :
    ctx.KeepsRows settings (done ++ rest) ↔
      ctx.KeepsRows settings done ∧ (ctx.attemptAll settings done).KeepsRows settings rest := by
  induction done generalizing ctx with
  | nil => exact iff_and_self.mpr fun _ => trivial
  | cons step done ih =>
      rw [List.cons_append, KeepsRows, KeepsRows, ih, and_assoc]
      rfl

theorem attempt_of_ok {step : Step} {next : Context} (h : step.run settings ctx = .ok next) :
    ctx.attempt settings step = next := by
  rw [attempt, h]

theorem attempt_of_error {step : Step} {e : Error} (h : step.run settings ctx = .error e) :
    ctx.attempt settings step = ctx := by
  rw [attempt, h]

/-- The table has no columns, and the selection has a bit. -/
def Misfit (ctx : Context) : Prop :=
  ctx.table.columns = [] ∧ ∃ b, ctx.selection = some b ∧ b.length ≠ 0

theorem Misfit.not_wellFormed (h : ctx.Misfit) : ¬ ctx.WellFormed := by
  obtain ⟨hColumns, b, hSelection, hLength⟩ := h
  intro hCtx
  have hFits := hCtx.selection_fits b hSelection
  rw [Table.rowCount_eq, hColumns, sharedRows] at hFits
  exact hLength hFits

/-- One step keeps a context well formed, when it keeps the rows. -/
theorem WellFormed.of_attempt (hCtx : ctx.WellFormed) {step : Step} (hKeeps : step.KeepsRows ctx) :
    (ctx.attempt settings step).WellFormed := by
  cases hRun : step.run settings ctx with
  | ok next =>
      rw [attempt_of_ok hRun]
      exact hCtx.of_run hKeeps hRun
  | error e =>
      rw [attempt_of_error hRun]
      exact hCtx

/-- A step that takes the rows away leaves a selection that does not fit. -/
theorem WellFormed.misfit_of_attempt (hCtx : ctx.WellFormed) {step : Step}
    (hTakes : ¬ step.KeepsRows ctx) : (ctx.attempt settings step).Misfit := by
  obtain ⟨rfl, hPending⟩ := Classical.not_imp.mp hTakes
  obtain ⟨hSome, hRows⟩ := not_or.mp hPending
  obtain ⟨b, hSelection⟩ := Option.ne_none_iff_exists'.mp hSome
  have hRun : (Step.project []).run settings ctx = .ok ⟨Table.empty, ctx.selection⟩ := rfl
  rw [attempt_of_ok hRun]
  -- The bits are those of the rows that were there before.
  refine ⟨rfl, b, hSelection, ?_⟩
  rw [hCtx.selection_fits b hSelection]
  exact hRows

/-- What a selection that does not fit is reported as. -/
theorem Misfit.exists_checkSelection (h : ctx.Misfit) :
    ∃ reason, ctx.checkSelection = .error (.runtime reason) := by
  obtain ⟨hColumns, b, hSelection, hLength⟩ := h
  have hRows : ctx.table.rowCount = 0 := by rw [Table.rowCount_eq, hColumns, sharedRows]
  rw [checkSelection, hSelection]
  exact ⟨_, if_neg (by rw [hRows]; exact hLength)⟩

/-- Filters and compactions report a selection that does not fit. -/
theorem Misfit.exists_run (h : ctx.Misfit) (settings : Settings) (step : Step)
    (hStep : ∀ names, step ≠ .project names) :
    ∃ reason, step.run settings ctx = .error (.runtime reason) := by
  obtain ⟨reason, hCheck⟩ := h.exists_checkSelection
  refine ⟨reason, ?_⟩
  cases step with
  | project names => exact absurd rfl (hStep names)
  | filter p =>
      rw [Step.run, filter, hCheck]
      rfl
  | materialize =>
      rw [Step.run, materialize, hCheck]
      rfl

/-- A selection that has come to not fit stays that way: filters and compactions fail, and
there is no column left to project to. -/
theorem Misfit.attempt (h : ctx.Misfit) (step : Step) : (ctx.attempt settings step).Misfit := by
  cases hRun : step.run settings ctx with
  | error e =>
      rw [attempt_of_error hRun]
      exact h
  | ok next =>
      rw [attempt_of_ok hRun]
      -- Only a projection can have succeeded.
      have hFails : (∀ names, step ≠ .project names) → False := fun hStep => by
        obtain ⟨reason, hFail⟩ := h.exists_run settings step hStep
        rw [hRun] at hFail
        cases hFail
      cases step with
      | project names =>
          obtain ⟨hColumns, hSelection⟩ := h
          obtain ⟨indices, hProjected⟩ := projected_of_project hRun
          refine ⟨?_, by rwa [hProjected.selection_eq]⟩
          rw [hProjected.columns_eq, hColumns]
          exact List.filterMap_eq_nil_iff.mpr fun _ _ => rfl
      | filter p => exact (hFails (by simp)).elim
      | materialize => exact (hFails (by simp)).elim

theorem Misfit.attemptAll (h : ctx.Misfit) (steps : List Step) :
    (ctx.attemptAll settings steps).Misfit := by
  induction steps generalizing ctx with
  | nil => exact h
  | cons step rest ih => exact ih (h.attempt step)

/-- After a run the selection fits exactly when no step took rows away from under it. -/
theorem wellFormed_attemptAll_iff (hCtx : ctx.WellFormed) (steps : List Step) :
    (ctx.attemptAll settings steps).WellFormed ↔ ctx.KeepsRows settings steps := by
  induction steps generalizing ctx with
  | nil => exact iff_of_true hCtx trivial
  | cons step rest ih =>
      rw [KeepsRows]
      by_cases hKeeps : step.KeepsRows ctx
      · rw [and_iff_right hKeeps]
        exact ih (hCtx.of_attempt hKeeps)
      · -- Once the rows are gone the rest of the run does not bring them back.
        refine iff_of_false ?_ fun h => hKeeps h.1
        exact ((hCtx.misfit_of_attempt hKeeps).attemptAll rest).not_wellFormed

/-- The steps of a run lead where the attempts lead, or up to the first one that fails. -/
theorem foldlM_run_cases (settings : Settings) (ctx : Context) (steps : List Step) :
    steps.foldlM (Step.run settings) ctx = .ok (ctx.attemptAll settings steps) ∨
      ∃ (done : List Step) (step : Step) (e : Error), done <+: steps ∧
        step.run settings (ctx.attemptAll settings done) = .error e ∧
        steps.foldlM (Step.run settings) ctx = .error e := by
  -- A run stops at its first failure, while attempts go on; up to there they are the same.
  induction steps generalizing ctx with
  | nil => exact .inl rfl
  | cons step rest ih =>
      rw [List.foldlM_cons]
      cases hRun : step.run settings ctx with
      | error e => exact .inr ⟨[], step, e, List.nil_prefix, hRun, rfl⟩
      | ok next =>
          have hNext : ∀ steps, ctx.attemptAll settings (step :: steps) =
              next.attemptAll settings steps := fun steps => by
            rw [attemptAll, List.foldl_cons, attempt_of_ok hRun]
            rfl
          rw [Result.ok_bind, hNext]
          obtain hAll | ⟨done, last, e, hDone, hLast, hFold⟩ := ih next
          · exact .inl hAll
          · refine .inr ⟨step :: done, last, e, List.cons_prefix_cons.mpr ⟨rfl, hDone⟩, ?_, hFold⟩
            rw [hNext]
            exact hLast

/-- A plan fails as some step fails where its attempts have come to. -/
theorem exists_run_of_toTable {steps : List Step} {e : Error}
    (h : (Plan.ofScan steps).toTable settings t = .error e) :
    ∃ done step, done <+: steps ∧
      Step.run settings ((ofTable t).attemptAll settings done) step = .error e := by
  rw [Plan.toTable, Plan.execute, Plan.walk_ofScan] at h
  obtain hAll | ⟨done, step, e', hDone, hFail, hFold⟩ :=
    foldlM_run_cases settings (ofTable t) steps
  · rw [hAll, Result.ok_bind] at h
    refine ⟨steps, .materialize, List.prefix_refl steps, ?_⟩
    split at h
    · cases h
    · -- What is left to fail is the compaction at the end.
      rcases Result.bind_eq_error_iff.mp h with hLast | ⟨out, -, hMade⟩
      · exact hLast
      · cases hMade
  · rw [hFold] at h
    obtain rfl : e' = e := Except.error.inj h
    exact ⟨done, step, hDone, hFail⟩

/-- As long as no rows are taken away from under a selection, it fits after every step of a run,
whatever the steps are and whether they fail or not.  No step of the run and no step that could
follow then reports sizes that do not fit, and neither does the plan of the steps with the
compaction at its end. -/
theorem selection_fits_of_keepsRows (hTable : t.WellFormed) {steps : List Step}
    (hKeeps : (ofTable t).KeepsRows settings steps) :
    (∀ done, done <+: steps →
      (∀ b, ((ofTable t).attemptAll settings done).selection = some b →
        b.length = ((ofTable t).attemptAll settings done).table.rowCount) ∧
      ∀ step reason, Step.run settings ((ofTable t).attemptAll settings done) step ≠
        .error (.runtime reason)) ∧
    ∀ reason, (Plan.ofScan steps).toTable settings t ≠ .error (.runtime reason) := by
  have hFits : ∀ done, done <+: steps →
      ((ofTable t).attemptAll settings done).WellFormed := by
    rintro done ⟨rest, rfl⟩
    exact (wellFormed_attemptAll_iff (wellFormed_ofTable hTable) done).mpr
      (keepsRows_append_iff.mp hKeeps).1
  refine ⟨fun done hDone => ⟨(hFits done hDone).selection_fits,
    ne_runtime_of_run (hFits done hDone) settings⟩, fun reason hPlan => ?_⟩
  obtain ⟨done, step, hDone, hFail⟩ := exists_run_of_toTable hPlan
  exact ne_runtime_of_run (hFits done hDone) settings step reason hFail

/-- A run that filters, projects and compacts, and projects to no columns after that. -/
def fittingSample : List Step :=
  [.filter (.compare "id" .gt (.integer 1)), .project ["score"], .project ["id"], .materialize,
    .project [], .filter (.compare "id" .gt (.integer 1))]

theorem selection_fits_of_keepsRows_sample :
    Table.sample.WellFormed ∧ (ofTable .sample).KeepsRows {} fittingSample ∧
    (∀ done, done <+: fittingSample →
      (∀ b, ((ofTable .sample).attemptAll {} done).selection = some b →
        b.length = ((ofTable .sample).attemptAll {} done).table.rowCount) ∧
      ∀ step reason, Step.run {} ((ofTable .sample).attemptAll {} done) step ≠
        .error (.runtime reason)) ∧
    ∀ reason, (Plan.ofScan fittingSample).toTable {} .sample ≠ .error (.runtime reason) :=
  have hKeeps : (ofTable .sample).KeepsRows {} fittingSample := by decide +kernel
  ⟨Table.wellFormed_sample, hKeeps, selection_fits_of_keepsRows Table.wellFormed_sample hKeeps⟩

/-- After a filter a projection to no columns leaves five bits over a table without rows, which
the next compaction reports. -/
theorem selection_misfits_sample :
    ∃ b, ((ofTable .sample).attemptAll {}
        [.filter (.compare "id" .gt (.integer 1)), .project []]).selection = some b ∧
      b.length = 5 ∧ ((ofTable .sample).attemptAll {}
        [.filter (.compare "id" .gt (.integer 1)), .project []]).table.rowCount = 0 ∧
      (Plan.ofScan [.filter (.compare "id" .gt (.integer 1)), .project []]).toTable {} .sample =
        .error (.runtime "selection of 5 bits over a table of 0 rows") :=
  ⟨_, rfl, by decide +kernel, by decide +kernel, by decide +kernel⟩

end Columnar.Context
