import Columnar.Proofs.Engine.Agreement
import Columnar.Proofs.Query.Meaning

/-!
# How a query fails

A query puts a compaction on top of every filter, and so does its plan after the passes.  No
selection is pending when a projection is run, every compaction finds the selection of the
filter below it, and whatever is left to fail is a fault of the calls: a name, a comparison or
a type.

* `Refused` -- the failures that are the caller's.
* `Plan.Recorded.refused_of_toTable` -- a recorded plan fails with one of them.
* `Query.execute_refuses` -- so does a query, in every session where kernels can be linked and
  with every access checked.
-/

namespace Columnar

/-- The failures of a caller who projects to the given lists of names. -/
inductive Refused (projections : List (List String)) : Error → Prop where
  /-- A predicate or a projection names a column that is not there. -/
  | column (name : String) : Refused projections (.columnNotFound name)
  /-- A column is compared with something that it cannot be compared with. -/
  | predicate (reason : String) : Refused projections (.invalidPredicate reason)
  /-- A type is not handled by kernels or by compactions. -/
  | type (what : String) : Refused projections (.notImplemented what)
  /-- A projection names a column twice. -/
  | duplicate {names : List String} {name : String} (hNames : names ∈ projections)
      (hTwice : 2 ≤ names.count name) :
      Refused projections (.schema s!"duplicate field name '{name}'")

theorem Refused.mono {projections others : List (List String)} {e : Error}
    (h : Refused projections e) (hMem : ∀ names ∈ projections, names ∈ others) :
    Refused others e := by
  cases h with
  | column name => exact .column name
  | predicate reason => exact .predicate reason
  | type what => exact .type what
  | duplicate hNames hTwice => exact .duplicate (hMem _ hNames) hTwice

/-- A fault of a predicate is the caller's. -/
theorem Refused.of_fault {projections : List (List String)} {p : Predicate} {e : Error}
    (h : p.Fault e) : Refused projections e := by
  cases h with
  | column name _ => exact .column name
  | type what => exact .type what
  | literal reason => exact .predicate reason

/-- The names of a projection. -/
def Step.names? : Step → Option (List String)
  | project names => some names
  | _ => none

namespace Plan

variable {settings : Settings} {plan : Plan} {t : Table} {e : Error}

/-- The lists of names that a plan projects to, the outermost one first. -/
def projections (plan : Plan) : List (List String) :=
  plan.filterMap Step.names?

@[simp]
theorem projections_project (names : List String) (input : Plan) :
    projections (.project names :: input) = names :: projections input := rfl

@[simp]
theorem projections_filter (p : Predicate) (input : Plan) :
    projections (.filter p :: input) = projections input := rfl

@[simp]
theorem projections_materialize (input : Plan) :
    projections (.materialize :: input) = projections input := rfl

/-- Joining filters leaves the projections alone. -/
@[simp]
theorem projections_joinFilter (p : Predicate) (plan : Plan) :
    (plan.joinFilter p).projections = plan.projections := by
  induction plan with
  | nil => rfl
  | cons step input ih =>
      cases step with
      | project names => rfl
      | filter q => rfl
      | materialize => exact ih

theorem projections_run (pass : Pass) (plan : Plan) :
    projections (pass.run plan) = plan.projections := by
  induction plan with
  | nil => rfl
  | cons step input ih => cases pass <;> cases step <;> simp [Pass.rebuild, ih]

/-- A recorded plan fails through the fault of its caller only. -/
theorem Recorded.refused_of_execute (h : Recorded plan) (hTable : t.WellFormed)
    (hRun : execute settings plan t = .error e) : Refused plan.projections e := by
  -- By the calls that recorded the plan; each call meets a context without a selection.
  induction h with
  | nil => cases hRun
  | @narrow p input hInput ih =>
      rw [execute_narrow] at hRun
      rcases Result.bind_eq_error_iff.mp hRun with hBelow | ⟨below, hBelow, hNarrow⟩
      · exact ih hBelow
      · exact .of_fault ((hInput.settled hTable hBelow).fault_of_narrow hNarrow)
  | @project names input hInput ih =>
      rw [execute_cons] at hRun
      rcases Result.bind_eq_error_iff.mp hRun with hBelow | ⟨below, -, hProject⟩
      · exact (ih hBelow).mono fun _ => List.mem_cons_of_mem names
      · obtain ⟨name, -, rfl⟩ | ⟨name, hTwice, rfl⟩ := Context.error_of_project hProject
        · exact .column name
        · exact .duplicate List.mem_cons_self hTwice

/-- No selection is pending at the end of a recorded plan, so no compaction is left to fail. -/
theorem Recorded.refused_of_toTable (h : Recorded plan) (hTable : t.WellFormed)
    (hRun : toTable settings plan t = .error e) : Refused plan.projections e := by
  rcases Result.bind_eq_error_iff.mp hRun with hExecute | ⟨ctx, hExecute, hRest⟩
  · exact h.refused_of_execute hTable hExecute
  · rw [(h.settled hTable hExecute).selection_eq_none] at hRest
    cases hRest

end Plan

namespace Query

variable {t : Table} {settings : Settings}

/-- A recorded plan projects to the names of the calls, the last call outermost. -/
theorem projections_record (t : Table) (settings : Settings) (calls : List Call) :
    (record t settings calls).plan.projections = (calls.filterMap Call.names?).reverse := by
  induction calls using List.reverseRecOn with
  | nil => rfl
  | append_singleton calls c ih =>
      rw [record_append, List.filterMap_append, List.reverse_append, ← ih]
      cases c <;> rfl

/-- Whatever is called on a query over a well formed table, executing it gives a table or fails
through the fault of its caller: in every session where kernels can be linked, with every access
checked, and under any settings.  The session can still link kernels after that. -/
theorem execute_refuses (hTable : t.WellFormed) (settings : Settings) (calls : List Call)
    {s : Session} (hSession : s.Linkable) :
    ∃ outcome s', (record t settings calls).executeIn.run.run s = (outcome, s') ∧
      s'.Linkable ∧ outcome = (record t settings calls).execute ∧
      ((∃ made, outcome = .ok made) ∨
        ∃ e, outcome = .error e ∧ Refused (calls.filterMap Call.names?) e) := by
  obtain ⟨hSource, hSettings, hPlan⟩ := recorded_record t settings calls
  obtain ⟨s', hRun, hAfter⟩ :=
    executeIn_answers (q := record t settings calls) (by rwa [hSource]) s hSession
  refine ⟨_, s', hRun, hAfter, rfl, ?_⟩
  cases hExecute : (record t settings calls).execute with
  | ok made => exact .inl ⟨made, rfl⟩
  | error e =>
      rw [execute, hSource, hSettings] at hExecute
      -- The passes keep the plan recorded, and its projections are those of the calls.
      have hRefused := hPlan.run.refused_of_toTable hTable hExecute
      rw [Plan.projections_run, projections_record] at hRefused
      exact .inr ⟨e, rfl, hRefused.mono fun _ => List.mem_reverse.mp⟩

/-- The second projection names a column twice, and the filter behind it is never run. -/
def refusedSample : List Call :=
  [.filter (.compare "id" .gt (.integer 1)), .project ["score"], .project ["score", "score"],
    .filter (.compare "id" .gt (.integer 1))]

theorem execute_sample_refuses :
    Table.sample.WellFormed ∧ Session.fresh.Linkable ∧
      (record .sample {} refusedSample).execute =
        .error (.schema "duplicate field name 'score'") ∧
      ∃ outcome s', (record .sample {} refusedSample).executeIn.run.run .fresh = (outcome, s') ∧
        s'.Linkable ∧ outcome = (record .sample {} refusedSample).execute ∧
        ((∃ made, outcome = .ok made) ∨
          ∃ e, outcome = .error e ∧ Refused (refusedSample.filterMap Call.names?) e) :=
  ⟨Table.wellFormed_sample, Session.linkable_fresh, by decide +kernel,
    execute_refuses Table.wellFormed_sample {} refusedSample Session.linkable_fresh⟩

end Query

end Columnar
