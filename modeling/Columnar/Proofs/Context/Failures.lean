import Columnar.Proofs.Query.Recorded
import Columnar.Proofs.Selection.Refusal

/-!
# How steps fail

On a well formed context a step fails for reasons that its caller can see: names that are
unknown or repeated, a predicate that is refused, a type that is not handled, or a compaction
without a selection.  No check of sizes fails, and a step that succeeds leaves a well formed
table.

* `Context.error_of_project` -- a projection fails on its names only.
* `Context.error_of_materialize` -- a compaction fails on a missing selection or on a type.
* `Context.Settled.fault_of_narrow` -- on top of a filter it never misses the selection.
* `Context.ne_runtime_of_run` -- no step reports sizes that do not fit.
-/

namespace Columnar

/-- A schema is projected unless a name is unknown or repeated. -/
theorem Schema.error_of_project {s : Schema} {names : List String} {e : Error}
    (h : s.project names = .error e) :
    (∃ name ∈ names, e = .columnNotFound name) ∨
      ∃ name, 2 ≤ names.count name ∧ e = .schema s!"duplicate field name '{name}'" := by
  have hAnswer := s.project_projection names
  rw [h] at hAnswer
  cases hAnswer with
  | unknown before name after hNames => exact .inl ⟨name, by simp [hNames], rfl⟩
  | repeated before name after hNames _ _ hRepeats =>
      refine .inr ⟨name, ?_, rfl⟩
      have hBefore := List.count_pos_iff.mpr hRepeats
      rw [hNames, List.count_append, List.count_cons_self]
      omega

/-- A projection to no columns leaves no rows.  The step does not take rows away from under a
pending selection. -/
def Step.KeepsRows (step : Step) (ctx : Context) : Prop :=
  step = .project [] → ctx.selection = none ∨ ctx.table.rowCount = 0

instance (step : Step) (ctx : Context) : Decidable (step.KeepsRows ctx) :=
  inferInstanceAs (Decidable (_ → _))

namespace Context

variable {ctx ctx' : Context} {e : Error}

/-- A projection fails on a name that is unknown or repeated.  The columns of a table always
make a table again. -/
theorem error_of_project {names : List String} (h : ctx.project names = .error e) :
    (∃ name ∈ names, e = .columnNotFound name) ∨
      ∃ name, 2 ≤ names.count name ∧ e = .schema s!"duplicate field name '{name}'" := by
  refine Schema.error_of_project (s := ctx.table.schema) ?_
  cases hSchema : ctx.table.schema.project names with
  | ok made =>
      obtain ⟨projected, hProject⟩ := (exists_project_iff ctx names).mpr ⟨made, hSchema⟩
      rw [h] at hProject
      cases hProject
  | error e' =>
      rw [project, Table.project, hSchema] at h
      obtain rfl : e' = e := Except.error.inj h
      rfl

/-- A filter fails on a fault of its predicate. -/
theorem fault_of_filter {p : Predicate} (hCtx : ctx.WellFormed) (h : ctx.filter p = .error e) :
    p.Fault e := by
  cases hChunks : ctx.table.isChunkless with
  | true =>
      rw [filter_of_isChunkless hCtx hChunks] at h
      cases h
  | false =>
      rw [← Result.error?_eq_some_iff, error?_filter hCtx hChunks] at h
      exact Schema.fault_of_refusal? h

/-- A compaction fails when no selection is pending, or on a column whose elements have no
fixed width. -/
theorem error_of_materialize {chunkSize : Nat} (hCtx : ctx.WellFormed)
    (h : ctx.materialize chunkSize = .error e) :
    (ctx.selection = none ∧ e = .unreachable "materialize reached without a selection bitmap") ∨
      ∃ field ∈ ctx.table.schema.fields, field.type.isFixedWidth = false ∧
        e = .notImplemented s!"materializing {field.type.name} column '{field.name}'" := by
  cases hChunks : ctx.table.isChunkless with
  | true =>
      rw [materialize_of_isChunkless hCtx hChunks] at h
      cases h
  | false =>
      cases hSelection : ctx.selection with
      | none =>
          rw [materialize, hCtx.checkSelection, Result.ok_bind, hChunks, if_neg (by simp),
            hSelection] at h
          exact .inl ⟨rfl, (Except.error.inj h).symm⟩
      | some selection =>
          cases hFind : ctx.table.schema.fields.find? fun field => !field.type.isFixedWidth with
          | some field =>
              rw [materialize_eq hCtx hChunks hSelection, hFind] at h
              exact .inr ⟨field, List.mem_of_find?_eq_some hFind,
                by simpa using List.find?_some hFind, (Except.error.inj h).symm⟩
          | none =>
              obtain ⟨t, hMade, -⟩ := exists_materialized hCtx hChunks
                (by simpa using List.find?_eq_none.mp hFind) hSelection chunkSize
              rw [hMade] at h
              cases h

/-- A filter that succeeds keeps the table and leaves a selection that fits. -/
theorem WellFormed.of_filter {p : Predicate} (hCtx : ctx.WellFormed)
    (h : ctx.filter p = .ok ctx') : ctx'.WellFormed ∧ ctx'.table = ctx.table := by
  cases hChunks : ctx.table.isChunkless with
  | true =>
      rw [filter_of_isChunkless hCtx hChunks] at h
      rw [← Except.ok.inj h]
      exact ⟨hCtx, rfl⟩
  | false =>
      obtain ⟨hTable, -, hOut, -⟩ := records_of_filter hCtx hChunks h
      exact ⟨hOut, hTable⟩

/-- A compaction that succeeds leaves a well formed table without a selection. -/
theorem WellFormed.of_materialize {chunkSize : Nat} (hCtx : ctx.WellFormed)
    (h : ctx.materialize chunkSize = .ok ctx') : ctx'.Settled := by
  cases hChunks : ctx.table.isChunkless with
  | true =>
      rw [materialize_of_isChunkless hCtx hChunks] at h
      rw [← Except.ok.inj h]
      exact ⟨hCtx.table_wellFormed, rfl⟩
  | false =>
      obtain ⟨-, t, rfl, hTable, -⟩ := compacted_of_materialize hCtx hChunks h
      exact settled_ofTable hTable

/-- Narrowing a settled context fails on a fault of the predicate or on a type that cannot be
compacted; the compaction always finds the selection of the filter below it. -/
theorem Settled.fault_of_narrow {chunkSize : Nat} {p : Predicate} (h : ctx.Settled)
    (hRun : ctx.narrow chunkSize p = .error e) : p.Fault e := by
  cases hChunks : ctx.table.isChunkless with
  | true =>
      rw [narrow_of_isChunkless h hChunks] at hRun
      cases hRun
  | false =>
      rcases Result.bind_eq_error_iff.mp hRun with hFilter | ⟨mid, hFilter, hMaterialize⟩
      · exact fault_of_filter h.wellFormed hFilter
      · obtain ⟨-, hPending, hMid, -⟩ := records_of_filter h.wellFormed hChunks hFilter
        obtain ⟨hNone, -⟩ | ⟨field, -, -, rfl⟩ := error_of_materialize hMid hMaterialize
        · -- The filter has left a selection for the compaction.
          rw [hNone] at hPending
          cases hPending
        · exact .type _

/-- A filter or a compaction that succeeds found a selection that fits. -/
theorem wellFormed_of_checkSelection (hTable : ctx.table.WellFormed) {α : Type}
    {rest : Unit → Result α} {a : α} (h : (ctx.checkSelection >>= rest) = .ok a) :
    ctx.WellFormed := by
  obtain ⟨_, hSelection, -⟩ := Result.bind_eq_ok_iff.mp h
  exact ⟨hTable, (checkSelection_eq_ok_iff ctx).mp hSelection⟩

theorem rowCount_of_project_nil (h : ctx.project [] = .ok ctx') : ctx'.table.rowCount = 0 := by
  obtain ⟨indices, hProjected⟩ := projected_of_project h
  have hNone : indices = [] := List.map_eq_nil_iff.mp hProjected.indices_eq.symm
  have hColumns : ctx'.table.columns = [] := by rw [hProjected.columns_eq, hNone]; rfl
  rw [Table.rowCount_eq, hColumns, sharedRows]

variable {settings : Settings} {step : Step}

/-- A step that succeeds leaves a well formed table, whether the selection fits or not. -/
theorem table_wellFormed_of_run (hTable : ctx.table.WellFormed)
    (h : step.run settings ctx = .ok ctx') : ctx'.table.WellFormed := by
  cases step with
  | project names =>
      obtain ⟨indices, hProjected⟩ := projected_of_project h
      exact hProjected.table_wellFormed hTable
  | filter p => exact ((wellFormed_of_checkSelection hTable h).of_filter h).1.table_wellFormed
  | materialize => exact ((wellFormed_of_checkSelection hTable h).of_materialize h).table_wellFormed

/-- A step keeps a context well formed when it leaves the rows of a pending selection. -/
theorem WellFormed.of_run (hCtx : ctx.WellFormed) (hKeeps : step.KeepsRows ctx)
    (h : step.run settings ctx = .ok ctx') : ctx'.WellFormed := by
  cases step with
  | filter p => exact (hCtx.of_filter h).1
  | materialize => exact (hCtx.of_materialize h).wellFormed
  | project names =>
      obtain ⟨indices, hProjected⟩ := projected_of_project h
      by_cases hNames : names = []
      · -- No columns, no rows: either there is no selection or it has no bit.
        subst hNames
        refine ⟨hProjected.table_wellFormed hCtx.table_wellFormed, fun b hb => ?_⟩
        rw [hProjected.selection_eq] at hb
        rcases hKeeps rfl with hNone | hRows
        · rw [hNone] at hb
          cases hb
        · rw [rowCount_of_project_nil h, hCtx.selection_fits b hb, hRows]
      · exact hProjected.wellFormed hCtx hNames

/-- On a well formed context no step reports sizes that do not fit. -/
theorem ne_runtime_of_run (hCtx : ctx.WellFormed) (settings : Settings) (step : Step)
    (reason : String) : step.run settings ctx ≠ .error (.runtime reason) := by
  intro h
  cases step with
  | project names =>
      obtain ⟨name, -, hError⟩ | ⟨name, -, hError⟩ := error_of_project h
      all_goals cases hError
  | filter p => cases fault_of_filter hCtx h
  | materialize =>
      obtain ⟨-, hError⟩ | ⟨field, -, -, hError⟩ := error_of_materialize hCtx h
      all_goals cases hError

end Context

end Columnar
