import Mathlib.Data.List.Induction
import Columnar.Query
import Columnar.Proofs.Context.Materialize
import Columnar.Proofs.Context.Project
import Columnar.Proofs.Plan.Merging

/-!
# Recorded plans

A query compacts after every filter, so between two calls no selection is pending.  The
plan that the default passes make of it compacts once for a whole run of filters.  Both
plans make the same table, and one of them fails exactly when the other does: also where
filters and compactions do nothing, since the table has no chunks, and where a projection
names no columns.

* `Context.narrow_and` -- filtering and compacting twice is filtering by the conjunction
  and compacting once.
* `Plan.Recorded` -- the plans in which a filter always has a compaction on top.
* `Plan.Recorded.toTable_run_eq_ok_iff` -- such a plan and its rewriting make the same
  table.
-/

namespace Columnar

namespace Context

variable {ctx out : Context} {p q : Predicate} {chunkSize : Nat}

/-- The table is well formed, and no selection is pending. -/
structure Settled (ctx : Context) : Prop where
  table_wellFormed : ctx.table.WellFormed
  selection_eq_none : ctx.selection = none

theorem settled_ofTable {t : Table} (h : t.WellFormed) : (ofTable t).Settled := ⟨h, rfl⟩

theorem Settled.wellFormed (h : ctx.Settled) : ctx.WellFormed :=
  ⟨h.table_wellFormed, fun b hb => by
    rw [h.selection_eq_none] at hb
    exact absurd hb (by simp)⟩

theorem Settled.of_project {names : List String} (h : ctx.Settled)
    (hRun : ctx.project names = .ok out) : out.Settled := by
  obtain ⟨indices, hProjected⟩ := projected_of_project hRun
  refine ⟨hProjected.table_wellFormed h.table_wellFormed, ?_⟩
  rw [hProjected.selection_eq, h.selection_eq_none]

/-- A filter with the compaction on top of it. -/
def narrow (chunkSize : Nat) (p : Predicate) (ctx : Context) : Result Context :=
  ctx.filter p >>= fun mid => mid.materialize chunkSize

/-- A table without chunks is left as it is, whatever the predicate. -/
theorem narrow_of_isChunkless (h : ctx.Settled) (hChunks : ctx.table.isChunkless = true)
    (chunkSize : Nat) (p : Predicate) : ctx.narrow chunkSize p = .ok ctx := by
  rw [narrow, filter_of_isChunkless h.wellFormed hChunks, Result.ok_bind,
    materialize_of_isChunkless h.wellFormed hChunks, selectAll, ← h.selection_eq_none]

/-- What narrowing a table with chunks does: a filter that leaves a selection pending, and
its compaction. -/
structure Narrowed (chunkSize : Nat) (p : Predicate) (ctx mid out : Context) : Prop where
  filter_eq : ctx.filter p = .ok mid
  materialize_eq : mid.materialize chunkSize = .ok out
  mid_wellFormed : mid.WellFormed
  mid_isChunkless : mid.table.isChunkless = false
  mid_pending : mid.selection.isSome = true
  mid_table : mid.table = ctx.table
  isFixedWidth : ∀ field ∈ ctx.table.schema.fields, field.type.isFixedWidth = true
  settled : out.Settled
  isChunkless : out.table.isChunkless = false
  alike : out.Alike mid

theorem narrowed_of_narrow (h : ctx.Settled) (hChunks : ctx.table.isChunkless = false)
    (hRun : ctx.narrow chunkSize p = .ok out) :
    ∃ mid, Narrowed chunkSize p ctx mid out := by
  obtain ⟨mid, hFilter, hMaterialize⟩ := Result.bind_eq_ok_iff.mp hRun
  obtain ⟨hTable, hPending, hMid, -⟩ := records_of_filter h.wellFormed hChunks hFilter
  have hMidChunks : mid.table.isChunkless = false := by rw [hTable]; exact hChunks
  have hFixed := isFixedWidth_of_materialize hMid hMidChunks hPending hMaterialize
  obtain ⟨-, t, rfl, hWellFormed, hChunk, hAlike⟩ :=
    compacted_of_materialize hMid hMidChunks hMaterialize
  have hColumns : t.columns ≠ [] := fun hNil => by
    have hNone := columns_eq_nil_of_schema_eq hAlike.schema_eq hNil
    rw [Table.isChunkless_of_columns_nil hNone] at hMidChunks
    exact absurd hMidChunks (by simp)
  rw [hTable] at hFixed
  exact ⟨mid, hFilter, hMaterialize, hMid, hMidChunks, hPending, hTable, hFixed,
    settled_ofTable hWellFormed, Table.isChunkless_eq_false hColumns hChunk, hAlike⟩

/-- Which tables with chunks can be narrowed depends on the schema only. -/
theorem exists_narrow_iff (h : ctx.Settled) (hChunks : ctx.table.isChunkless = false)
    (chunkSize : Nat) (p : Predicate) :
    (∃ out, ctx.narrow chunkSize p = .ok out) ↔
      ctx.table.schema.Admits p ∧
        ∀ field ∈ ctx.table.schema.fields, field.type.isFixedWidth = true := by
  constructor
  · rintro ⟨out, hRun⟩
    obtain ⟨mid, hNarrowed⟩ := narrowed_of_narrow h hChunks hRun
    exact ⟨admits_of_filter hChunks hNarrowed.filter_eq, hNarrowed.isFixedWidth⟩
  · rintro ⟨hAdmits, hFixed⟩
    obtain ⟨bits, hFilter, -, -⟩ := filter_of_admits h.wellFormed hChunks hAdmits
    obtain ⟨-, hPending, hMid, -⟩ := records_of_filter h.wellFormed hChunks hFilter
    obtain ⟨t, hMaterialize, -⟩ := materialize_ok hMid hChunks hPending hFixed chunkSize
    exact ⟨ofTable t, by rw [narrow, hFilter, Result.ok_bind, hMaterialize]⟩

/-- Narrowing a table keeps its schema. -/
theorem Narrowed.schema_eq {mid : Context} (h : Narrowed chunkSize p ctx mid out) :
    out.table.schema = ctx.table.schema := by
  rw [h.alike.schema_eq, h.mid_table]

/-- Narrowing leaves no selection pending. -/
theorem Settled.of_narrow (h : ctx.Settled) (hRun : ctx.narrow chunkSize p = .ok out) :
    out.Settled := by
  cases hChunks : ctx.table.isChunkless with
  | true =>
      rw [narrow_of_isChunkless h hChunks] at hRun
      rwa [← Except.ok.inj hRun]
  | false =>
      obtain ⟨mid, hNarrowed⟩ := narrowed_of_narrow h hChunks hRun
      exact hNarrowed.settled

/-- What two narrowings leave, the conjunction leaves at once. -/
theorem narrow_and_of_narrow_narrow {first : Context} (h : ctx.Settled)
    (hChunks : ctx.table.isChunkless = false) (hFirst : ctx.narrow chunkSize q = .ok first)
    (hSecond : first.narrow chunkSize p = .ok out) :
    ctx.narrow chunkSize (q.and p) = .ok out := by
  obtain ⟨mid, hMid⟩ := narrowed_of_narrow h hChunks hFirst
  obtain ⟨last, hLast⟩ := narrowed_of_narrow hMid.settled hMid.isChunkless hSecond
  -- The second filter selects the same records before the first compaction and after it.
  obtain ⟨pending, hPending, hSame⟩ := hMid.alike.filter hMid.settled.wellFormed
    hMid.mid_wellFormed hMid.isChunkless hMid.mid_isChunkless hLast.filter_eq
  obtain ⟨joined, hJoined, hJoinedSame⟩ :=
    filter_and_of_filter_filter h.wellFormed hChunks hMid.filter_eq hPending
  obtain ⟨hTable, hJoinedPending, hJoinedWellFormed, -⟩ :=
    records_of_filter h.wellFormed hChunks hJoined
  have hAlike : joined.Alike last := hJoinedSame.trans hSame.symm
  rw [narrow, hJoined, Result.ok_bind, hAlike.materialize_eq hJoinedWellFormed
    hLast.mid_wellFormed (by rw [hTable]; exact hChunks) hLast.mid_isChunkless hJoinedPending
    hLast.mid_pending]
  exact hLast.materialize_eq

/-- Filtering and compacting twice is filtering by the conjunction and compacting once. -/
theorem narrow_and (h : ctx.Settled) :
    ctx.narrow chunkSize (q.and p) = .ok out ↔
      (ctx.narrow chunkSize q >>= narrow chunkSize p) = .ok out := by
  cases hChunks : ctx.table.isChunkless with
  | true =>
      rw [narrow_of_isChunkless h hChunks, narrow_of_isChunkless h hChunks, Result.ok_bind,
        narrow_of_isChunkless h hChunks]
  | false =>
      constructor
      · -- That the conjunction can be narrowed says the same of its parts, as the schema
        -- stays; the other direction then gives the result.
        intro hBoth
        obtain ⟨hAdmits, hFixed⟩ :=
          (exists_narrow_iff h hChunks chunkSize (q.and p)).mp ⟨out, hBoth⟩
        obtain ⟨hq, hp⟩ := (Schema.admits_combine_iff _ _ _ _).mp hAdmits
        obtain ⟨first, hFirst⟩ := (exists_narrow_iff h hChunks chunkSize q).mpr ⟨hq, hFixed⟩
        obtain ⟨mid, hMid⟩ := narrowed_of_narrow h hChunks hFirst
        rw [← hMid.schema_eq] at hp hFixed
        obtain ⟨last, hLast⟩ :=
          (exists_narrow_iff hMid.settled hMid.isChunkless chunkSize p).mpr ⟨hp, hFixed⟩
        have hJoined := narrow_and_of_narrow_narrow h hChunks hFirst hLast
        rw [hBoth] at hJoined
        rw [hFirst, Result.ok_bind, hLast, Except.ok.inj hJoined]
      · intro hTwice
        obtain ⟨first, hFirst, hSecond⟩ := Result.bind_eq_ok_iff.mp hTwice
        exact narrow_and_of_narrow_narrow h hChunks hFirst hSecond

end Context

namespace Plan

variable {settings : Settings} {plan : Plan} {t : Table} {ctx : Context} {made : Table}

/-- The plans that queries record: every filter has a compaction on top of it. -/
inductive Recorded : Plan → Prop where
  | nil : Recorded []
  | narrow (p : Predicate) {input : Plan} (h : Recorded input) :
      Recorded (.materialize :: .filter p :: input)
  | project (names : List String) {input : Plan} (h : Recorded input) :
      Recorded (.project names :: input)

/-- A filter with the compaction on top of it narrows what the steps below left. -/
theorem execute_narrow (settings : Settings) (p : Predicate) (input : Plan) (t : Table) :
    execute settings (.materialize :: .filter p :: input) t =
      (execute settings input t >>= Context.narrow settings.chunkSize p) := by
  rw [execute_cons, execute_cons, bind_assoc]
  rfl

namespace Recorded

/-- A recorded plan leaves no selection pending. -/
theorem settled (h : Recorded plan) (hTable : t.WellFormed)
    (hRun : execute settings plan t = .ok ctx) : ctx.Settled := by
  induction h generalizing ctx with
  | nil =>
      obtain rfl := Except.ok.inj hRun
      exact Context.settled_ofTable hTable
  | narrow p _ ih =>
      rw [execute_narrow] at hRun
      obtain ⟨below, hBelow, hNarrow⟩ := Result.bind_eq_ok_iff.mp hRun
      exact (ih hBelow).of_narrow hNarrow
  | project names _ ih =>
      obtain ⟨below, hBelow, hProject⟩ := execute_cons_eq_ok_iff.mp hRun
      exact (ih hBelow).of_project hProject

/-- The table of a recorded plan is the table of the context that it ends in. -/
theorem toTable_eq_ok_iff (h : Recorded plan) (hTable : t.WellFormed) :
    toTable settings plan t = .ok made ↔
      ∃ ctx, execute settings plan t = .ok ctx ∧ ctx.table = made := by
  rw [toTable, Result.bind_eq_ok_iff]
  refine exists_congr fun ctx => and_congr_right fun hRun => ?_
  rw [(h.settled hTable hRun).selection_eq_none]
  exact ⟨Except.ok.inj, congrArg Except.ok⟩

/-- The pass keeps a recorded plan recorded. -/
theorem joinFilter (h : Recorded plan) (p : Predicate) :
    Recorded (.materialize :: plan.joinFilter p) := by
  cases h with
  | nil => exact narrow p nil
  | narrow q hInput => exact narrow (q.and p) hInput
  | project names hInput => exact narrow p (project names hInput)

theorem run (h : Recorded plan) : Recorded (Pass.joinFilters.run plan) := by
  induction h with
  | nil => exact nil
  | narrow p _ ih => exact ih.joinFilter p
  | project names _ ih => exact project names ih

/-- Below a compaction, a filter put on a plan by the pass does what it does on top. -/
theorem execute_joinFilter_eq_ok_iff (h : Recorded plan) (hTable : t.WellFormed)
    (p : Predicate) :
    execute settings (.materialize :: plan.joinFilter p) t = .ok ctx ↔
      execute settings (.materialize :: .filter p :: plan) t = .ok ctx := by
  cases h with
  | nil => rfl
  | project names hInput => rfl
  | @narrow q input hInput =>
      -- The compaction below is passed, and the filter under it takes the predicate in.
      show execute settings (.materialize :: .filter (q.and p) :: input) t = .ok ctx ↔ _
      rw [execute_narrow, execute_narrow, execute_narrow, bind_assoc, Result.bind_eq_ok_iff,
        Result.bind_eq_ok_iff]
      refine exists_congr fun below => and_congr_right fun hBelow => ?_
      exact Context.narrow_and (hInput.settled hTable hBelow)

/-- A recorded plan and its rewriting end in the same context. -/
theorem execute_run_eq_ok_iff (h : Recorded plan) (hTable : t.WellFormed) :
    execute settings (Pass.joinFilters.run plan) t = .ok ctx ↔
      execute settings plan t = .ok ctx := by
  induction h generalizing ctx with
  | nil => rfl
  | @narrow p input hInput ih =>
      show execute settings (.materialize :: (Pass.joinFilters.run input).joinFilter p) t =
        .ok ctx ↔ _
      rw [hInput.run.execute_joinFilter_eq_ok_iff hTable, execute_narrow, execute_narrow,
        Result.bind_eq_ok_iff, Result.bind_eq_ok_iff]
      simp only [ih]
  | @project names input hInput ih =>
      show execute settings (.project names :: Pass.joinFilters.run input) t = .ok ctx ↔ _
      rw [execute_cons_eq_ok_iff, execute_cons_eq_ok_iff]
      simp only [ih]

/-- A recorded plan and its rewriting make the same table. -/
theorem toTable_run_eq_ok_iff (h : Recorded plan) (hTable : t.WellFormed) :
    toTable settings (Pass.joinFilters.run plan) t = .ok made ↔
      toTable settings plan t = .ok made := by
  rw [h.run.toTable_eq_ok_iff hTable, h.toTable_eq_ok_iff hTable]
  simp only [h.execute_run_eq_ok_iff hTable]

end Recorded

end Plan

/-- One call on a query. -/
inductive Call where
  | filter (p : Predicate)
  | project (names : List String)

namespace Query

/-- Makes one call. -/
def call (q : Query) : Call → Query
  | .filter p => q.filter p
  | .project names => q.project names

/-- The query that calls record over a table, the first call first. -/
def record (t : Table) (settings : Settings) (calls : List Call) : Query :=
  calls.foldl call (ofTable t settings)

variable {t : Table} {settings : Settings}

theorem record_append (t : Table) (settings : Settings) (calls : List Call) (c : Call) :
    record t settings (calls ++ [c]) = (record t settings calls).call c := by
  simp [record]

/-- Calls leave the table and the settings alone and record a plan. -/
theorem recorded_record (t : Table) (settings : Settings) (calls : List Call) :
    (record t settings calls).table = t ∧ (record t settings calls).settings = settings ∧
      (record t settings calls).plan.Recorded := by
  induction calls using List.reverseRecOn with
  | nil => exact ⟨rfl, rfl, .nil⟩
  | append_singleton calls c ih =>
      obtain ⟨hTable, hSettings, hPlan⟩ := ih
      rw [record_append]
      cases c with
      | filter p => exact ⟨hTable, hSettings, .narrow p hPlan⟩
      | project names => exact ⟨hTable, hSettings, .project names hPlan⟩

/-- Whatever is called on a query over a well formed table, its plan and the plan after
the default passes make the same table, or both make none. -/
theorem toTable_plan_iff_optimizedPlan (hTable : t.WellFormed) (calls : List Call)
    (made : Table) :
    (record t settings calls).plan.toTable settings t = .ok made ↔
      (record t settings calls).optimizedPlan.toTable settings t = .ok made := by
  obtain ⟨-, -, hPlan⟩ := recorded_record t settings calls
  exact (hPlan.toTable_run_eq_ok_iff hTable).symm

/-- Two filters with a projection on top. -/
def sampleCalls : List Call :=
  [.filter (.compare "id" .ge (.integer 3)), .filter (.compare "score" .lt (.integer 50)),
    .project ["score"]]

/-- Both plans of the sample calls make the same table. -/
theorem toTable_plan_iff_optimizedPlan_sample :
    Table.sample.WellFormed ∧
      (record .sample {} sampleCalls).plan.toTable {} .sample = .ok .sampleScores ∧
      (record .sample {} sampleCalls).optimizedPlan.toTable {} .sample = .ok .sampleScores :=
  have hPlan : (record .sample {} sampleCalls).plan.toTable {} .sample = .ok .sampleScores := by
    decide +kernel
  ⟨Table.wellFormed_sample, hPlan,
    (toTable_plan_iff_optimizedPlan Table.wellFormed_sample sampleCalls .sampleScores).mp hPlan⟩

end Query

end Columnar
