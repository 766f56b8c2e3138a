import Columnar.Compaction
import Columnar.Plan.Basic
import Columnar.Selection
import Columnar.Settings

/-!
# Running plans

The steps of a plan are run from the table outwards, each on the context that the one
before it left.  The first step that refuses ends the run.
-/

namespace Columnar

/-- Runs one step. -/
def Step.run (settings : Settings) (ctx : Context) : Step → Result Context
  | project names => ctx.project names
  | filter p => ctx.filter p
  | materialize => ctx.materialize settings.chunkSize

namespace Plan

/-- The context that a plan makes of a table. -/
def execute (settings : Settings) (plan : Plan) (t : Table) : Result Context :=
  plan.walk.foldlM (Step.run settings) (Context.ofTable t)

/-- The table that a plan makes of a table.  A selection that is still pending at the
end is compacted away. -/
def toTable (settings : Settings) (plan : Plan) (t : Table) : Result Table := do
  let ctx ← plan.execute settings t
  match ctx.selection with
  | none => return ctx.table
  | some _ => return (← ctx.materialize settings.chunkSize).table

@[simp]
theorem execute_nil (settings : Settings) (t : Table) :
    execute settings [] t = .ok (Context.ofTable t) := rfl

/-- The outermost step runs on what the steps below it left. -/
theorem execute_cons (settings : Settings) (step : Step) (input : Plan) (t : Table) :
    execute settings (step :: input) t =
      (execute settings input t >>= fun ctx => step.run settings ctx) := by
  simp [execute]

end Plan

end Columnar
