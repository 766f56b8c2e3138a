import Columnar.Error
import Columnar.Plan.Basic

/-!
# Optimizing plans

A pass rebuilds a plan from the table outwards, handing every step the plan rebuilt
below it.  The pass that joins filters fuses a filter with the filter below it, and
drops compactions that stand between the two: a filter on a compacted table selects
the same rows as the conjunction on the uncompacted one.
-/

namespace Columnar

/-- A way to rebuild a plan. -/
inductive Pass where
  /-- Rebuilds every step unchanged. -/
  | identity
  /-- Fuses filters that only compactions separate. -/
  | joinFilters
  deriving DecidableEq

namespace Plan

/-- Puts a filter on a plan, fused with the filter that only compactions separate from
it. -/
def joinFilter (p : Predicate) : Plan → Plan
  | .filter q :: input => .filter (q.and p) :: input
  | .materialize :: input => joinFilter p input
  | .project names :: input => .filter p :: .project names :: input
  | [] => [.filter p]

/-- Whatever the plan, a filter is put on top. -/
theorem exists_joinFilter (p : Predicate) (plan : Plan) :
    ∃ q below, joinFilter p plan = .filter q :: below := by
  induction plan with
  | nil => exact ⟨p, [], rfl⟩
  | cons step input ih =>
      cases step with
      | project names => exact ⟨p, .project names :: input, rfl⟩
      | filter q => exact ⟨q.and p, input, rfl⟩
      | materialize => exact ih

end Plan

namespace Pass

/-- The name of a pass. -/
def name : Pass → String
  | identity => "identity"
  | joinFilters => "join_filter"

/-- Puts one step on the plan rebuilt below it. -/
def rebuild : Pass → Step → Plan → Plan
  | joinFilters, .filter p, input => Plan.joinFilter p input
  | _, step, input => step :: input

/-- Rebuilds a plan from the table outwards. -/
def run (pass : Pass) (plan : Plan) : Plan :=
  plan.foldr pass.rebuild []

/-- Rebuilds a plan in the order of the walk; a pass that ends without a plan is reported. -/
def runChecked (pass : Pass) (plan : Plan) : Result Plan := do
  let rebuilt ← plan.walk.foldlM (fun input step => return pass.rebuild step input) []
  if rebuilt.isEmpty then
    throw (.unreachable s!"optimizer pass '{pass.name}' produced no plan")
  return rebuilt

@[simp]
theorem run_nil (pass : Pass) : pass.run [] = [] := rfl

@[simp]
theorem run_cons (pass : Pass) (step : Step) (input : Plan) :
    pass.run (step :: input) = pass.rebuild step (pass.run input) := rfl

end Pass

namespace Plan

/-- The passes that queries run. -/
def defaultPasses : List Pass := [.joinFilters]

/-- Runs passes one after the other. -/
def optimize (passes : List Pass) (plan : Plan) : Plan :=
  passes.foldl (fun plan pass => pass.run plan) plan

/-- Runs passes one after the other, up to the first one that ends without a plan. -/
def optimizeChecked (passes : List Pass) (plan : Plan) : Result Plan :=
  passes.foldlM (fun plan pass => pass.runChecked plan) plan

end Plan

@[simp]
theorem Pass.run_identity (plan : Plan) : Pass.identity.run plan = plan := by
  induction plan with
  | nil => rfl
  | cons step input ih =>
      rw [Pass.run_cons, ih]
      cases step <;> rfl

end Columnar
