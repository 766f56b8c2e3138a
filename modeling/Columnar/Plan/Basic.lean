import Columnar.Predicate.Basic

/-!
# Plans

A plan is a chain of steps over a base table.  The list starts with the outermost
step, whose input is the rest of the list; the empty plan reads the table as it is.
-/

namespace Columnar

/-- One step of a plan. -/
inductive Step where
  /-- Keep the named columns. -/
  | project (names : List String)
  /-- Narrow the selection. -/
  | filter (predicate : Predicate)
  /-- Compact the table to the selected rows. -/
  | materialize
  deriving DecidableEq

namespace Step

/-- The name of the kind of step. -/
def name : Step → String
  | project _ => "Projection"
  | filter _ => "Filter"
  | materialize => "MaterializeFilter"

/-- The text of a step. -/
def text : Step → String
  | project names => "Projection: [" ++ ", ".intercalate names ++ "]"
  | filter predicate => "Filter: " ++ predicate.text
  | materialize => "MaterializeFilter"

/-- Equality of steps, with literals compared as values. -/
def equal : Step → Step → Bool
  | project names, project names' => names == names'
  | filter p, filter q => p.equal q
  | materialize, materialize => true
  | _, _ => false

/-- The predicate of a filter. -/
def predicate? : Step → Option Predicate
  | filter p => some p
  | _ => none

end Step

/-- A chain of steps, the outermost one first. -/
abbrev Plan := List Step

namespace Plan

/-- The plan whose steps are given from the table outwards. -/
def ofScan (steps : List Step) : Plan := steps.reverse

/-- The steps from the table outwards, in the order in which they are run. -/
def walk (plan : Plan) : List Step := plan.reverse

@[simp]
theorem walk_ofScan (steps : List Step) : (ofScan steps).walk = steps := by
  simp [walk, ofScan]

@[simp]
theorem walk_cons (step : Step) (input : Plan) :
    walk (step :: input) = walk input ++ [step] := by
  simp [walk]

/-- Lines that go one level deeper each, down to the table. -/
def lines (depth : Nat) : Plan → List String
  | [] => [indent depth "TableScan"]
  | step :: input => indent depth step.text :: lines (depth + 1) input
where
  indent (depth : Nat) (line : String) : String :=
    String.ofList (List.replicate (2 * depth) ' ') ++ line

/-- The text of a plan. -/
def text (plan : Plan) : String :=
  "\n".intercalate (plan.lines 0)

/-- Equality of plans, with literals compared as values. -/
def equal : Plan → Plan → Bool
  | [], [] => true
  | s :: rest, s' :: rest' => s.equal s' && equal rest rest'
  | _, _ => false

end Plan

end Columnar
