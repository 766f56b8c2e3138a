import Columnar.Plan.Basic

/-!
# The normal form of a plan

Read from the table outwards, projections cut a plan into stretches of filters and
compactions.  In the normal form a stretch with filters is a single filter, whose
predicate is the conjunction of all of them nested to the left, followed by the
compactions that came after the last of them.  A stretch without filters stays as it is.
-/

namespace Columnar.Plan

/-- The conjunction of predicates, nested to the left. -/
def conjunction? : List Predicate → Option Predicate
  | [] => none
  | p :: rest => some (rest.foldl Predicate.and p)

/-- Number of compactions after the last filter of a stretch. -/
def trailingMaterializations (stretch : List Step) : Nat :=
  (stretch.reverse.takeWhile (· == .materialize)).length

/-- The normal form of a stretch without projections. -/
def mergeStretch (stretch : List Step) : List Step :=
  match conjunction? (stretch.filterMap Step.predicate?) with
  | none => stretch
  | some p => .filter p :: List.replicate (trailingMaterializations stretch) .materialize

/-- The normal form of the steps that follow the given beginning of a stretch. -/
def mergeAfter (stretch : List Step) : List Step → List Step
  | [] => mergeStretch stretch
  | .project names :: rest => mergeStretch stretch ++ .project names :: mergeAfter [] rest
  | .filter p :: rest => mergeAfter (stretch ++ [.filter p]) rest
  | .materialize :: rest => mergeAfter (stretch ++ [.materialize]) rest

/-- The normal form of a list of steps, given from the table outwards. -/
def merge (steps : List Step) : List Step :=
  mergeAfter [] steps

end Columnar.Plan
