import Columnar.Predicate.Columns

/-!
# Restricting a predicate to one column

`Predicate.restrict` keeps of a predicate what concerns one column.  Comparisons on
other columns are deleted, and so is every combination that compares other columns
only, its constants included.  A combination left with one operand becomes that
operand, and a combination of constants alone is kept.  Nothing may be left at all,
and a predicate without conditions is true.
-/

namespace Columnar

namespace Predicate

/-- Whether a predicate compares other columns and not the given one. -/
def isForeign (name : String) (p : Predicate) : Bool :=
  !p.mentions name && p.columns.any (· != name)

/-- What is left of a predicate when only one column counts; `none` when nothing is. -/
def restrict? (name : String) : Predicate → Option Predicate
  | compare column op literal =>
      if column = name then some (compare column op literal) else none
  | constant value => some (constant value)
  | combine op lhs rhs =>
      if (combine op lhs rhs).isForeign name then none
      else
        match lhs.restrict? name, rhs.restrict? name with
        | some left, some right => some (combine op left right)
        | some left, none => some left
        | none, some right => some right
        | none, none => none

/-- The conditions of a predicate on one column. -/
def restrict (name : String) (p : Predicate) : Predicate :=
  (p.restrict? name).getD (constant true)

end Predicate

end Columnar
