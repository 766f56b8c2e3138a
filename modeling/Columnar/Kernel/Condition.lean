import Columnar.Kernel.Test
import Columnar.Predicate.Relevance
import Columnar.Schema

/-!
# Conditions on the words of one column

A predicate over a whole table is lowered for one of its columns.  What it says
about other columns must not reject a word, so a comparison on another column, or a
combination that compares other columns only, is replaced by the neutral constant
of the combination around it; around the whole predicate that is a conjunction.
-/

namespace Columnar

/-- A predicate lowered for the words of one column. -/
inductive Condition where
  | constant (value : Bool)
  | test (test : Test)
  | combine (op : Connective) (lhs rhs : Condition)

namespace Condition

/-- Whether a stored word satisfies the condition. -/
def holds : Condition → Nat → Bool
  | constant value, _ => value
  | test t, w => t.holds w
  | combine op lhs rhs, w => op.apply (lhs.holds w) (rhs.holds w)

/-- The condition of a subtree inside a combination under `enclosing`.  The leftmost
comparison on the column whose literal does not fit is refused. -/
def lower (field : Field) (lane : Lane) (enclosing : Connective) :
    Predicate → Result Condition
  | .compare column op literal =>
      if column = field.name then
        match lane.test? op literal with
        | some t => .ok (test t)
        | none => .error (.invalidPredicate
            s!"cannot compare {field.type.name} column with {literal.typeName} literal {literal.text}")
      else .ok (constant enclosing.neutral)
  | .constant value => .ok (constant value)
  | .combine op lhs rhs =>
      if (Predicate.combine op lhs rhs).relevance field.name = .foreign then
        .ok (constant enclosing.neutral)
      else do
        let left ← lower field lane op lhs
        let right ← lower field lane op rhs
        return combine op left right

/-- The condition of a predicate on the words of a field. -/
def ofPredicate (field : Field) (p : Predicate) : Result Condition :=
  match field.type.lane? with
  | some lane => lower field lane .and p
  | none => .error (.notImplemented s!"filter kernels for {field.type.name} columns")

/-- Refuses the predicates that cannot be lowered for a field. -/
def validate (field : Field) (p : Predicate) : Result Unit := do
  let _ ← ofPredicate field p
  return ()

end Condition

end Columnar
