import Columnar.Error
import Columnar.Predicate.Columns
import Columnar.Scalar

/-!
# Row-at-a-time evaluation

The meaning of a predicate on one row.  It is the reference for the compiled
kernels: literals are converted, values that are not numbers are handled and nulls
reject a row exactly as they do there.
-/

namespace Columnar

/-- One row: the value of each column by name, `none` for a null. -/
abbrev Row := String → Result (Option Scalar)

/-- The row given by a list of cells; of two cells with one name the first counts. -/
def Row.ofCells (cells : List (String × Option Scalar)) : Row := fun name =>
  match cells.find? (·.1 == name) with
  | some (_, value) => .ok value
  | none => .error (.columnNotFound name)

/-- Why a value cannot be compared with a literal. -/
def Scalar.mismatch (s : Scalar) (l : Literal) : Error :=
  .invalidPredicate s!"cannot compare {s.text} with {l.typeName} literal {l.text}"

/-- The order of a decoded value and a literal.  A literal is rounded to the width of
the value; integers are compared exactly. -/
def Scalar.compareLiteral (s : Scalar) (l : Literal) : Result (Option Ordering) :=
  match s with
  | .signed v =>
      match l.toInt? with
      | some n => .ok (some (compare v n))
      | none => .error (s.mismatch l)
  | .unsigned v =>
      match l.toInt? with
      | some n => .ok (some (compare (v : Int) n))
      | none => .error (s.mismatch l)
  | .single v =>
      match l.toDouble? with
      | some d => .ok (v.compare? (d.convert .single))
      | none => .error (s.mismatch l)
  | .double v =>
      match l.toDouble? with
      | some d => .ok (v.compare? d)
      | none => .error (s.mismatch l)
  | .decimal _ => .error (.notImplemented "decimal comparisons")
  | .string _ => .error (.notImplemented "string comparisons")
  | .bool _ => .error (.notImplemented "boolean column comparisons")

/-- Whether a decoded value satisfies a comparison with a literal. -/
def Scalar.satisfies (s : Scalar) (op : Comparison) (l : Literal) : Result Bool := do
  return op.acceptsPartial (← s.compareLiteral l)

namespace Predicate

/-- Whether one of the named columns is null in the row. -/
def hasNull (row : Row) : List String → Result Bool
  | [] => .ok false
  | name :: rest => do
      match ← row name with
      | none => return true
      | some _ => hasNull row rest

/-- The answer of the tree.  Both sides of a combination are always evaluated. -/
def evaluateTree (row : Row) : Predicate → Result Bool
  | compare column op literal => do
      match ← row column with
      | some value => value.satisfies op literal
      | none => return false
  | constant value => .ok value
  | combine op lhs rhs => do
      let left ← lhs.evaluateTree row
      let right ← rhs.evaluateTree row
      return op.apply left right

/-- Whether the row satisfies the predicate.  A null in any compared column rejects
the row. -/
def evaluate (p : Predicate) (row : Row) : Result Bool := do
  if ← hasNull row p.columns then
    return false
  p.evaluateTree row

end Predicate

end Columnar
