import Columnar.Bitmap.Reduction
import Columnar.Context
import Columnar.Kernel.Pass
import Columnar.Predicate.Evaluation

/-!
# Selecting rows

A predicate turns into a selection in one of three ways.  Without columns it is a
constant.  When no disjunction spans two columns, the whole predicate is run once for
each of its columns and the answers are combined by conjunction.  Otherwise the tree
is split into subtrees on single columns, whose answers are combined as the tree says.

Nulls in a compared column reject a row, whatever the predicate says about it, and an
earlier selection is only ever narrowed.
-/

namespace Columnar

namespace Table

/-- Row `i` of a table. -/
def row (t : Table) (i : Nat) : Row := fun name => do
  (← t.column name).scalarAt i

/-- The rows that satisfy what a predicate says about one column. -/
def selectField (t : Table) (p : Predicate) (name : String) : Result Bitmap := do
  let field ← t.schema.find name
  let column ← t.column name
  let program ← Program.ofPredicate field p
  program.run column (Bitmap.allSet t.rowCount)

/-- All rows or none, for a predicate without columns. -/
def selectConstant (t : Table) (p : Predicate) : Result Bitmap := do
  if ← p.evaluate (Row.ofCells []) then
    return Bitmap.allSet t.rowCount
  else
    return Bitmap.allClear t.rowCount

/-- The rows that satisfy a separable predicate: the conjunction over its columns. -/
def selectSeparable (t : Table) (p : Predicate) : Result Bitmap := do
  let answers ← p.columns.mapM (t.selectField p)
  match Bitmap.andReduce? answers with
  | some b => return b
  | none => throw (.unreachable "no bitmaps to reduce")

/-- The rows that satisfy any predicate: subtrees on one column are run as a whole,
and other combinations follow the tree. -/
def selectTree (t : Table) : Predicate → Result Bitmap
  | .compare column op literal => t.selectField (.compare column op literal) column
  | .constant value => t.selectConstant (.constant value)
  | .combine op lhs rhs =>
      match (Predicate.combine op lhs rhs).columns with
      | [] => t.selectConstant (.combine op lhs rhs)
      | [name] => t.selectField (.combine op lhs rhs) name
      | _ => do
          let left ← t.selectTree lhs
          let right ← t.selectTree rhs
          match op with
          | .and => return left.and right
          | .or => return left.or right

/-- Refuses a predicate that compares an unknown column, or a column with something
that it cannot be compared with. -/
def validate (t : Table) (p : Predicate) : Result Unit :=
  p.columns.forM fun name => do
    Condition.validate (← t.schema.find name) p

/-- The rows that satisfy a predicate, nulls left aside. -/
def selectValues (t : Table) (p : Predicate) : Result Bitmap :=
  if p.columns.isEmpty then t.selectConstant p
  else if p.isSeparable then t.selectSeparable p
  else t.selectTree p

/-- Rejects the rows that are null in one of the named columns. -/
def rejectNulls (t : Table) (names : List String) (b : Bitmap) : Result Bitmap :=
  names.foldlM
    (fun b name => do
      match (← t.column name).validityMask with
      | some mask => return b.and mask
      | none => return b)
    b

end Table

/-- Narrows the selection to the rows that satisfy a predicate.  A table without
chunks is left as it is. -/
def Context.filter (ctx : Context) (p : Predicate) : Result Context := do
  ctx.checkSelection
  if ctx.table.isChunkless then
    return ctx
  ctx.table.validate p
  let values ← ctx.table.selectValues p
  let b ← ctx.table.rejectNulls p.columns values
  match ctx.selection with
  | some existing => return ctx.select (b.and existing)
  | none => return ctx.select b

end Columnar
