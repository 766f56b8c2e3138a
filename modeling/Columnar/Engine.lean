import Columnar.Checked
import Columnar.Query

/-!
# Working in a session

Filters compile their kernels in a session, which every step of every plan shares.  The
operations of this module thread the session through: a kernel is compiled for one column,
run over it and unloaded again, and what happened to the session stays when a step refuses.
Every access is checked on the way.

Kernels for several columns are compiled one after the other here.  Which of them takes which
number shows in the names of symbols that are gone when the filter is done.
-/

namespace Columnar

/-- An operation in a session, which may refuse. -/
abbrev InSession (α : Type) := ExceptT Error (StateM Session) α

namespace InSession

variable {α β : Type}

/-- Compiles a kernel, does something with it and unloads it, also when that was refused. -/
def withKernel (field : Field) (p : Predicate) (body : Kernel → Result α) : InSession α :=
  ExceptT.mk fun s =>
    match (Kernel.new field p).compile s with
    | (s, .error e) => (.error e, s)
    | (s, .ok k) => (body k, k.drop s)

/-- Does two things.  The second one is done even when the first was refused. -/
def both (x : InSession α) (y : InSession β) : InSession (α × β) :=
  ExceptT.mk do
    let left ← x.run
    let right ← y.run
    return do return (← left, ← right)

end InSession

namespace Table

/-- The rows that satisfy what a predicate says about one column. -/
def selectFieldIn (t : Table) (p : Predicate) (name : String) : InSession Bitmap := do
  let field ← t.schema.fieldNamed name
  let column ← t.columnNamed name
  InSession.withKernel field p fun k => k.runChecked column (Bitmap.allSet t.rowCount)

/-- The rows that satisfy a separable predicate: the conjunction over its columns. -/
def selectSeparableIn (t : Table) (p : Predicate) : InSession Bitmap := do
  let answers ← p.columns.mapM (t.selectFieldIn p)
  match ← Bitmap.andReduceChecked answers with
  | some b => return b
  | none => throw (.unreachable "no bitmaps to reduce")

/-- The rows that satisfy any predicate: subtrees on one column are run as a whole, and
other combinations follow the tree. -/
def selectTreeIn (t : Table) : Predicate → InSession Bitmap
  | .compare column op literal => t.selectFieldIn (.compare column op literal) column
  | .constant value => t.selectConstant (.constant value)
  | .combine op lhs rhs =>
      match (Predicate.combine op lhs rhs).columns with
      | [] => t.selectConstant (.combine op lhs rhs)
      | [name] => t.selectFieldIn (.combine op lhs rhs) name
      | _ => do
          let (left, right) ← (t.selectTreeIn lhs).both (t.selectTreeIn rhs)
          match op with
          | .and => return left.and right
          | .or => return left.or right

/-- The rows that satisfy a predicate, nulls left aside. -/
def selectValuesIn (t : Table) (p : Predicate) : InSession Bitmap :=
  if p.columns.isEmpty then t.selectConstant p
  else if p.isSeparable then t.selectSeparableIn p
  else t.selectTreeIn p

end Table

/-- Narrows the selection to the rows that satisfy a predicate.  A table without chunks is
left as it is. -/
def Context.filterIn (ctx : Context) (p : Predicate) : InSession Context := do
  ctx.checkSelection
  if ctx.table.isChunkless then
    return ctx
  ctx.table.validateChecked p
  let values ← ctx.table.selectValuesIn p
  let b ← ctx.table.rejectNullsChecked p.columns values
  match ctx.selection with
  | some existing => return ctx.select (b.and existing)
  | none => return ctx.select b

/-- Runs one step. -/
def Step.runIn (settings : Settings) (ctx : Context) : Step → InSession Context
  | project names => ctx.projectChecked names
  | filter p => ctx.filterIn p
  | materialize => ctx.materialize settings.chunkSize

namespace Plan

/-- The context that a plan makes of a table. -/
def executeIn (settings : Settings) (plan : Plan) (t : Table) : InSession Context :=
  plan.walk.foldlM (Step.runIn settings) (Context.ofTable t)

/-- The table that a plan makes of a table.  A selection that is still pending at the end is
compacted away. -/
def toTableIn (settings : Settings) (plan : Plan) (t : Table) : InSession Table := do
  let ctx ← plan.executeIn settings t
  match ctx.selection with
  | none => return ctx.table
  | some _ => return (← ctx.materialize settings.chunkSize).table

end Plan

/-- Runs the query. -/
def Query.executeIn (q : Query) : InSession Table :=
  q.optimizedPlan.toTableIn q.settings q.table

end Columnar
