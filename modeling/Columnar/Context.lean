import Columnar.Table.Basic

/-!
# Contexts

A context is a table together with the rows selected so far.  Steps of a plan pass
contexts on: filters narrow the selection, compactions act on it and drop it, and
projections keep it.
-/

namespace Columnar

/-- A table and a selection of its rows; without a selection every row counts. -/
structure Context where
  table : Table
  selection : Option Bitmap := none
  deriving DecidableEq

namespace Context

/-- Every row of a table. -/
def ofTable (t : Table) : Context := { table := t }

/-- The same selection over another table. -/
def withTable (ctx : Context) (t : Table) : Context := { ctx with table := t }

/-- Another selection over the same table. -/
def select (ctx : Context) (b : Bitmap) : Context := { ctx with selection := some b }

/-- Every row of the same table. -/
def selectAll (ctx : Context) : Context := { ctx with selection := none }

/-- Number of selected rows. -/
def selectedRows (ctx : Context) : Nat :=
  match ctx.selection with
  | none => ctx.table.rowCount
  | some b => b.count

/-- Refuses a selection that does not have one bit for each row. -/
def checkSelection (ctx : Context) : Result Unit :=
  match ctx.selection with
  | none => .ok ()
  | some b =>
      if b.length = ctx.table.rowCount then .ok ()
      else .error (.runtime
        s!"selection of {b.length} bits over a table of {ctx.table.rowCount} rows")

/-- A selection fits exactly when it has one bit for each row. -/
theorem checkSelection_eq_ok_iff (ctx : Context) :
    ctx.checkSelection = .ok () ↔
      ∀ b, ctx.selection = some b → b.length = ctx.table.rowCount := by
  cases hSelection : ctx.selection with
  | none => simp [checkSelection, hSelection]
  | some b =>
      by_cases hLength : b.length = ctx.table.rowCount
      · simp [checkSelection, hSelection, hLength]
      · simp [checkSelection, hSelection, hLength]

/-- Keeps the named columns, in the order given, and the selection. -/
def project (ctx : Context) (names : List String) : Result Context := do
  return ctx.withTable (← ctx.table.project names)

end Context

end Columnar
