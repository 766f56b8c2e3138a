import Columnar.Plan.Execution
import Columnar.Plan.Optimization

/-!
# Queries

A query records filters and projections over one table and runs them on demand.
Extending a query makes a new one and leaves the old one usable.
-/

namespace Columnar

/-- A table, the plan recorded over it and the settings it runs under. -/
structure Query where
  table : Table
  settings : Settings
  plan : Plan := []

namespace Query

/-- The query that reads a whole table. -/
def ofTable (table : Table) (settings : Settings) : Query := { table, settings }

/-- Keeps only the rows that satisfy a predicate. -/
def filter (q : Query) (p : Predicate) : Query :=
  { q with plan := .materialize :: .filter p :: q.plan }

/-- Keeps only the named columns, in the order given. -/
def project (q : Query) (names : List String) : Query :=
  { q with plan := .project names :: q.plan }

/-- The plan after the default passes. -/
def optimizedPlan (q : Query) : Plan :=
  q.plan.optimize Plan.defaultPasses

/-- Runs the query. -/
def execute (q : Query) : Result Table :=
  q.optimizedPlan.toTable q.settings q.table

end Query

end Columnar
