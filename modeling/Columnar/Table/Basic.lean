import Columnar.Column
import Columnar.Schema

/-!
# Tables

A table pairs a schema with columns: as many columns as fields, each of its field's
type, all with the same number of rows, which is kept beside them.  The invariant is
part of the type, and `Table.make` is the check that establishes it.
-/

namespace Columnar

/-- The number of rows that a list of columns shares: that of the first one. -/
def sharedRows (columns : List Column) : Nat :=
  match columns with
  | [] => 0
  | c :: _ => c.length

/-- An immutable table. -/
structure Table where
  schema : Schema
  columns : List Column
  types_eq : columns.map Column.type = schema.fields.map Field.type
  /-- Number of rows; a table without columns has none. -/
  rowCount : Nat := sharedRows columns
  rowCount_eq : rowCount = sharedRows columns := by rfl
  rows_eq : ∀ c ∈ columns, c.length = rowCount
  deriving DecidableEq

namespace Table

/-- A table is its schema and its columns. -/
theorem eq_of_columns {t t' : Table} (hSchema : t.schema = t'.schema)
    (hColumns : t.columns = t'.columns) : t = t' := by
  have hRows : t.rowCount = t'.rowCount := by rw [t.rowCount_eq, t'.rowCount_eq, hColumns]
  cases t
  cases t'
  cases hSchema
  cases hColumns
  cases hRows
  rfl

/-- The first field whose column has another type. -/
def typeClash (fields : List Field) (columns : List Column) : Option (Field × Column) :=
  (fields.zip columns).find? fun (field, column) => decide (field.type ≠ column.type)

/-- The first field whose column has another number of rows than the first column. -/
def rowClash (fields : List Field) (columns : List Column) : Option (Field × Column) :=
  (fields.zip columns).find? fun (_, column) => decide (column.length ≠ sharedRows columns)

theorem types_eq_of_typeClash {fields : List Field} {columns : List Column}
    (hLength : fields.length = columns.length) (h : typeClash fields columns = none) :
    columns.map Column.type = fields.map Field.type := by
  apply List.ext_getElem
  · simp [hLength]
  · intro i hColumn hField
    simp only [List.length_map] at hColumn hField
    have hMem : (fields[i], columns[i]) ∈ fields.zip columns := by
      rw [← List.getElem_zip (i := i) (h := by simp; omega)]
      exact List.getElem_mem _
    have hSame := List.find?_eq_none.mp h _ hMem
    simpa using (by simpa using hSame : fields[i].type = columns[i].type).symm

theorem rows_eq_of_rowClash {fields : List Field} {columns : List Column}
    (hLength : fields.length = columns.length) (h : rowClash fields columns = none) :
    ∀ c ∈ columns, c.length = sharedRows columns := by
  intro c hc
  obtain ⟨i, hi, rfl⟩ := List.getElem_of_mem hc
  have hMem : (fields[i], columns[i]) ∈ fields.zip columns := by
    rw [← List.getElem_zip (i := i) (h := by simp; omega)]
    exact List.getElem_mem _
  simpa using List.find?_eq_none.mp h _ hMem

/-- A table of the given columns, refused when they do not fit the schema: by
their number, then by the first type, then by the first number of rows. -/
def make (schema : Schema) (columns : List Column) : Result Table :=
  if hLength : schema.fields.length = columns.length then
    match hTypes : typeClash schema.fields columns with
    | some (field, column) =>
        .error (.schema
          s!"field '{field.name}' is {field.type.name} but its column is {column.type.name}")
    | none =>
        match hRows : rowClash schema.fields columns with
        | some (field, column) =>
            .error (.schema
              s!"column '{field.name}' has {column.length} rows, expected {sharedRows columns}")
        | none =>
            .ok {
              schema
              columns
              types_eq := types_eq_of_typeClash hLength hTypes
              rows_eq := rows_eq_of_rowClash hLength hRows }
  else
    .error (.schema
      s!"schema has {schema.length} fields but {columns.length} columns were given")

/-- A table of named columns; every field is nullable. -/
def ofColumns (columns : List (String × Column)) : Result Table := do
  let schema ← Schema.ofFields (columns.map fun (name, c) => { name, type := c.type })
  make schema (columns.map Prod.snd)

/-- The table without columns. -/
def empty : Table where
  schema := Schema.empty
  columns := []
  types_eq := rfl
  rows_eq := by simp

/-- The column of a given name. -/
def column (t : Table) (name : String) : Result Column := do
  let i ← t.schema.locate name
  match t.columns[i]? with
  | some c => return c
  | none => throw (.columnNotFound name)

/-- The table has no column, or its first column has no chunk: there is nothing to
filter or to compact. -/
def isChunkless (t : Table) : Bool :=
  match t.columns with
  | [] => true
  | c :: _ => c.chunks.isEmpty

/-- The named columns in the order given. -/
def project (t : Table) (names : List String) : Result Table := do
  let (schema, indices) ← t.schema.project names
  make schema (indices.filterMap (t.columns[·]?))

/-- Every column is well formed. -/
def WellFormed (t : Table) : Prop :=
  ∀ column ∈ t.columns, column.WellFormed

end Table

end Columnar
