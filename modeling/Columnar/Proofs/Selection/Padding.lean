import Columnar.Proofs.Column.Padding
import Columnar.Proofs.Selection.Values

/-!
# Padding in a selection

Selecting rows reads the elements of a table and, for the rejection of nulls, its validity.  None
of it depends on padding, so a table selects the rows that the trimmed one selects, and it
refuses what the trimmed one refuses.

* `Table.Agrees` -- tables that are equal except for padding.
* `Table.selectValues_trim`, `Table.rejectNulls_trim` -- selecting rows and rejecting nulls.
-/

namespace Columnar.Table

variable {t t' : Table} {p : Predicate} {b : Bitmap}

/-- Two tables are equal except for the padding of their validity. -/
structure Agrees (t t' : Table) : Prop where
  schema_eq : t.schema = t'.schema
  columns : List.Forall₂ Column.Agrees t.columns t'.columns

theorem sharedRows_trim (columns : List Column) :
    sharedRows (columns.map Column.trim) = sharedRows columns := by
  cases columns with
  | nil => rfl
  | cons c rest => exact c.length_trim

/-- The same columns, with clear padding. -/
def trim (t : Table) : Table where
  schema := t.schema
  columns := t.columns.map Column.trim
  types_eq := by
    rw [List.map_map]
    exact t.types_eq
  rows_eq := by
    refine List.forall_mem_map.mpr fun c hMem => ?_
    rw [Column.length_trim, sharedRows_trim, ← t.rowCount_eq]
    exact t.rows_eq c hMem

theorem Agrees.trim_eq (h : t.Agrees t') : t.trim = t'.trim := by
  have hColumns : t.columns.map Column.trim = t'.columns.map Column.trim := by
    rw [← List.forall₂_eq_eq_eq, List.forall₂_map_left_iff, List.forall₂_map_right_iff]
    exact h.columns.imp fun _ _ hColumn => hColumn.trim_eq
  exact eq_of_columns h.schema_eq hColumns

theorem agrees_refl (t : Table) : t.Agrees t :=
  ⟨rfl, List.forall₂_same.mpr fun c _ => c.agrees_refl⟩

theorem agrees_trim (t : Table) : t.Agrees t.trim :=
  ⟨rfl, List.forall₂_map_right_iff.mpr (List.forall₂_same.mpr fun c _ => c.agrees_trim)⟩

@[simp]
theorem schema_trim (t : Table) : t.trim.schema = t.schema := rfl

@[simp]
theorem columns_trim (t : Table) : t.trim.columns = t.columns.map Column.trim := rfl

@[simp]
theorem rowCount_trim (t : Table) : t.trim.rowCount = t.rowCount := by
  rw [t.trim.rowCount_eq, t.rowCount_eq]
  exact sharedRows_trim t.columns

@[simp]
theorem isChunkless_trim (t : Table) : t.trim.isChunkless = t.isChunkless := by
  unfold isChunkless
  rw [columns_trim]
  cases t.columns with
  | nil => rfl
  | cons c rest => exact List.isEmpty_map

theorem column_trim (t : Table) (name : String) :
    t.trim.column name = t.column name >>= fun c => .ok c.trim := by
  unfold column
  rw [schema_trim, columns_trim]
  cases t.schema.locate name with
  | error e => rfl
  | ok i =>
      simp only [Result.ok_bind, List.getElem?_map]
      cases t.columns[i]? <;> rfl

theorem selectField_trim (t : Table) (p : Predicate) (name : String) :
    t.trim.selectField p name = t.selectField p name := by
  unfold selectField
  rw [column_trim, schema_trim, rowCount_trim]
  cases t.schema.find name with
  | error e => rfl
  | ok field =>
      cases t.column name with
      | error e => rfl
      | ok c =>
          simp only [Result.ok_bind, Program.run_trim]

theorem selectConstant_trim (t : Table) (p : Predicate) :
    t.trim.selectConstant p = t.selectConstant p := by
  rw [selectConstant, selectConstant, rowCount_trim]

theorem selectSeparable_trim (t : Table) (p : Predicate) :
    t.trim.selectSeparable p = t.selectSeparable p := by
  rw [selectSeparable, selectSeparable, funext (t.selectField_trim p)]

theorem selectTree_trim (t : Table) (p : Predicate) :
    t.trim.selectTree p = t.selectTree p := by
  induction p with
  | compare column op literal => exact t.selectField_trim ..
  | constant value => exact t.selectConstant_trim _
  | combine op lhs rhs ihLeft ihRight =>
      simp only [selectTree, selectConstant_trim, selectField_trim, ihLeft, ihRight]

/-- The rows that satisfy a predicate do not depend on padding. -/
theorem selectValues_trim (t : Table) (p : Predicate) :
    t.trim.selectValues p = t.selectValues p := by
  rw [selectValues, selectValues, selectConstant_trim, selectSeparable_trim, selectTree_trim]

/-- The rows that are rejected for their nulls do not depend on padding. -/
theorem rejectNulls_trim (hSound : ∀ c ∈ t.columns, ∀ chunk ∈ c.chunks, chunk.Sound)
    (names : List String) (b : Bitmap) :
    t.trim.rejectNulls names b = t.rejectNulls names b := by
  refine Result.foldlM_congr (fun b name _ => ?_) b
  rw [column_trim]
  cases hColumn : t.column name with
  | error e => rfl
  | ok c =>
      simp only [Result.ok_bind, Column.validityMask_trim (hSound c (mem_of_column hColumn))]

theorem length_of_rejectNulls {names : List String} {values : Bitmap}
    (h : t.rejectNulls names values = .ok b) : b.length = values.length := by
  refine Result.foldlM_eq_ok_induction (fun b => b.length = values.length)
    (fun b name _ b' hBefore hStep => ?_) rfl h
  obtain ⟨c, -, hStep⟩ := Result.bind_eq_ok_iff.mp hStep
  cases hMask : c.validityMask with
  | none =>
      rw [hMask] at hStep
      rwa [← Except.ok.inj hStep]
  | some mask =>
      rw [hMask] at hStep
      rwa [← Except.ok.inj hStep, Bitmap.length_and]

end Columnar.Table
