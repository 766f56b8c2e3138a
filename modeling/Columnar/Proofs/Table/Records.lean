import Columnar.Proofs.Column.Rows
import Columnar.Proofs.Kernel.Lowering
import Columnar.Proofs.Predicate.Evaluation
import Columnar.Proofs.Table.Lookup
import Columnar.Selection

/-!
# Records

A record is one row of a table, as the list of its cells in the order of the columns.
It does not show how the columns are chunked, and it carries all that predicates and
compactions use of a row.  Under a schema a record has a value for each name, and a
predicate accepts it or not.

* `Schema.Admits` -- the schema can make every comparison of a predicate; these are the
  predicates that validation lets through (`Table.validate_eq_ok_iff`).
* `Table.evaluate_row` -- under a schema that admits a predicate the row evaluator
  never fails, and it answers whether the record of the row is accepted.
* `Schema.accepts_and` -- a conjunction accepts what both sides accept.
-/

namespace Columnar

/-- The cells of one row, column by column; past the last row there are none. -/
abbrev Record := List (Option Cell)

/-- The record of row `i`. -/
def Table.record (t : Table) (i : Nat) : Record :=
  t.columns.map fun column => column.cells[i]?

namespace Schema

/-- The cell of a record under a name. -/
def cell? (s : Schema) (record : Record) (name : String) : Option Cell :=
  (s.indexOf? name).bind fun k => record[k]?.join

/-- The value of a record under a name; a null has none. -/
def value? (s : Schema) (record : Record) (name : String) : Option Scalar :=
  match s.find name with
  | .ok field => (s.cell? record name).bind (Cell.scalar? field.type)
  | .error _ => none

/-- How a record answers a comparison. -/
def answer (s : Schema) (record : Record) (name : String) (op : Comparison) (l : Literal) :
    Bool :=
  match s.find name with
  | .ok field =>
      match field.type.lane?, s.cell? record name with
      | some lane, some cell => lane.answer (littleEndian cell.bytes) op l
      | _, _ => false
  | .error _ => false

/-- Whether a record satisfies a predicate: no compared value is null, and the tree
answers true. -/
def accepts (s : Schema) (p : Predicate) (record : Record) : Bool :=
  (p.columns.all fun name => (s.value? record name).isSome) && p.eval (s.answer record)

/-- Every comparison of the predicate is on a known field that can make it. -/
def Admits (s : Schema) (p : Predicate) : Prop :=
  ∀ name op l, (name, op, l) ∈ p.comparisons →
    ∃ field, s.find name = .ok field ∧ field.CanTest op l

/-- A comparison is answered by the word of the cell. -/
theorem answer_eq {s : Schema} {record : Record} {name : String} {field : Field} {lane : Lane}
    {cell : Cell} (hField : s.find name = .ok field) (hLane : field.type.lane? = some lane)
    (hCell : s.cell? record name = some cell) (op : Comparison) (l : Literal) :
    s.answer record name op l = lane.answer (littleEndian cell.bytes) op l := by
  simp only [answer, hField, hLane, hCell]

/-- Under two schemas that give a record's compared names the same fields and cells, the
record is accepted alike. -/
theorem accepts_congr {s s' : Schema} {p : Predicate} {record record' : Record}
    (h : ∀ name ∈ p.columns,
      s.find name = s'.find name ∧ s.cell? record name = s'.cell? record' name) :
    s.accepts p record = s'.accepts p record' := by
  have hNulls : (p.columns.all fun name => (s.value? record name).isSome) =
      p.columns.all fun name => (s'.value? record' name).isSome := by
    rw [Bool.eq_iff_iff, List.all_eq_true, List.all_eq_true]
    refine forall₂_congr fun name hName => ?_
    rw [value?, value?, (h name hName).1, (h name hName).2]
  have hTree : p.eval (s.answer record) = p.eval (s'.answer record') := by
    refine Predicate.eval_congr fun name op l hMem => ?_
    obtain ⟨hFind, hCell⟩ := h name (Predicate.mem_columns_of_mem_comparisons hMem)
    rw [answer, answer, hFind, hCell]
  rw [accepts, accepts, hNulls, hTree]

theorem admits_combine_iff (s : Schema) (op : Connective) (p q : Predicate) :
    s.Admits (.combine op p q) ↔ s.Admits p ∧ s.Admits q := by
  simp only [Admits, Predicate.comparisons, List.mem_append, or_imp, forall_and]

theorem accepts_and (s : Schema) (p q : Predicate) (record : Record) :
    s.accepts (p.and q) record = (s.accepts p record && s.accepts q record) := by
  have hColumns : ((p.and q).columns.all fun name => (s.value? record name).isSome) =
      ((p.columns.all fun name => (s.value? record name).isSome) &&
        q.columns.all fun name => (s.value? record name).isSome) := by
    rw [Bool.eq_iff_iff, Bool.and_eq_true]
    simp only [List.all_eq_true, Predicate.mem_columns, Predicate.mentions, Bool.or_eq_true,
      or_imp, forall_and]
  have hTree : (p.and q).eval (s.answer record) =
      (p.eval (s.answer record) && q.eval (s.answer record)) := rfl
  rw [accepts, accepts, accepts, hColumns, hTree]
  ac_rfl

/-- The compared fields of an admitted predicate, one by one. -/
theorem admits_iff_columns (s : Schema) (p : Predicate) :
    s.Admits p ↔ ∀ name ∈ p.columns, ∃ field, s.find name = .ok field ∧ field.Admits p := by
  constructor
  · intro h name hName
    obtain ⟨op, l, hMem⟩ :=
      (Predicate.mentions_iff_exists name p).mp ((Predicate.mem_columns name p).mp hName)
    obtain ⟨field, hField, lane, test, hLane, hTest⟩ := h name op l hMem
    refine ⟨field, hField, ?_, fun op' l' hMem' => ?_⟩
    · rw [← DataType.lane?_isSome, hLane, Option.isSome_some]
    · rw [name_of_find hField] at hMem'
      obtain ⟨same, hSame, hTest'⟩ := h name op' l' hMem'
      rw [hField] at hSame
      rwa [← Except.ok.inj hSame] at hTest'
  · intro h name op l hMem
    obtain ⟨field, hField, -, hTests⟩ := h name (Predicate.mem_columns_of_mem_comparisons hMem)
    exact ⟨field, hField, hTests op l (by rwa [name_of_find hField])⟩

/-- A column compared by an admitted predicate has a numeric type. -/
theorem exists_field_of_admits {s : Schema} {p : Predicate} (h : s.Admits p) {name : String}
    (hName : name ∈ p.columns) :
    ∃ field, s.find name = .ok field ∧ field.type.isNumeric = true := by
  obtain ⟨field, hField, hNumeric, -⟩ := (admits_iff_columns s p).mp h name hName
  exact ⟨field, hField, hNumeric⟩

end Schema

namespace Table

variable {t : Table} {p : Predicate}

@[simp]
theorem length_record (t : Table) (i : Nat) : (t.record i).length = t.columns.length := by
  simp [record]

theorem getElem?_record (t : Table) (i k : Nat) :
    (t.record i)[k]? = (t.columns[k]?).map fun column => column.cells[i]? := by
  simp [record]

/-- The cell of a record under a name is the cell of the column of that name. -/
theorem cell?_record {name : String} {k : Nat} {column : Column}
    (hIndex : t.schema.indexOf? name = some k) (hColumn : t.columns[k]? = some column)
    (i : Nat) : t.schema.cell? (t.record i) name = column.cells[i]? := by
  rw [Schema.cell?, hIndex, Option.bind_some, getElem?_record, hColumn]
  rfl

/-- A row of a table has the values of its record. -/
theorem row_eq_value? {name : String} {field : Field} (hField : t.schema.find name = .ok field)
    (hFixed : field.type.isFixedWidth = true) (i : Nat) :
    t.row i name = .ok (t.schema.value? (t.record i) name) := by
  obtain ⟨k, hIndex, hAt⟩ := Schema.find_eq_ok_iff.mp hField
  obtain ⟨column, hColumn, hType⟩ := exists_column hAt
  have hScalar := Column.scalarAt_eq_scalar? (c := column) (by rwa [hType]) i
  rw [row, column_eq_ok hIndex hColumn, Result.ok_bind, hScalar, Schema.value?, hField,
    cell?_record hIndex hColumn, hType]

/-- Validation lets through the predicates that the schema admits. -/
theorem validate_eq_ok_iff (t : Table) (p : Predicate) :
    t.validate p = .ok () ↔ t.schema.Admits p := by
  rw [validate, Result.forM_eq_ok_iff, Schema.admits_iff_columns]
  refine forall_congr' fun name => imp_congr_right fun _ => ?_
  rw [Result.bind_eq_ok_iff]
  simp only [Condition.validate_eq_ok_iff]

/-- On a predicate that the schema admits the row evaluator never fails, and it answers
whether the record of the row is accepted. -/
theorem evaluate_row (h : t.schema.Admits p) (i : Nat) :
    p.evaluate (t.row i) = .ok (t.schema.accepts p (t.record i)) := by
  refine Predicate.evaluate_of_values (fun name hName => ?_) fun name op l hMem s hValue => ?_
  · obtain ⟨field, hField, hNumeric⟩ := Schema.exists_field_of_admits h hName
    exact row_eq_value? hField (DataType.isFixedWidth_of_isNumeric hNumeric) i
  · obtain ⟨field, hField, hTest⟩ := h name op l hMem
    obtain ⟨lane, test, hLane, hSome⟩ := hTest
    rw [Schema.value?, hField] at hValue
    obtain ⟨cell, hCell, hScalar⟩ := Option.bind_eq_some_iff.mp hValue
    obtain ⟨s', hDecoded, hAnswer⟩ := Field.satisfies_of_canTest
      ⟨lane, test, hLane, hSome⟩ hLane (littleEndian cell.bytes)
    -- A value is known, so its cell is valid and decodes.
    have hValid : cell.valid = true := by
      cases hCase : cell.valid with
      | true => rfl
      | false => simp [Cell.scalar?, hCase] at hScalar
    rw [Cell.scalar?, hValid, if_pos rfl, hDecoded] at hScalar
    rw [← Option.some.inj hScalar, hAnswer, Schema.answer_eq hField hLane hCell]

end Table

end Columnar
