import Columnar.Proofs.Bitmap.Reduction
import Columnar.Proofs.Kernel.Run
import Columnar.Proofs.Table.Records

/-!
# The rows that a predicate selects

`Table.Selects` says that a bitmap marks the rows whose record passes a test.  Whichever
way a predicate is turned into a selection, the rows that come out are those where the
tree answers true, nulls left aside.

* `selectField_ok` -- one kernel selects the rows where the tree, seen from its column,
  answers true.
* `length_of_selectValues` -- a selection has one bit for each row, on any table.
* `selectValues_ok` -- constants, separable predicates and trees all select the rows
  where the tree answers true.
-/

namespace Columnar.Table

variable {t : Table} {p : Predicate}

/-- The bitmap has one bit for each row, set where the record passes the test. -/
def Selects (t : Table) (b : Bitmap) (test : Record → Bool) : Prop :=
  b.length = t.rowCount ∧ ∀ i < t.rowCount, b.get i = test (t.record i)

theorem selects_allSet (t : Table) : t.Selects (Bitmap.allSet t.rowCount) fun _ => true :=
  ⟨rfl, fun _ hi => Bitmap.get_allSet hi⟩

theorem selects_allClear (t : Table) : t.Selects (Bitmap.allClear t.rowCount) fun _ => false :=
  ⟨rfl, fun i _ => Bitmap.get_allClear _ i⟩

namespace Selects

variable {b other : Bitmap} {test test' : Record → Bool}

theorem and (h : t.Selects b test) (h' : t.Selects other test') :
    t.Selects (b.and other) fun record => test record && test' record := by
  refine ⟨h.1, fun i hi => ?_⟩
  rw [Bitmap.get_and (by rw [h.1]; exact hi) (by rw [h'.1]; exact hi), h.2 i hi, h'.2 i hi]

theorem or (h : t.Selects b test) (h' : t.Selects other test') :
    t.Selects (b.or other) fun record => test record || test' record := by
  refine ⟨h.1, fun i hi => ?_⟩
  rw [Bitmap.get_or (by rw [h.1]; exact hi) (by rw [h'.1]; exact hi), h.2 i hi, h'.2 i hi]

/-- Only what a test says about the records of the table counts. -/
theorem congr (h : t.Selects b test)
    (hSame : ∀ i < t.rowCount, test (t.record i) = test' (t.record i)) : t.Selects b test' :=
  ⟨h.1, fun i hi => (h.2 i hi).trans (hSame i hi)⟩

end Selects

/-- Below the number of rows a column of the table holds the row in one of its chunks. -/
theorem exists_locateRow (hTable : t.WellFormed) {column : Column} (hMem : column ∈ t.columns)
    {i : Nat} (hi : i < t.rowCount) : ∃ chunk k, locateRow column.chunks i = some (chunk, k) := by
  cases hRow : locateRow column.chunks i with
  | some e => exact ⟨e.1, e.2, rfl⟩
  | none =>
      have hPast := (locateRow_eq_none_iff column.chunks i).mp hRow
      rw [← Column.length_eq_total (hTable column hMem), length_of_mem hMem] at hPast
      omega

/-- On the word of a row a lowered condition gives the answer of the predicate, seen from
the column of the condition. -/
theorem holds_word_eq_answerFor {name : String} {field : Field} {condition : Condition} {k : Nat}
    {column : Column} (hField : t.schema.find name = .ok field)
    (hNumeric : field.type.isNumeric = true)
    (hCondition : Condition.ofPredicate field p = .ok condition)
    (hIndex : t.schema.indexOf? name = some k) (hColumn : t.columns[k]? = some column)
    (hType : column.type = field.type) {i j : Nat} {chunk : Chunk}
    (hRow : locateRow column.chunks i = some (chunk, j)) :
    condition.holds (chunk.word j) = p.answerFor (t.schema.answer (t.record i)) name .and := by
  obtain ⟨lane, hLane⟩ : ∃ lane, field.type.lane? = some lane := by
    rw [← Option.isSome_iff_exists, DataType.lane?_isSome]
    exact hNumeric
  have hCell : t.schema.cell? (t.record i) name = some (chunk.cell j) := by
    rw [cell?_record hIndex hColumn, Column.getElem?_cells, hRow]
    rfl
  have hFixed : chunk.type.isFixedWidth = true := by
    rw [column.chunks_type chunk (mem_of_locateRow hRow).1, hType]
    exact DataType.isFixedWidth_of_isNumeric hNumeric
  have hWord : littleEndian (chunk.cell j).bytes = chunk.word j := by
    rw [Chunk.cell, Chunk.elementBytes_eq_slot hFixed]
    rfl
  have hLower : Condition.lower field lane .and p = .ok condition := by
    rw [← hCondition, Condition.ofPredicate, hLane]
  have hHolds : condition.holds (chunk.word j) =
      p.answerFor (t.schema.answer (t.record i)) field.name .and :=
    Condition.holds_of_lower hLower (chunk.word j) fun op l => by
      rw [Schema.name_of_find hField, Schema.answer_eq hField hLane hCell, hWord]
  rwa [Schema.name_of_find hField] at hHolds

/-- One kernel selects the rows where the predicate, seen from the column of the kernel,
answers true. -/
theorem selectField_ok (hTable : t.WellFormed) {name : String} {field : Field}
    (hField : t.schema.find name = .ok field) (hAdmits : field.Admits p) :
    ∃ b, t.selectField p name = .ok b ∧
      t.Selects b fun record => p.answerFor (t.schema.answer record) name .and := by
  obtain ⟨k, hIndex, hAt⟩ := Schema.find_eq_ok_iff.mp hField
  obtain ⟨column, hColumn, hType⟩ := exists_column hAt
  obtain ⟨condition, hCondition⟩ := (Condition.exists_ofPredicate_iff field p).mpr hAdmits
  have hMem : column ∈ t.columns := List.mem_of_getElem? hColumn
  have hFixed : field.type.isFixedWidth = true := DataType.isFixedWidth_of_isNumeric hAdmits.1
  obtain ⟨b, hRun, hLength, hBits⟩ := Program.run_ok (k := { field, condition })
    ((hTable column hMem).filled (hType ▸ hFixed)) hType hFixed (Bitmap.allSet t.rowCount)
  refine ⟨b, ?_, hLength, fun i hi => ?_⟩
  · rw [selectField, hField, Result.ok_bind, column_eq_ok hIndex hColumn, Result.ok_bind,
      Program.ofPredicate, hCondition]
    exact hRun
  · obtain ⟨chunk, j, hRow⟩ := exists_locateRow hTable hMem hi
    have hHolds :=
      holds_word_eq_answerFor hField hAdmits.1 hCondition hIndex hColumn hType hRow
    show b.get i = p.answerFor (t.schema.answer (t.record i)) name .and
    rw [← hHolds, Bool.eq_iff_iff, hBits i, Bitmap.get_allSet hi, Column.word?, hRow]
    simp

/-- A predicate without columns selects all rows or none. -/
theorem selectConstant_ok (hColumns : p.columns = []) :
    ∃ b, t.selectConstant p = .ok b ∧
      t.Selects b fun record => p.eval (t.schema.answer record) := by
  have hNone : ∀ name op l, (name, op, l) ∉ p.comparisons := fun name op l hMem => by
    have hName := Predicate.mem_columns_of_mem_comparisons hMem
    simp [hColumns] at hName
  have hEvaluate : ∀ leaf : String → Comparison → Literal → Bool,
      p.evaluate (Row.ofCells []) = .ok (p.eval leaf) := fun leaf => by
    have h : p.evaluate (Row.ofCells []) =
        .ok ((p.columns.all fun _ => (none : Option Scalar).isSome) && p.eval leaf) :=
      Predicate.evaluate_of_values (fun name hName => by simp [hColumns] at hName)
        fun name op l hMem => absurd hMem (hNone name op l)
    simpa [hColumns] using h
  -- The answer is the same for every row, so any row will do.
  have hSame : ∀ record, p.eval (t.schema.answer record) = p.eval (t.schema.answer []) :=
    fun record => Except.ok.inj ((hEvaluate _).symm.trans (hEvaluate _))
  rw [selectConstant, hEvaluate (t.schema.answer []), Result.ok_bind]
  cases hAnswer : p.eval (t.schema.answer []) with
  | true => exact ⟨_, rfl, t.selects_allSet.congr fun i _ => by rw [hSame, hAnswer]⟩
  | false => exact ⟨_, rfl, t.selects_allClear.congr fun i _ => by rw [hSame, hAnswer]⟩

/-- Selections for some names are reduced to the rows that every one of them has. -/
theorem exists_andReduce {names : List String} (hNames : names ≠ []) {f : String → Result Bitmap}
    {test : String → Record → Bool}
    (hEach : ∀ name ∈ names, ∃ b, f name = .ok b ∧ t.Selects b (test name)) :
    ∃ answers b, names.mapM f = .ok answers ∧ Bitmap.andReduce? answers = some b ∧
      t.Selects b fun record => names.all fun name => test name record := by
  obtain ⟨answers, hAnswers⟩ := Result.exists_mapM_eq_ok fun name hName =>
    have ⟨b, hSelect, _⟩ := hEach name hName
    ⟨b, hSelect⟩
  have hMem := Result.mem_of_mapM_eq_ok hAnswers
  have hSelects : ∀ {name a}, name ∈ names → f name = .ok a → t.Selects a (test name) := by
    intro name a hName hSelect
    obtain ⟨b, hSame, hBits⟩ := hEach name hName
    rw [hSame] at hSelect
    rwa [← Except.ok.inj hSelect]
  have hLengths : ∀ a ∈ answers, a.length = t.rowCount := fun a ha =>
    have ⟨_, hName, hSelect⟩ := (hMem a).mp ha
    (hSelects hName hSelect).1
  obtain ⟨b, hReduce⟩ : ∃ b, Bitmap.andReduce? answers = some b := by
    obtain ⟨first, hFirst⟩ := List.exists_mem_of_ne_nil _ hNames
    obtain ⟨a, hSelect, -⟩ := hEach first hFirst
    have ha : a ∈ answers := (hMem a).mpr ⟨first, hFirst, hSelect⟩
    cases answers with
    | nil => exact absurd ha (by simp)
    | cons a' rest => exact ⟨_, rfl⟩
  refine ⟨answers, b, hAnswers, hReduce, length_andReduce? hReduce hLengths, fun i hi => ?_⟩
  rw [Bool.eq_iff_iff, get_andReduce?_iff hReduce fun a ha => by rw [hLengths a ha]; exact hi,
    List.all_eq_true]
  -- The reduced bitmaps are exactly the selections of the names.
  constructor
  · intro hAll name hName
    obtain ⟨a, hSelect, hBits⟩ := hEach name hName
    exact (hBits.2 i hi).symm.trans (hAll a ((hMem a).mpr ⟨name, hName, hSelect⟩))
  · intro hAll a ha
    obtain ⟨name, hName, hSelect⟩ := (hMem a).mp ha
    exact ((hSelects hName hSelect).2 i hi).trans (hAll name hName)

/-- The conjunction over its columns selects what a separable predicate selects. -/
theorem selectSeparable_ok (hTable : t.WellFormed) (hAdmits : t.schema.Admits p)
    (hColumns : p.columns ≠ []) (hSeparable : p.isSeparable = true) :
    ∃ b, t.selectSeparable p = .ok b ∧
      t.Selects b fun record => p.eval (t.schema.answer record) := by
  have hFields := (Schema.admits_iff_columns t.schema p).mp hAdmits
  have hEach : ∀ name ∈ p.columns, ∃ b, t.selectField p name = .ok b ∧
      t.Selects b fun record => p.answerFor (t.schema.answer record) name .and :=
    fun name hName =>
      have ⟨_, hField, hFieldAdmits⟩ := hFields name hName
      selectField_ok hTable hField hFieldAdmits
  obtain ⟨answers, b, hAnswers, hReduce, hBits⟩ := exists_andReduce hColumns hEach
  refine ⟨b, ?_, hBits.congr fun i _ => ?_⟩
  · rw [selectSeparable, hAnswers, Result.ok_bind, hReduce]
    rfl
  · rw [Bool.eq_iff_iff, List.all_eq_true]
    exact Predicate.forall_answerFor_iff hSeparable hColumns fun name hName =>
      (Predicate.mem_columns name p).mpr hName

/-- Subtrees on one column and the combinations above them select what the tree
selects. -/
theorem selectTree_ok (hTable : t.WellFormed) (hAdmits : t.schema.Admits p) :
    ∃ b, t.selectTree p = .ok b ∧
      t.Selects b fun record => p.eval (t.schema.answer record) := by
  -- A subtree on one column is left to the kernel of this column.
  have hOne : ∀ {p : Predicate} {name : String}, t.schema.Admits p → p.columns = [name] →
      ∃ b, t.selectField p name = .ok b ∧
        t.Selects b fun record => p.eval (t.schema.answer record) := by
    intro p name hAdmits hColumns
    obtain ⟨field, hField, hFieldAdmits⟩ :=
      (Schema.admits_iff_columns t.schema p).mp hAdmits name (by simp [hColumns])
    obtain ⟨b, hSelect, hBits⟩ := selectField_ok hTable hField hFieldAdmits
    refine ⟨b, hSelect, hBits.congr fun i _ => ?_⟩
    refine Predicate.answerFor_eq_eval (fun column hColumn => ?_) .and
    simpa [hColumns] using (Predicate.mem_columns column p).mpr hColumn
  induction p with
  | compare column op literal =>
      exact hOne hAdmits (by simp [Predicate.columns, Predicate.collectColumns])
  | constant value => exact selectConstant_ok rfl
  | combine op lhs rhs ihl ihr =>
      rw [selectTree]
      split
      · next hColumns => exact selectConstant_ok hColumns
      · next name hColumns => exact hOne hAdmits hColumns
      · obtain ⟨hLeft, hRight⟩ := (Schema.admits_combine_iff t.schema op lhs rhs).mp hAdmits
        obtain ⟨left, hl, hLeftBits⟩ := ihl hLeft
        obtain ⟨right, hr, hRightBits⟩ := ihr hRight
        rw [hl, Result.ok_bind, hr, Result.ok_bind]
        cases op with
        | and => exact ⟨_, rfl, hLeftBits.and hRightBits⟩
        | or => exact ⟨_, rfl, hLeftBits.or hRightBits⟩

/-- Nulls left aside, an admitted predicate selects the rows where its tree answers
true. -/
theorem selectValues_ok (hTable : t.WellFormed) (hAdmits : t.schema.Admits p) :
    ∃ b, t.selectValues p = .ok b ∧
      t.Selects b fun record => p.eval (t.schema.answer record) := by
  unfold selectValues
  split
  · next hNone => exact selectConstant_ok (List.isEmpty_iff.mp hNone)
  · next hSome =>
      split
      · next hSeparable =>
          exact selectSeparable_ok hTable hAdmits (fun h => hSome (by simp [h])) hSeparable
      · exact selectTree_ok hTable hAdmits

section Lengths

variable {b : Bitmap}

/-- A kernel gives a bitmap with a bit for each row of the table. -/
theorem length_of_selectField {name : String} (h : t.selectField p name = .ok b) :
    b.length = t.rowCount := by
  obtain ⟨field, -, h⟩ := Result.bind_eq_ok_iff.mp h
  obtain ⟨column, -, h⟩ := Result.bind_eq_ok_iff.mp h
  obtain ⟨program, -, h⟩ := Result.bind_eq_ok_iff.mp h
  obtain ⟨masks, -, h⟩ := Result.bind_eq_ok_iff.mp h
  rw [← Except.ok.inj h]
  rfl

theorem length_of_selectConstant (h : t.selectConstant p = .ok b) : b.length = t.rowCount := by
  obtain ⟨answer, -, h⟩ := Result.bind_eq_ok_iff.mp h
  cases answer <;> rw [← Except.ok.inj h] <;> rfl

theorem length_of_selectSeparable (h : t.selectSeparable p = .ok b) : b.length = t.rowCount := by
  obtain ⟨answers, hAnswers, h⟩ := Result.bind_eq_ok_iff.mp h
  cases hReduced : Bitmap.andReduce? answers with
  | none =>
      rw [hReduced] at h
      cases h
  | some reduced =>
      rw [hReduced] at h
      obtain rfl := Except.ok.inj h
      refine length_andReduce? hReduced fun answer hMem => ?_
      obtain ⟨name, -, hField⟩ := (Result.mem_of_mapM_eq_ok hAnswers answer).mp hMem
      exact length_of_selectField hField

theorem length_of_selectTree (h : t.selectTree p = .ok b) : b.length = t.rowCount := by
  induction p generalizing b with
  | compare column op literal => exact length_of_selectField h
  | constant value => exact length_of_selectConstant h
  | combine op lhs rhs ihLeft ihRight =>
      rw [selectTree] at h
      split at h
      · exact length_of_selectConstant h
      · exact length_of_selectField h
      · obtain ⟨left, hLeft, h⟩ := Result.bind_eq_ok_iff.mp h
        obtain ⟨right, -, h⟩ := Result.bind_eq_ok_iff.mp h
        have hLength := ihLeft hLeft
        cases op <;> rw [← Except.ok.inj h] <;> exact hLength

/-- Whatever way it is made, a selection has one bit for each row. -/
theorem length_of_selectValues (h : t.selectValues p = .ok b) : b.length = t.rowCount := by
  unfold selectValues at h
  split at h
  · exact length_of_selectConstant h
  · split at h
    · exact length_of_selectSeparable h
    · exact length_of_selectTree h

end Lengths

end Columnar.Table
