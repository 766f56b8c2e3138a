import Columnar.Proofs.Result
import Columnar.Table.Basic

/-!
# Finding fields and columns

Fields are found by name and columns by the position of their field.  A schema and the
columns of its table always agree, so a name that the schema knows leads to a column of
the type of the field, and no lookup past the schema can fail.

* `Schema.find_eq_ok_iff` -- the field of a name is the field at its position.
* `Table.exists_column` -- the position of a field is the position of its column.
* `Table.make_eq_ok_iff` -- when columns make a table.
-/

namespace Columnar

namespace Schema

variable {s : Schema} {name : String} {k : Nat}

theorem locate_eq_ok_iff : s.locate name = .ok k ↔ s.indexOf? name = some k := by
  unfold locate
  cases s.indexOf? name <;> simp

theorem field_of_indexOf? (h : s.indexOf? name = some k) :
    ∃ field, s.fields[k]? = some field ∧ field.name = name := by
  obtain ⟨hk, hName, -⟩ := List.findIdx?_eq_some_iff_getElem.mp h
  exact ⟨s.fields[k], List.getElem?_eq_getElem hk, by simpa using hName⟩

/-- The field of a name is the field at the position of the name. -/
theorem find_eq_ok_iff {field : Field} :
    s.find name = .ok field ↔ ∃ k, s.indexOf? name = some k ∧ s.fields[k]? = some field := by
  have hSame : s.fields.find? (·.name == name) =
      (s.indexOf? name).bind fun k => s.fields[k]? :=
    List.find?_eq_bind_findIdx?_getElem?
  unfold find
  rw [← Option.bind_eq_some_iff, ← hSame]
  cases s.fields.find? (·.name == name) <;> simp

/-- A field is found at its position by its name. -/
theorem indexOf?_of_getElem? {field : Field} (h : s.fields[k]? = some field) :
    s.indexOf? field.name = some k := by
  obtain ⟨hk, rfl⟩ := List.getElem?_eq_some_iff.mp h
  refine List.findIdx?_eq_some_iff_getElem.mpr ⟨hk, by simp, fun j hj => ?_⟩
  -- A name at an earlier position is another name.
  have hDistinct := List.pairwise_iff_getElem.mp s.nodup j k (by simp; omega)
    (by simpa using hk) hj
  simpa using hDistinct

theorem find_of_getElem? {field : Field} (h : s.fields[k]? = some field) :
    s.find field.name = .ok field :=
  find_eq_ok_iff.mpr ⟨k, indexOf?_of_getElem? h, h⟩

theorem name_of_find {field : Field} (h : s.find name = .ok field) : field.name = name := by
  obtain ⟨k, hIndex, hField⟩ := find_eq_ok_iff.mp h
  obtain ⟨other, hOther, hName⟩ := field_of_indexOf? hIndex
  rw [hField] at hOther
  rw [Option.some.inj hOther, hName]

end Schema

namespace Table

variable {t : Table} {k : Nat}

theorem length_columns (t : Table) : t.columns.length = t.schema.fields.length := by
  simpa using congrArg List.length t.types_eq

/-- The column at the position of a field has the type of the field. -/
theorem exists_column {field : Field} (h : t.schema.fields[k]? = some field) :
    ∃ column, t.columns[k]? = some column ∧ column.type = field.type := by
  have hType : (t.columns.map Column.type)[k]? = some field.type := by
    rw [t.types_eq, List.getElem?_map, h, Option.map_some]
  rw [List.getElem?_map, Option.map_eq_some_iff] at hType
  exact hType

theorem column_eq_ok {name : String} {column : Column}
    (hIndex : t.schema.indexOf? name = some k) (hColumn : t.columns[k]? = some column) :
    t.column name = .ok column := by
  rw [Table.column, Schema.locate_eq_ok_iff.mpr hIndex, Result.ok_bind, hColumn]
  rfl

/-- A column that is found by name is a column of the table. -/
theorem mem_of_column {name : String} {column : Column}
    (h : t.column name = .ok column) : column ∈ t.columns := by
  obtain ⟨k, -, hFound⟩ := Result.bind_eq_ok_iff.mp h
  split at hFound
  · next hColumn =>
      obtain rfl := Except.ok.inj hFound
      exact List.mem_of_getElem? hColumn
  · exact absurd hFound (Result.throw_ne_ok _ _)

theorem length_of_mem {column : Column} (h : column ∈ t.columns) :
    column.length = t.rowCount :=
  t.rows_eq column h

/-- Without chunks in its first column a table has no rows. -/
theorem rowCount_of_isChunkless (h : t.isChunkless = true) : t.rowCount = 0 := by
  unfold isChunkless at h
  rw [t.rowCount_eq]
  cases hColumns : t.columns with
  | nil => rfl
  | cons first rest =>
      rw [hColumns] at h
      show first.length = 0
      rw [first.length_eq, List.isEmpty_iff.mp h]
      rfl

/-- Every column of a well formed table is well formed. -/
theorem wellFormed_of_getElem? (h : t.WellFormed) {column : Column}
    (hColumn : t.columns[k]? = some column) : column.WellFormed :=
  h column (List.mem_of_getElem? hColumn)

theorem typeClash_eq_none {fields : List Field} {columns : List Column}
    (h : columns.map Column.type = fields.map Field.type) :
    typeClash fields columns = none := by
  refine List.find?_eq_none.mpr fun pair hPair => ?_
  obtain ⟨i, hi, rfl⟩ := List.getElem_of_mem hPair
  rw [List.length_zip] at hi
  have hType : (columns.map Column.type)[i]? = (fields.map Field.type)[i]? := by rw [h]
  simp only [List.getElem?_map, List.getElem?_eq_getElem (show i < columns.length by omega),
    List.getElem?_eq_getElem (show i < fields.length by omega), Option.map_some,
    Option.some.injEq] at hType
  simp [hType]

theorem rowClash_eq_none {fields : List Field} {columns : List Column}
    (h : ∀ c ∈ columns, c.length = sharedRows columns) : rowClash fields columns = none := by
  refine List.find?_eq_none.mpr fun pair hPair => ?_
  have hMem : pair.2 ∈ columns := (List.of_mem_zip hPair).2
  simp [h pair.2 hMem]

/-- Columns make a table exactly when their types are those of the fields and their
numbers of rows agree. -/
theorem make_eq_ok_iff {schema : Schema} {columns : List Column} {made : Table} :
    make schema columns = .ok made ↔
      columns.map Column.type = schema.fields.map Field.type ∧
        (∀ c ∈ columns, c.length = sharedRows columns) ∧
        made.schema = schema ∧ made.columns = columns := by
  constructor
  · intro h
    unfold make at h
    split at h
    · next hLength =>
        split at h
        · exact absurd h (by simp)
        · next hTypes =>
            split at h
            · exact absurd h (by simp)
            · next hRows =>
                obtain rfl := Except.ok.inj h
                exact ⟨types_eq_of_typeClash hLength hTypes,
                  rows_eq_of_rowClash hLength hRows, rfl, rfl⟩
    · exact absurd h (by simp)
  · rintro ⟨hTypes, hRows, rfl, rfl⟩
    have hLength : made.schema.fields.length = made.columns.length := made.length_columns.symm
    unfold make
    rw [dif_pos hLength]
    split
    · next hClash => rw [typeClash_eq_none hTypes] at hClash; exact absurd hClash (by simp)
    · split
      · next hClash => rw [rowClash_eq_none hRows] at hClash; exact absurd hClash (by simp)
      · exact congrArg Except.ok (eq_of_columns rfl rfl)

/-- Columns of one length make a table. -/
theorem exists_make {schema : Schema} {columns : List Column} {n : Nat}
    (hTypes : columns.map Column.type = schema.fields.map Field.type)
    (hLengths : ∀ c ∈ columns, c.length = n) :
    ∃ made : Table, make schema columns = .ok made ∧ made.schema = schema ∧
      made.columns = columns ∧ (columns ≠ [] → made.rowCount = n) := by
  have hShared : columns ≠ [] → sharedRows columns = n := fun hSome => by
    cases columns with
    | nil => exact absurd rfl hSome
    | cons first rest => exact hLengths first List.mem_cons_self
  have hRows : ∀ c ∈ columns, c.length = sharedRows columns := fun c hc => by
    rw [hLengths c hc, hShared (List.ne_nil_of_mem hc)]
  exact ⟨{ schema, columns, types_eq := hTypes, rows_eq := hRows },
    make_eq_ok_iff.mpr ⟨hTypes, hRows, rfl, rfl⟩, rfl, rfl, hShared⟩

end Table

end Columnar
