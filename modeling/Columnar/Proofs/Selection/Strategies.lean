import Columnar.Proofs.Selection.Filter

/-!
# Both strategies select the same rows

A separable predicate can be selected in two ways.  The quick way runs the whole predicate
once for each of its columns and reduces the answers by conjunction; each kernel sees
neutral constants in place of the other columns.  The general way runs the largest subtrees
on single columns and combines their answers as the tree says.  Both arrive at the rows where
the tree answers true (`selectSeparable_ok`, `selectTree_ok`), so wherever both apply they
select the same rows.
-/

namespace Columnar.Table

variable {t : Table} {p : Predicate}

/-- When every compared column is known and can make its comparisons, both ways to select
the rows of a separable predicate succeed, with one bit for each row and the same bits. -/
theorem selectSeparable_agrees_with_selectTree (hTable : t.WellFormed)
    (hSeparable : p.isSeparable = true) (hColumns : p.columns ≠ [])
    (hValid : ∀ name ∈ p.columns, ∃ field, t.schema.find name = .ok field ∧
      Condition.validate field p = .ok ()) :
    ∃ quick general, t.selectSeparable p = .ok quick ∧ t.selectTree p = .ok general ∧
      quick.length = t.rowCount ∧ general.length = t.rowCount ∧
      ∀ i < t.rowCount, quick.get i = general.get i := by
  have hAdmits : t.schema.Admits p := by
    refine (Schema.admits_iff_columns t.schema p).mpr fun name hName => ?_
    obtain ⟨field, hField, hValidate⟩ := hValid name hName
    exact ⟨field, hField, (Condition.validate_eq_ok_iff field p).mp hValidate⟩
  obtain ⟨quick, hQuick, hQuickLength, hQuickBits⟩ :=
    selectSeparable_ok hTable hAdmits hColumns hSeparable
  obtain ⟨general, hGeneral, hGeneralLength, hGeneralBits⟩ := selectTree_ok hTable hAdmits
  exact ⟨quick, general, hQuick, hGeneral, hQuickLength, hGeneralLength,
    fun i hi => (hQuickBits i hi).trans (hGeneralBits i hi).symm⟩

/-- A disjunction with a constant under a conjunction over both columns of the sample, one of
which is compared on both sides. -/
def separableSample : Predicate :=
  .and (.or (.compare "id" .gt (.integer 3)) (.or (.constant false) (.compare "id" .lt (.integer 2))))
    (.and (.or (.constant true) (.compare "score" .gt (.integer 90)))
      (.compare "score" .lt (.integer 50)))

/-- The bits of both ways, which do not depend on the nulls of the sample. -/
theorem selectSeparable_sample_agrees_with_selectTree :
    Table.sample.WellFormed ∧ separableSample.isSeparable = true ∧
      separableSample.columns = ["id", "score"] ∧
      ∃ quick general, sample.selectSeparable separableSample = .ok quick ∧
        sample.selectTree separableSample = .ok general ∧
        quick.length = sample.rowCount ∧ general.length = sample.rowCount ∧
        ∀ i < sample.rowCount, quick.get i = general.get i :=
  have hValid : ∀ name ∈ separableSample.columns, ∃ field,
      sample.schema.find name = .ok field ∧ Condition.validate field separableSample = .ok () := by
    intro name hName
    rw [show separableSample.columns = ["id", "score"] from rfl] at hName
    rcases List.mem_pair.mp hName with rfl | rfl
    · exact ⟨{ name := "id", type := .int16 }, rfl, rfl⟩
    · exact ⟨{ name := "score", type := .uint8 }, rfl, rfl⟩
  ⟨wellFormed_sample, rfl, rfl,
    selectSeparable_agrees_with_selectTree wellFormed_sample rfl (by decide) hValid⟩

end Columnar.Table
