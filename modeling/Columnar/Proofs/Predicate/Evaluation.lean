import Columnar.Predicate.Evaluation
import Columnar.Proofs.Predicate.Decomposition
import Columnar.Proofs.Result

/-!
# Row evaluation in terms of the values of a row

The row evaluator may refuse a row, and which columns it reads depends on the nulls it
meets.  The lemmas here say what it answers when the compared values are known.

* `hasNull_eq_ok_false_iff` -- no null is met when every value that is read is there.
* `evaluate_of_values` -- on values that can be compared, evaluation succeeds with the
  answer of the tree, or with false at a null.
-/

namespace Columnar.Predicate

variable {row : Row}

theorem hasNull_eq_ok_false_iff (row : Row) (names : List String) :
    hasNull row names = .ok false ↔ ∀ name ∈ names, ∃ s, row name = .ok (some s) := by
  induction names with
  | nil => simp [hasNull]
  | cons name rest ih =>
      rw [hasNull, Result.bind_eq_ok_iff, List.forall_mem_cons, ← ih]
      constructor
      · rintro ⟨value, hValue, hRest⟩
        cases value with
        | none => exact absurd (Except.ok.inj hRest) (by simp)
        | some s => exact ⟨⟨s, hValue⟩, hRest⟩
      · rintro ⟨⟨s, hValue⟩, hRest⟩
        exact ⟨some s, hValue, hRest⟩

/-- Among known values a null is found exactly when there is one. -/
theorem hasNull_of_values {names : List String} {value : String → Option Scalar}
    (h : ∀ name ∈ names, row name = .ok (value name)) :
    hasNull row names = .ok (!names.all fun name => (value name).isSome) := by
  induction names with
  | nil => rfl
  | cons name rest ih =>
      have hRest := ih fun other hMem => h other (List.mem_cons_of_mem _ hMem)
      rw [hasNull, h name List.mem_cons_self, Result.ok_bind]
      cases hValue : value name with
      | none => simp [hValue, pure, Except.pure]
      | some s => simpa [hValue] using hRest

/-- When every compared value is known and not null, the tree answers what its
comparisons say. -/
theorem evaluateTree_of_values {p : Predicate} {leaf : String → Comparison → Literal → Bool}
    (h : ∀ name op l, (name, op, l) ∈ p.comparisons →
      ∃ s, row name = .ok (some s) ∧ s.satisfies op l = .ok (leaf name op l)) :
    p.evaluateTree row = .ok (p.eval leaf) := by
  induction p with
  | compare column op literal =>
      obtain ⟨s, hValue, hAnswer⟩ := h column op literal (by simp [comparisons])
      rw [evaluateTree, hValue]
      exact hAnswer
  | constant value => rfl
  | combine op lhs rhs ihl ihr =>
      rw [evaluateTree,
        ihl fun name op l hMem => h name op l (by simp [comparisons, hMem]),
        ihr fun name op l hMem => h name op l (by simp [comparisons, hMem])]
      rfl

/-- On known values that can be compared evaluation succeeds.  A row without nulls gets
the answer of the tree, and a row with a null is rejected. -/
theorem evaluate_of_values {p : Predicate} {value : String → Option Scalar}
    {leaf : String → Comparison → Literal → Bool}
    (hRow : ∀ name ∈ p.columns, row name = .ok (value name))
    (hLeaf : ∀ name op l, (name, op, l) ∈ p.comparisons → ∀ s, value name = some s →
      s.satisfies op l = .ok (leaf name op l)) :
    p.evaluate row =
      .ok ((p.columns.all fun name => (value name).isSome) && p.eval leaf) := by
  rw [evaluate, hasNull_of_values hRow, Result.ok_bind]
  cases hAll : p.columns.all fun name => (value name).isSome with
  | false => rfl
  | true =>
      refine evaluateTree_of_values fun name op l hMem => ?_
      have hColumn : name ∈ p.columns := mem_columns_of_mem_comparisons hMem
      obtain ⟨s, hSome⟩ := Option.isSome_iff_exists.mp (List.all_eq_true.mp hAll name hColumn)
      exact ⟨s, by rw [hRow name hColumn, hSome], hLeaf name op l hMem s hSome⟩

end Columnar.Predicate
