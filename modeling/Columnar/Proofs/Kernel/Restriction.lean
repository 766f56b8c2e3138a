import Columnar.Proofs.Column.Rows
import Columnar.Proofs.Kernel.Lowering
import Columnar.Proofs.Predicate.Evaluation
import Columnar.Proofs.Predicate.Restriction

/-!
# Foreign comparisons do not influence a kernel

A kernel for a field is lowered from a predicate over the whole table.  It decides about
a value of the field as the row evaluator decides about the restriction of the predicate
to the field, and a tree that differs in its foreign comparisons only is lowered to the
very same condition.

* `lower_of_sameFor` -- lowering does not read a foreign comparison.
* `holds_eq_evaluate_restrict` -- the condition of a kernel is the restricted predicate,
  evaluated on rows, whatever the foreign comparisons are.
-/

namespace Columnar.Condition

variable {field : Field} {lane : Lane} {p q : Predicate} {c : Condition}

/-- Only a field whose type has a lane has conditions. -/
theorem exists_lane_of_ofPredicate (h : ofPredicate field p = .ok c) :
    ∃ lane, field.type.lane? = some lane ∧ lower field lane .and p = .ok c := by
  unfold ofPredicate at h
  cases hLane : field.type.lane? with
  | none => simp [hLane] at h
  | some lane => exact ⟨lane, rfl, by simpa [hLane] using h⟩

/-- Lowering does not read a foreign comparison. -/
theorem lower_of_sameFor (h : p.SameFor field.name q) (enclosing : Connective) :
    lower field lane enclosing p = lower field lane enclosing q := by
  induction h generalizing enclosing with
  | own op literal => rfl
  | foreign hColumn hColumn' op op' literal literal' =>
      rw [lower, lower, if_neg hColumn, if_neg hColumn']
  | constant value => rfl
  | combine op hLeft hRight ihl ihr =>
      have hRelevance := (Predicate.SameFor.combine op hLeft hRight).relevance_eq
      rw [lower, lower, hRelevance, ihl op, ihr op]

theorem ofPredicate_of_sameFor (h : p.SameFor field.name q) :
    ofPredicate field p = ofPredicate field q := by
  unfold ofPredicate
  cases field.type.lane? with
  | none => rfl
  | some lane => exact lower_of_sameFor h .and

/-- A kernel decides about a word as the restricted tree does. -/
theorem holds_eq_eval_restrict (h : lower field lane .and p = .ok c) (w : Nat) :
    c.holds w = (p.restrict field.name).eval fun _ op l => lane.answer w op l := by
  have hSeen : c.holds w =
      p.answerFor (fun _ op l => lane.answer w op l) field.name .and :=
    holds_of_lower h w fun _ _ => rfl
  rw [hSeen, Predicate.answerFor_eq_eval_restrict]

/-- The row evaluator answers for a restricted predicate from the value of the field. -/
theorem evaluate_restrict (hLane : field.type.lane? = some lane)
    (hAdmits : field.Admits p) {w : Nat} {s : Scalar} (hScalar : field.type.scalar? w = some s)
    {row : Row} (hRow : row field.name = .ok (some s)) :
    (p.restrict field.name).evaluate row =
      .ok ((p.restrict field.name).eval fun _ op l => lane.answer w op l) := by
  have hValues : ∀ name ∈ (p.restrict field.name).columns, row name = .ok (some s) := by
    intro name hName
    rw [Predicate.eq_of_mem_columns_restrict hName]
    exact hRow
  have hLeaf : ∀ name op l, (name, op, l) ∈ (p.restrict field.name).comparisons →
      ∀ s', some s = some s' → s'.satisfies op l = .ok (lane.answer w op l) := by
    rintro name op l hMem s' hSame
    obtain rfl := Option.some.inj hSame
    rw [Predicate.comparisons_restrict] at hMem
    obtain ⟨hMem, hName⟩ := List.mem_filter.mp hMem
    obtain rfl : name = field.name := by simpa using hName
    obtain ⟨s', hScalar', hAnswer⟩ := field.satisfies_of_canTest (hAdmits.2 op l hMem) hLane w
    rw [hScalar] at hScalar'
    rwa [Option.some.inj hScalar']
  have hEvaluate : (p.restrict field.name).evaluate row =
      .ok (((p.restrict field.name).columns.all fun _ => (some s).isSome) &&
        (p.restrict field.name).eval fun _ op l => lane.answer w op l) :=
    Predicate.evaluate_of_values hValues hLeaf
  -- The value of the field is not null, so the row is not rejected for one.
  have hNotNull : ((p.restrict field.name).columns.all fun _ => (some s).isSome) = true :=
    List.all_eq_true.mpr fun _ _ => rfl
  rw [hEvaluate, hNotNull, Bool.true_and]

/-- The condition of a kernel answers for every value of its field what the row evaluator
answers for the predicate restricted to the field.  A predicate that differs in its foreign
comparisons only has the same condition. -/
theorem holds_eq_evaluate_restrict (h : ofPredicate field p = .ok c) :
    (∀ w, ∃ s, field.type.scalar? w = some s ∧
      ∀ row : Row, row field.name = .ok (some s) →
        (p.restrict field.name).evaluate row = .ok (c.holds w)) ∧
      ∀ q, p.SameFor field.name q → ofPredicate field q = .ok c := by
  obtain ⟨lane, hLane, hLower⟩ := exists_lane_of_ofPredicate h
  have hAdmits := (exists_ofPredicate_iff field p).mp ⟨c, h⟩
  refine ⟨fun w => ?_, fun q hSame => ?_⟩
  · obtain ⟨s, hScalar⟩ :=
      DataType.exists_scalar? (DataType.isFixedWidth_of_isNumeric hAdmits.1) w
    refine ⟨s, hScalar, fun row hRow => ?_⟩
    rw [evaluate_restrict hLane hAdmits hScalar hRow, holds_eq_eval_restrict hLower]
  · rw [← ofPredicate_of_sameFor hSame, h]

/-- A conjunction over a disjunction over a conjunction, on three columns. -/
def nestedSample (onY onZ : Predicate) : Predicate :=
  .and (.compare "x" .gt (.integer 3))
    (.or onY (.and (.compare "x" .le (.integer 9)) (.or onZ (.constant false))))

/-- For `x` the tree says that it lies between three and nine, whatever it says of `y` and
of `z`. -/
theorem holds_nestedSample_eq_evaluate_restrict :
    ∃ c, ofPredicate { name := "x", type := .int32 }
          (nestedSample (.compare "y" .lt (.integer 5)) (.compare "z" .eq (.integer 1))) = .ok c ∧
      c.holds 4 = true ∧ c.holds 10 = false ∧
      (∀ w, ∃ s, DataType.int32.scalar? w = some s ∧ ∀ row : Row, row "x" = .ok (some s) →
        ((nestedSample (.compare "y" .lt (.integer 5))
          (.compare "z" .eq (.integer 1))).restrict "x").evaluate row = .ok (c.holds w)) ∧
      ofPredicate { name := "x", type := .int32 }
        (nestedSample (.compare "z" .ne (.string "n")) (.compare "y" .ge (.integer 7))) =
          .ok c := by
  have hLower : ofPredicate { name := "x", type := .int32 }
      (nestedSample (.compare "y" .lt (.integer 5)) (.compare "z" .eq (.integer 1))) =
        .ok (.combine .and (.test (.integer true 32 .gt 3#32)) (.combine .or (.constant false)
          (.combine .and (.test (.integer true 32 .le 9#32)) (.constant true)))) := rfl
  have hSame : (nestedSample (.compare "y" .lt (.integer 5))
      (.compare "z" .eq (.integer 1))).SameFor "x"
        (nestedSample (.compare "z" .ne (.string "n")) (.compare "y" .ge (.integer 7))) :=
    .combine .and (.own _ _) (.combine .or (.foreign (by decide) (by decide) _ _ _ _)
      (.combine .and (.own _ _) (.combine .or (.foreign (by decide) (by decide) _ _ _ _)
        (.constant false))))
  have h := holds_eq_evaluate_restrict hLower
  exact ⟨_, hLower, by decide, by decide, h.1, h.2 _ hSame⟩

end Columnar.Condition
