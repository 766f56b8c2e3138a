import Columnar.Kernel.Condition
import Columnar.Proofs.Kernel.Comparison
import Columnar.Proofs.Predicate.Decomposition
import Columnar.Proofs.Result

/-!
# Lowering a predicate for a field

A predicate is lowered for one field, and what remains is a condition on words.  The
condition decides about a word as the predicate does from the point of view of the
field, and lowering is refused only at a comparison that the field cannot make.

* `holds_of_lower` -- the condition of a predicate answers what `Predicate.answerFor`
  answers when the comparisons on the field are decided by their tests.
* `validate_eq_ok_iff` -- which predicates a field admits.
* `Field.satisfies_of_canTest` -- a field that can make a comparison can make it for
  every one of its elements.
-/

namespace Columnar

/-- Elements of the field can be compared with the literal. -/
def Field.CanTest (field : Field) (op : Comparison) (l : Literal) : Prop :=
  ∃ lane test, field.type.lane? = some lane ∧ lane.test? op l = some test

/-- The field can make every comparison that a predicate makes on it. -/
def Field.Admits (field : Field) (p : Predicate) : Prop :=
  field.type.isNumeric = true ∧
    ∀ op l, (field.name, op, l) ∈ p.comparisons → field.CanTest op l

/-- The answer of a comparison on one field for a word. -/
def Lane.answer (lane : Lane) (w : Nat) (op : Comparison) (l : Literal) : Bool :=
  match lane.test? op l with
  | some test => test.holds w
  | none => false

theorem Lane.answer_of_test {lane : Lane} {op : Comparison} {l : Literal} {test : Test}
    (h : lane.test? op l = some test) (w : Nat) : lane.answer w op l = test.holds w := by
  simp [answer, h]

/-- Words of a field that can make a comparison decode to scalars that can be compared,
and the scalars are compared as the words are. -/
theorem Field.satisfies_of_canTest {field : Field} {op : Comparison} {l : Literal}
    (h : field.CanTest op l) {lane : Lane} (hLane : field.type.lane? = some lane) (w : Nat) :
    ∃ s, field.type.scalar? w = some s ∧ s.satisfies op l = .ok (lane.answer w op l) := by
  obtain ⟨lane', test, hLane', hTest⟩ := h
  obtain rfl := Option.some.inj (hLane.symm.trans hLane')
  rw [Lane.answer_of_test hTest]
  exact Lane.satisfies_eq_holds hLane hTest w

namespace Condition

variable {field : Field} {lane : Lane}

/-- The condition of a predicate decides about a word as the predicate does, seen from
the field. -/
theorem holds_of_lower {p : Predicate} {enclosing : Connective} {c : Condition}
    (h : lower field lane enclosing p = .ok c) (w : Nat)
    {leaf : String → Comparison → Literal → Bool}
    (hLeaf : ∀ op l, leaf field.name op l = lane.answer w op l) :
    c.holds w = p.answerFor leaf field.name enclosing := by
  induction p generalizing enclosing c with
  | compare column op l =>
      by_cases hName : column = field.name
      · rw [lower, if_pos hName] at h
        rw [Predicate.answerFor, if_pos hName, hName, hLeaf]
        cases hTest : lane.test? op l with
        | none => simp [hTest] at h
        | some test =>
            obtain rfl : Condition.test test = c := by simpa [hTest] using h
            exact (Lane.answer_of_test hTest w).symm
      · rw [lower, if_neg hName] at h
        obtain rfl := Except.ok.inj h
        exact (if_neg hName).symm
  | constant value =>
      obtain rfl := Except.ok.inj h
      rfl
  | combine op lhs rhs ihl ihr =>
      by_cases hForeign : (Predicate.combine op lhs rhs).relevance field.name = .foreign
      · rw [lower, if_pos hForeign] at h
        obtain rfl := Except.ok.inj h
        exact (if_pos hForeign).symm
      · rw [lower, if_neg hForeign, Result.bind_eq_ok_iff] at h
        obtain ⟨left, hLeft, hRest⟩ := h
        obtain ⟨right, hRight, hCombine⟩ := Result.bind_eq_ok_iff.mp hRest
        obtain rfl := Except.ok.inj hCombine
        rw [holds, ihl hLeft, ihr hRight, Predicate.answerFor, if_neg hForeign]

/-- A comparison is lowered unless it is on the column of the field and has no test. -/
theorem exists_lower_compare_iff (field : Field) (lane : Lane) (enclosing : Connective)
    (column : String) (op : Comparison) (l : Literal) :
    (∃ c, lower field lane enclosing (.compare column op l) = .ok c) ↔
      (column = field.name → ∃ test, lane.test? op l = some test) := by
  by_cases hName : column = field.name
  · rw [lower, if_pos hName]
    cases hTest : lane.test? op l with
    | none => simp [hName]
    | some test => exact iff_of_true ⟨_, rfl⟩ fun _ => ⟨test, rfl⟩
  · rw [lower, if_neg hName]
    exact iff_of_true ⟨_, rfl⟩ fun hSame => absurd hSame hName

/-- Lowering is refused only at a comparison without a test. -/
theorem exists_lower_iff (field : Field) (lane : Lane) (enclosing : Connective)
    (p : Predicate) :
    (∃ c, lower field lane enclosing p = .ok c) ↔
      ∀ op l, (field.name, op, l) ∈ p.comparisons → ∃ test, lane.test? op l = some test := by
  induction p generalizing enclosing with
  | compare column op l =>
      rw [exists_lower_compare_iff]
      simp only [Predicate.comparisons, List.mem_singleton, Prod.mk.injEq]
      constructor
      · rintro h _ _ ⟨hName, rfl, rfl⟩
        exact h hName.symm
      · exact fun h hName => h op l ⟨hName.symm, rfl, rfl⟩
  | constant value =>
      exact iff_of_true ⟨_, rfl⟩ fun op l hMem => absurd hMem (by simp [Predicate.comparisons])
  | combine op lhs rhs ihl ihr =>
      by_cases hForeign : (Predicate.combine op lhs rhs).relevance field.name = .foreign
      · -- A foreign subtree has no comparison on the column, so nothing can be refused.
        rw [lower, if_pos hForeign]
        refine iff_of_true ⟨_, rfl⟩ fun op' l' hMem => ?_
        have hOwn := (Predicate.mentions_iff_exists field.name _).mpr ⟨op', l', hMem⟩
        rw [((Predicate.relevance_eq_foreign_iff _ _).mp hForeign).1] at hOwn
        exact absurd hOwn (by simp)
      · rw [lower, if_neg hForeign]
        simp only [Predicate.comparisons, List.mem_append, or_imp, forall_and, ← ihl op,
          ← ihr op, Result.bind_eq_ok_iff]
        constructor
        · rintro ⟨_, left, hLeft, right, hRight, -⟩
          exact ⟨⟨left, hLeft⟩, ⟨right, hRight⟩⟩
        · rintro ⟨⟨left, hLeft⟩, ⟨right, hRight⟩⟩
          exact ⟨_, left, hLeft, right, hRight, rfl⟩

/-- A predicate can be lowered for a field exactly when the field admits it. -/
theorem exists_ofPredicate_iff (field : Field) (p : Predicate) :
    (∃ c, ofPredicate field p = .ok c) ↔ field.Admits p := by
  have hNumeric := DataType.lane?_isSome field.type
  unfold ofPredicate Field.Admits Field.CanTest
  cases hLane : field.type.lane? with
  | none =>
      rw [hLane] at hNumeric
      simp [← hNumeric]
  | some lane =>
      rw [hLane] at hNumeric
      simp [← hNumeric, exists_lower_iff]

theorem validate_eq_ok_iff (field : Field) (p : Predicate) :
    validate field p = .ok () ↔ field.Admits p := by
  rw [← exists_ofPredicate_iff, validate, Result.bind_eq_ok_iff]
  simp [pure, Except.pure]

end Condition

end Columnar
