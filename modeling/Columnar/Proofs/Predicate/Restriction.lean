import Columnar.Predicate.Restriction
import Columnar.Proofs.Predicate.Decomposition

/-!
# What a restricted predicate keeps

`Predicate.restrict` deletes what compares other columns, and `Predicate.answerFor` puts
neutral constants in the same places.  Both give the same answer, however conjunctions,
disjunctions, constants and foreign comparisons are nested: a neutral constant is chosen
from the nearest combination around it, and exactly the foreign subtrees are deleted, so
that a combination that is kept always keeps one of its operands.

* `isForeign_iff` -- occurrence of columns decides what a kernel finds from the leaves up.
* `restrict?_eq_none_iff` -- a tree is deleted exactly when it is foreign.
* `comparisons_restrict` -- the comparisons that are left are those on the column.
* `answerFor_eq_eval_restrict` -- the restricted tree gives the answer for the column.
* `SameFor` -- trees that differ in their foreign comparisons only.
-/

namespace Columnar

theorem Relevance.combine_eq_foreign_iff (r s : Relevance) :
    r.combine s = foreign ↔ r ≠ own ∧ s ≠ own ∧ (r = foreign ∨ s = foreign) := by
  cases r <;> cases s <;> simp [combine]

namespace Predicate

variable {leaf : String → Comparison → Literal → Bool} {name : String}

/-- What compares other columns only is what a kernel for the column sees as foreign. -/
theorem isForeign_iff (name : String) (p : Predicate) :
    p.isForeign name = true ↔ p.relevance name = .foreign := by
  rw [isForeign, Bool.and_eq_true, Bool.not_eq_true', List.any_eq_true, relevance_eq_foreign_iff]
  refine and_congr_right fun hNot => exists_congr fun column => ?_
  rw [mem_columns, and_iff_left_iff_imp, bne_iff_ne]
  rintro hMentioned rfl
  rw [hNot] at hMentioned
  exact absurd hMentioned (by simp)

/-- The restriction of a combination that is not foreign. -/
theorem restrict?_combine {op : Connective} {lhs rhs : Predicate}
    (h : (combine op lhs rhs).relevance name ≠ .foreign) :
    (combine op lhs rhs).restrict? name =
      match lhs.restrict? name, rhs.restrict? name with
      | some left, some right => some (combine op left right)
      | some left, none => some left
      | none, some right => some right
      | none, none => none :=
  if_neg (mt (isForeign_iff name _).mp h)

/-- A tree is deleted exactly when it compares other columns only. -/
theorem restrict?_eq_none_iff (name : String) (p : Predicate) :
    p.restrict? name = none ↔ p.relevance name = .foreign := by
  induction p with
  | compare column op literal =>
      by_cases hName : column = name <;> simp [restrict?, relevance, hName]
  | constant value => simp [restrict?, relevance]
  | combine op lhs rhs ihl ihr =>
      by_cases hForeign : (combine op lhs rhs).relevance name = .foreign
      · exact iff_of_true (if_pos ((isForeign_iff name _).mpr hForeign)) hForeign
      · -- An operand of a tree that is kept is kept too.
        have hOperand : ¬ (lhs.restrict? name = none ∧ rhs.restrict? name = none) := by
          rintro ⟨hLeft, hRight⟩
          refine hForeign ((Relevance.combine_eq_foreign_iff _ _).mpr ?_)
          rw [ihl.mp hLeft, ihr.mp hRight]
          exact ⟨by simp, by simp, .inl rfl⟩
        refine iff_of_false ?_ hForeign
        rw [restrict?_combine hForeign]
        cases hLeft : lhs.restrict? name <;> cases hRight : rhs.restrict? name <;>
          simp_all

/-- A foreign tree has no comparison on the column. -/
theorem filter_comparisons_eq_nil {p : Predicate} (h : p.relevance name = .foreign) :
    p.comparisons.filter (fun entry => entry.1 = name) = [] := by
  refine List.filter_eq_nil_iff.mpr fun entry hMem hName => ?_
  obtain ⟨column, op, l⟩ := entry
  obtain rfl : column = name := by simpa using hName
  have hOwn := (mentions_iff_exists column p).mpr ⟨op, l, hMem⟩
  rw [((relevance_eq_foreign_iff _ _).mp h).1] at hOwn
  exact absurd hOwn (by simp)

/-- The comparisons that are left when a tree may be deleted. -/
def comparisonsLeft (left : Option Predicate) : List (String × Comparison × Literal) :=
  left.elim [] comparisons

/-- Deleting keeps the comparisons on the column, in order, and no other. -/
theorem comparisonsLeft_restrict? (name : String) (p : Predicate) :
    comparisonsLeft (p.restrict? name) =
      p.comparisons.filter fun entry => entry.1 = name := by
  induction p with
  | compare column op literal =>
      by_cases hName : column = name <;>
        simp [restrict?, comparisonsLeft, comparisons, hName]
  | constant value => rfl
  | combine op lhs rhs ihl ihr =>
      by_cases hForeign : (combine op lhs rhs).relevance name = .foreign
      · rw [(restrict?_eq_none_iff _ _).mpr hForeign, filter_comparisons_eq_nil hForeign]
        rfl
      · rw [comparisons, List.filter_append, ← ihl, ← ihr, restrict?_combine hForeign]
        cases lhs.restrict? name <;> cases rhs.restrict? name <;>
          simp [comparisonsLeft, comparisons]

/-- The comparisons of a restricted tree are those of the tree on the column. -/
theorem comparisons_restrict (name : String) (p : Predicate) :
    (p.restrict name).comparisons = p.comparisons.filter fun entry => entry.1 = name := by
  rw [← comparisonsLeft_restrict?, restrict]
  cases p.restrict? name <;> rfl

/-- The answer of what is left of a tree, or the neutral constant when nothing is left,
is the answer of the tree seen from the column. -/
theorem answerFor_eq_elim_restrict? (leaf : String → Comparison → Literal → Bool)
    (name : String) (enclosing : Connective) (p : Predicate) :
    p.answerFor leaf name enclosing =
      (p.restrict? name).elim enclosing.neutral (eval leaf) := by
  induction p generalizing enclosing with
  | compare column op literal =>
      by_cases hName : column = name <;> simp [answerFor, restrict?, eval, hName]
  | constant value => rfl
  | combine op lhs rhs ihl ihr =>
      by_cases hForeign : (combine op lhs rhs).relevance name = .foreign
      · rw [answerFor_of_foreign hForeign, (restrict?_eq_none_iff _ _).mpr hForeign]
        rfl
      · have hKept : (combine op lhs rhs).restrict? name ≠ none :=
          fun hNone => hForeign ((restrict?_eq_none_iff _ _).mp hNone)
        rw [answerFor, if_neg hForeign, ihl op, ihr op]
        rw [restrict?_combine hForeign] at hKept ⊢
        -- The operand that is deleted leaves the neutral constant of this combination.
        cases hLeft : lhs.restrict? name with
        | none =>
            cases hRight : rhs.restrict? name with
            | none => simp [hLeft, hRight] at hKept
            | some right => simp
        | some left =>
            cases hRight : rhs.restrict? name with
            | none => simp
            | some right => simp [eval]

/-- Around the whole tree the neutral constant is true, as a tree without conditions is. -/
theorem answerFor_eq_eval_restrict (leaf : String → Comparison → Literal → Bool)
    (name : String) (p : Predicate) :
    p.answerFor leaf name .and = (p.restrict name).eval leaf := by
  rw [answerFor_eq_elim_restrict?, restrict]
  cases p.restrict? name <;> rfl

/-- A restricted tree compares at most the column. -/
theorem eq_of_mem_columns_restrict {p : Predicate} {column : String}
    (h : column ∈ (p.restrict name).columns) : column = name := by
  obtain ⟨op, l, hMem⟩ := (mentions_iff_exists column _).mp ((mem_columns column _).mp h)
  rw [comparisons_restrict] at hMem
  simpa using (List.mem_filter.mp hMem).2

/-- Two trees of the same shape that differ at most in column, operator and literal of
their comparisons on other columns. -/
inductive SameFor (name : String) : Predicate → Predicate → Prop
  | own (op : Comparison) (literal : Literal) :
      SameFor name (compare name op literal) (compare name op literal)
  | foreign {column column' : String} (hColumn : column ≠ name) (hColumn' : column' ≠ name)
      (op op' : Comparison) (literal literal' : Literal) :
      SameFor name (compare column op literal) (compare column' op' literal')
  | constant (value : Bool) : SameFor name (constant value) (constant value)
  | combine (op : Connective) {lhs lhs' rhs rhs' : Predicate} (hLeft : SameFor name lhs lhs')
      (hRight : SameFor name rhs rhs') :
      SameFor name (combine op lhs rhs) (combine op lhs' rhs')

theorem SameFor.relevance_eq {p q : Predicate} (h : SameFor name p q) :
    p.relevance name = q.relevance name := by
  induction h with
  | own op literal => rfl
  | foreign hColumn hColumn' op op' literal literal' =>
      simp [relevance, hColumn, hColumn']
  | constant value => rfl
  | combine op hLeft hRight ihl ihr => rw [relevance, relevance, ihl, ihr]

end Predicate

end Columnar
