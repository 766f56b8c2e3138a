import Columnar.Predicate.Columns

/-!
# Relevance

A kernel sees one column.  The relevance of a subtree says which columns it compares, seen from
there: the column itself, others only, or none at all.  It is found from the leaves up.
-/

namespace Columnar

/-- Which columns a subtree compares, seen from one column. -/
inductive Relevance where
  /-- Some comparison is on the column. -/
  | own
  /-- There are comparisons, all on other columns. -/
  | foreign
  /-- There is no comparison. -/
  | constant
  deriving DecidableEq

namespace Relevance

/-- The relevance of a combination. -/
def combine : Relevance → Relevance → Relevance
  | own, _ | _, own => own
  | foreign, _ | _, foreign => foreign
  | constant, constant => constant

theorem combine_eq_own_iff (r s : Relevance) : r.combine s = own ↔ r = own ∨ s = own := by
  cases r <;> cases s <;> simp [combine]

theorem combine_eq_constant_iff (r s : Relevance) :
    r.combine s = constant ↔ r = constant ∧ s = constant := by
  cases r <;> cases s <;> simp [combine]

end Relevance

namespace Predicate

/-- Which columns a predicate compares, seen from the given column. -/
def relevance (name : String) : Predicate → Relevance
  | compare column _ _ => if column = name then .own else .foreign
  | constant _ => .constant
  | combine _ lhs rhs => (lhs.relevance name).combine (rhs.relevance name)

theorem relevance_eq_own_iff (name : String) (p : Predicate) :
    p.relevance name = .own ↔ p.mentions name = true := by
  induction p with
  | compare column op literal =>
      by_cases hEq : column = name <;> simp [relevance, mentions, hEq]
  | constant value => simp [relevance, mentions]
  | combine op lhs rhs ihl ihr =>
      rw [relevance, Relevance.combine_eq_own_iff, ihl, ihr, mentions, Bool.or_eq_true]

end Predicate

end Columnar
