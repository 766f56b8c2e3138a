import Columnar.Predicate.Basic

/-!
# The columns of a predicate

`Predicate.columns` lists the columns that a predicate compares, each once, in the
order in which a left-to-right traversal first meets them.  `Predicate.isSeparable`
says that no disjunction spans two columns, so that the predicate is a conjunction
of conditions on single columns.
-/

namespace Columnar.Predicate

/-- Adds the columns of a predicate behind the ones already seen. -/
def collectColumns (seen : List String) : Predicate → List String
  | compare column _ _ => if column ∈ seen then seen else seen ++ [column]
  | constant _ => seen
  | combine _ lhs rhs => collectColumns (collectColumns seen lhs) rhs

/-- The columns that a predicate compares, in order of first appearance. -/
def columns (p : Predicate) : List String :=
  collectColumns [] p

/-- Whether some comparison is on the given column. -/
def mentions (name : String) : Predicate → Bool
  | compare column _ _ => column == name
  | constant _ => false
  | combine _ lhs rhs => lhs.mentions name || rhs.mentions name

/-- No disjunction spans two columns. -/
def isSeparable : Predicate → Bool
  | compare .. => true
  | constant _ => true
  | combine .and lhs rhs => lhs.isSeparable && rhs.isSeparable
  | combine .or lhs rhs => (combine .or lhs rhs).columns.length ≤ 1

theorem mem_collectColumns (name : String) (seen : List String) (p : Predicate) :
    name ∈ collectColumns seen p ↔ name ∈ seen ∨ p.mentions name = true := by
  induction p generalizing seen with
  | compare column op literal =>
      by_cases hSeen : column ∈ seen
      · simp only [collectColumns, hSeen, if_true, mentions, beq_iff_eq]
        constructor
        · exact Or.inl
        · rintro (hMem | rfl)
          · exact hMem
          · exact hSeen
      · rw [collectColumns, if_neg hSeen, List.mem_append, List.mem_singleton,
          mentions, beq_iff_eq, @eq_comm _ name column]
  | constant value => simp [collectColumns, mentions]
  | combine op lhs rhs ihl ihr =>
      simp [collectColumns, mentions, ihl, ihr, or_assoc]

/-- A column is listed exactly when some comparison is on it. -/
theorem mem_columns (name : String) (p : Predicate) :
    name ∈ p.columns ↔ p.mentions name = true := by
  simp [columns, mem_collectColumns]

end Columnar.Predicate
