import Columnar.Literal

/-!
# Predicates

A predicate is a tree of comparisons of one column with one literal, of constants,
and of conjunctions and disjunctions.  Columns are named; nothing is resolved until
a predicate meets a schema.
-/

namespace Columnar

/-- A comparison operator. -/
inductive Comparison where
  | gt | lt | ge | le | eq | ne
  deriving DecidableEq

namespace Comparison

/-- The operator in the text of a predicate. -/
def symbol : Comparison → String
  | gt => ">"
  | lt => "<"
  | ge => ">="
  | le => "<="
  | eq => "=="
  | ne => "!="

/-- Whether the operator accepts an order of its two sides. -/
def accepts : Comparison → Ordering → Bool
  | gt, o => o == .gt
  | lt, o => o == .lt
  | ge, o => o != .lt
  | le, o => o != .gt
  | eq, o => o == .eq
  | ne, o => o != .eq

/-- Sides without an order satisfy no operator, `ne` included. -/
def acceptsPartial (op : Comparison) : Option Ordering → Bool
  | none => false
  | some o => op.accepts o

end Comparison

/-- How two predicates are combined. -/
inductive Connective where
  | and | or
  deriving DecidableEq

namespace Connective

/-- The constant that leaves a combination unchanged. -/
def neutral : Connective → Bool
  | and => true
  | or => false

/-- The combination of two answers. -/
def apply : Connective → Bool → Bool → Bool
  | and, a, b => a && b
  | or, a, b => a || b

/-- The connective in the text of a predicate. -/
def symbol : Connective → String
  | and => "AND"
  | or => "OR"

@[simp]
theorem apply_neutral_left (c : Connective) (b : Bool) : c.apply c.neutral b = b := by
  cases c <;> rfl

@[simp]
theorem apply_neutral_right (c : Connective) (b : Bool) : c.apply b c.neutral = b := by
  cases c <;> cases b <;> rfl

end Connective

/-- A condition on one row of a table. -/
inductive Predicate where
  | compare (column : String) (op : Comparison) (literal : Literal)
  | constant (value : Bool)
  | combine (op : Connective) (lhs rhs : Predicate)
  deriving DecidableEq

namespace Predicate

/-- The conjunction of two predicates. -/
abbrev and (p q : Predicate) : Predicate := combine .and p q

/-- The disjunction of two predicates. -/
abbrev or (p q : Predicate) : Predicate := combine .or p q

/-- Number of nodes of the tree. -/
def nodeCount : Predicate → Nat
  | compare .. => 1
  | constant _ => 1
  | combine _ lhs rhs => 1 + lhs.nodeCount + rhs.nodeCount

/-- The text of a predicate.  Combinations are always in parentheses. -/
def text : Predicate → String
  | compare column op literal => column ++ " " ++ op.symbol ++ " " ++ literal.text
  | constant value => if value then "TRUE" else "FALSE"
  | combine op lhs rhs => "(" ++ lhs.text ++ " " ++ op.symbol ++ " " ++ rhs.text ++ ")"

/-- Equality of trees, with literals compared as values. -/
def equal : Predicate → Predicate → Bool
  | compare c op l, compare c' op' l' => c == c' && op == op' && l.equal l'
  | constant v, constant v' => v == v'
  | combine op p q, combine op' p' q' => op == op' && p.equal p' && q.equal q'
  | _, _ => false

end Predicate

end Columnar
