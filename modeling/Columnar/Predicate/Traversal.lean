import Columnar.Predicate.Basic

/-!
# Traversal of expressions

The leaves of an expression in the order in which a left-to-right traversal meets
them: a comparison shows its column and then its literal.
-/

namespace Columnar

/-- A leaf met by a traversal. -/
inductive Leaf where
  | column (name : String)
  | literal (value : Literal)
  | constant (value : Bool)

/-- The leaves of a predicate, left to right. -/
def Predicate.leaves : Predicate → List Leaf
  | compare column _ literal => [.column column, .literal literal]
  | constant value => [.constant value]
  | combine _ lhs rhs => lhs.leaves ++ rhs.leaves

/-- Anything that can stand as an expression of its own. -/
inductive Expression where
  | column (name : String)
  | literal (value : Literal)
  | predicate (value : Predicate)

namespace Expression

/-- The text of an expression. -/
def text : Expression → String
  | column name => name
  | literal value => value.text
  | predicate value => value.text

/-- The leaves of an expression, left to right. -/
def leaves : Expression → List Leaf
  | column name => [.column name]
  | literal value => [.literal value]
  | predicate value => value.leaves

end Expression

end Columnar
