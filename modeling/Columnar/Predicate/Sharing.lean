import Columnar.Predicate.Basic

/-!
# Shared subtrees

Trees are built from nodes that other trees may use too.  A `Shared` tree labels
every comparison and combination with the construction that made it, so that two
uses of one construction can be told from two constructions with the same text.
Constants have no identity beyond their value.
-/

namespace Columnar

/-- A predicate whose nodes remember the construction that made them. -/
inductive Shared where
  | compare (label : Nat) (column : String) (op : Comparison) (literal : Literal)
  | constant (value : Bool)
  | combine (label : Nat) (op : Connective) (lhs rhs : Shared)

/-- One construction over the nodes made before. -/
inductive Construction where
  | compare (column : String) (op : Comparison) (literal : Literal)
  | constant (value : Bool)
  | combine (op : Connective) (lhs rhs : Nat)

/-- A side of a combination. -/
inductive Side where
  | left | right

namespace Shared

/-- The predicate, without labels. -/
def predicate : Shared → Predicate
  | compare _ column op literal => .compare column op literal
  | constant value => .constant value
  | combine _ op lhs rhs => .combine op lhs.predicate rhs.predicate

/-- Whether two nodes come from one construction. -/
def isSameNode : Shared → Shared → Bool
  | compare label .., compare label' .. => label == label'
  | constant value, constant value' => value == value'
  | combine label .., combine label' .. => label == label'
  | _, _ => false

/-- The operand on one side of a combination. -/
def operand? : Shared → Side → Option Shared
  | combine _ _ lhs _, .left => some lhs
  | combine _ _ _ rhs, .right => some rhs
  | _, _ => none

/-- The node at the end of a path of operands. -/
def descend? (node : Shared) (path : List Side) : Option Shared :=
  path.foldlM operand? node

/-- Adds the node of one construction; `none` when an operand is missing. -/
def extend? (nodes : Array Shared) : Construction → Option (Array Shared)
  | .compare column op literal => some (nodes.push (.compare nodes.size column op literal))
  | .constant value => some (nodes.push (.constant value))
  | .combine op i j => do
      return nodes.push (.combine nodes.size op (← nodes[i]?) (← nodes[j]?))

/-- The nodes of a list of constructions. -/
def build? (constructions : List Construction) : Option (Array Shared) :=
  constructions.foldlM extend? #[]

end Shared

end Columnar
