import Columnar.Binary.Rounding
import Columnar.Decimal.Layout

/-!
# Literals

The right-hand side of a comparison.  Integers are exact; everything with a
numeric meaning can also be read as a double.
-/

namespace Columnar

/-- A constant that a column is compared with. -/
inductive Literal where
  /-- Any integer that a signed or an unsigned machine word of 64 bits holds. -/
  | integer (value : Int)
  | float (value : Binary .double)
  | string (value : String)
  | bool (value : Bool)
  deriving DecidableEq

namespace Literal

/-- The literal of a single-precision value, which a double holds exactly. -/
def ofSingle (x : Binary .single) : Literal :=
  float (x.convert .double)

/-- Whether an integer literal needs an unsigned word: it lies above every signed
word of 64 bits. -/
def needsUnsigned : Literal → Bool
  | integer v => 2 ^ 63 ≤ v
  | _ => false

/-- What kind of constant it is, in messages. -/
def typeName : Literal → String
  | integer _ => "integer"
  | float _ => "float"
  | string _ => "string"
  | bool _ => "bool"

/-- The double nearest to the literal, if it is numeric. -/
def toDouble? : Literal → Option (Binary .double)
  | integer v => some (Binary.ofInt .double v)
  | float v => some v
  | string _ | bool _ => none

/-- The exact integer, if the literal is one. -/
def toInt? : Literal → Option Int
  | integer v => some v
  | float _ | string _ | bool _ => none

/-- The text of a literal in a predicate. -/
def text : Literal → String
  | integer v => toString v
  | float v => Layout.literal.write v
  | string s => "'" ++ s ++ "'"
  | bool b => if b then "true" else "false"

/-- Equality of values.  Floating-point literals are compared as numbers, so a
value that is not a number differs from itself and both zeros are equal. -/
def equal : Literal → Literal → Bool
  | integer a, integer b => a == b
  | float a, float b => a.compare? b == some .eq
  | string a, string b => a == b
  | bool a, bool b => a == b
  | _, _ => false

end Literal

end Columnar
