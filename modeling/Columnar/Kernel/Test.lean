import Columnar.DataType
import Columnar.Error
import Columnar.Predicate.Basic

/-!
# Tests on stored words

A comparison is lowered for the type of its column once, and then decides about
stored words without decoding them.  Integers of every width are compared as words
of that width, signed or unsigned; a literal outside the range of the type decides
the comparison on its own, and any other one is masked to the width.  Floating-point
literals are rounded to the width of the column, and halves are widened before they
are compared.
-/

namespace Columnar

namespace Comparison

/-- The operator on words read as signed numbers. -/
def acceptsSigned {bits : Nat} : Comparison → BitVec bits → BitVec bits → Bool
  | gt, a, b => b.slt a
  | lt, a, b => a.slt b
  | ge, a, b => b.sle a
  | le, a, b => a.sle b
  | eq, a, b => a == b
  | ne, a, b => a != b

/-- The operator on words read as unsigned numbers. -/
def acceptsUnsigned {bits : Nat} : Comparison → BitVec bits → BitVec bits → Bool
  | gt, a, b => b.ult a
  | lt, a, b => a.ult b
  | ge, a, b => b.ule a
  | le, a, b => a.ule b
  | eq, a, b => a == b
  | ne, a, b => a != b

end Comparison

/-- How the words of a type are compared. -/
inductive Lane where
  | integer (signed : Bool) (bits : Nat)
  | half
  | single
  | double
  deriving DecidableEq

/-- The lane of a type, for the types that kernels handle. -/
def DataType.lane? : DataType → Option Lane
  | int8 => some (.integer true 8)
  | int16 => some (.integer true 16)
  | int32 => some (.integer true 32)
  | int64 => some (.integer true 64)
  | uint8 => some (.integer false 8)
  | uint16 => some (.integer false 16)
  | uint32 => some (.integer false 32)
  | uint64 => some (.integer false 64)
  | half => some .half
  | float => some .single
  | double => some .double
  | bool | decimal128 | utf8 | list | struct => none

theorem DataType.lane?_isSome (t : DataType) : t.lane?.isSome = t.isNumeric := by
  cases t <;> rfl

/-- A comparison lowered for the words of one type. -/
inductive Test where
  /-- The literal lies outside the range of the type. -/
  | always (answer : Bool)
  | integer (signed : Bool) (bits : Nat) (op : Comparison) (operand : BitVec bits)
  | half (op : Comparison) (operand : Binary .single)
  | single (op : Comparison) (operand : Binary .single)
  | double (op : Comparison) (operand : Binary .double)

namespace Test

/-- Whether a stored word passes the test. -/
def holds : Test → Nat → Bool
  | always answer, _ => answer
  | integer true bits op operand, w => op.acceptsSigned (BitVec.ofNat bits w) operand
  | integer false bits op operand, w => op.acceptsUnsigned (BitVec.ofNat bits w) operand
  | half op operand, w =>
      op.acceptsPartial ((Binary.ofNat .half w).widen.compare? operand)
  | single op operand, w => op.acceptsPartial ((Binary.ofNat .single w).compare? operand)
  | double op operand, w => op.acceptsPartial ((Binary.ofNat .double w).compare? operand)

/-- The least integer of a width. -/
def leastInteger (signed : Bool) (bits : Nat) : Int :=
  if signed then -2 ^ (bits - 1) else 0

/-- The greatest integer of a width. -/
def greatestInteger (signed : Bool) (bits : Nat) : Int :=
  if signed then 2 ^ (bits - 1) - 1 else 2 ^ bits - 1

/-- The constant that words of a width are compared with: the two's complement of the
integer in 128 bits, masked to the width and kept in a word of 64 bits. -/
def immediate (bits : Nat) (n : Int) : BitVec 64 :=
  (BitVec.ofInt 128 n &&& BitVec.ofNat 128 (2 ^ bits - 1)).setWidth 64

/-- The test of words of a width against an integer.  Every word is below an integer
past the greatest one and above an integer past the least one. -/
def ofInteger (signed : Bool) (bits : Nat) (op : Comparison) (n : Int) : Test :=
  if greatestInteger signed bits < n then always (op.accepts .lt)
  else if n < leastInteger signed bits then always (op.accepts .gt)
  else integer signed bits op ((immediate bits n).setWidth bits)

end Test

/-- The test of a comparison in the given lane; `none` when the literal has no
meaning there. -/
def Lane.test? (lane : Lane) (op : Comparison) (l : Literal) : Option Test :=
  match lane with
  | integer signed bits => l.toInt?.map (Test.ofInteger signed bits op)
  | half => l.toDouble?.map fun d => .half op (d.convert .single)
  | single => l.toDouble?.map fun d => .single op (d.convert .single)
  | double => l.toDouble?.map (Test.double op)

end Columnar
