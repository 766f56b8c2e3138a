import Columnar.Binary.Rounding
import Columnar.DataType
import Columnar.Decimal.Layout

/-!
# Decoded values

A stored element is a word of as many bytes as its type is wide.  `Native t` is
what a column of type `t` holds, `Native.toWord` and `Native.ofWord?` pass between
the two, and `Scalar` groups decoded values by how they are compared.
-/

namespace Columnar

/-- One decoded element, grouped by comparison family.  Halves are widened. -/
inductive Scalar where
  | signed (value : Int)
  | unsigned (value : Nat)
  | single (value : Binary .single)
  | double (value : Binary .double)
  | decimal (value : Int)
  | bool (value : Bool)
  | string (value : String)
  deriving DecidableEq

/-- The text of a decoded element. -/
def Scalar.text : Scalar → String
  | signed v => toString v
  | unsigned v => toString v
  | single v => Layout.stored.write v
  | double v => Layout.stored.write v
  | decimal v => toString v
  | bool b => if b then "true" else "false"
  | string s => s

/-- What a column of a given type holds, element by element.  Text and nested
elements have no fixed-width form. -/
def Native : DataType → Type
  | .bool => Bool
  | .int8 | .uint8 => BitVec 8
  | .int16 | .uint16 => BitVec 16
  | .int32 | .uint32 => BitVec 32
  | .int64 | .uint64 => BitVec 64
  | .half => Binary .half
  | .float => Binary .single
  | .double => Binary .double
  | .decimal128 => BitVec 128
  | .utf8 | .list | .struct => Empty

namespace Native

/-- The stored word of an element. -/
def toWord : (t : DataType) → Native t → Nat
  | .bool, b => Bool.toNat b
  | .int8, v | .uint8, v => BitVec.toNat v
  | .int16, v | .uint16, v => BitVec.toNat v
  | .int32, v | .uint32, v => BitVec.toNat v
  | .int64, v | .uint64, v => BitVec.toNat v
  | .half, v => Binary.toNat v
  | .float, v => Binary.toNat v
  | .double, v => Binary.toNat v
  | .decimal128, v => BitVec.toNat v
  | .utf8, v | .list, v | .struct, v => Empty.elim v

/-- The element of a stored word.  Any word but zero is a true boolean. -/
def ofWord? : (t : DataType) → Nat → Option (Native t)
  | .bool, w => some (w != 0 : Bool)
  | .int8, w | .uint8, w => some (BitVec.ofNat 8 w)
  | .int16, w | .uint16, w => some (BitVec.ofNat 16 w)
  | .int32, w | .uint32, w => some (BitVec.ofNat 32 w)
  | .int64, w | .uint64, w => some (BitVec.ofNat 64 w)
  | .half, w => some (Binary.ofNat .half w)
  | .float, w => some (Binary.ofNat .single w)
  | .double, w => some (Binary.ofNat .double w)
  | .decimal128, w => some (BitVec.ofNat 128 w)
  | .utf8, _ | .list, _ | .struct, _ => none

/-- The scalar of an element, widened to its family. -/
def toScalar : (t : DataType) → Native t → Scalar
  | .bool, b => .bool b
  | .int8, v => .signed (BitVec.toInt v)
  | .int16, v => .signed (BitVec.toInt v)
  | .int32, v => .signed (BitVec.toInt v)
  | .int64, v => .signed (BitVec.toInt v)
  | .uint8, v => .unsigned (BitVec.toNat v)
  | .uint16, v => .unsigned (BitVec.toNat v)
  | .uint32, v => .unsigned (BitVec.toNat v)
  | .uint64, v => .unsigned (BitVec.toNat v)
  | .half, v => .single (Binary.widen v)
  | .float, v => .single v
  | .double, v => .double v
  | .decimal128, v => .decimal (BitVec.toInt v)
  | .utf8, v | .list, v | .struct, v => Empty.elim v

end Native

/-- The scalar of a stored word, for types of fixed width. -/
def DataType.scalar? (t : DataType) (word : Nat) : Option Scalar :=
  (Native.ofWord? t word).map (Native.toScalar t)

end Columnar
