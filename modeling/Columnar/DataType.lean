/-!
# Element types

`DataType` lists the physical layouts of a column: fixed-width elements, text,
and the nested types that are only named.  The width of an element decides how
value bytes are cut, and the family decides which kernels a column may have.
-/

namespace Columnar

/-- The physical layout of the elements of a column. -/
inductive DataType where
  | bool
  | int8 | int16 | int32 | int64
  | uint8 | uint16 | uint32 | uint64
  | half | float | double
  | decimal128
  | utf8
  | list
  | struct
  deriving DecidableEq

namespace DataType

/-- The stable numeric code of a type. -/
def code : DataType → Nat
  | bool => 1
  | int8 => 2
  | int16 => 3
  | int32 => 4
  | int64 => 5
  | uint8 => 6
  | uint16 => 7
  | uint32 => 8
  | uint64 => 9
  | half => 10
  | float => 11
  | double => 12
  | decimal128 => 13
  | utf8 => 20
  | list => 22
  | struct => 24

/-- The name of a type in schemas and messages. -/
def name : DataType → String
  | bool => "BOOL"
  | int8 => "INT8"
  | int16 => "INT16"
  | int32 => "INT32"
  | int64 => "INT64"
  | uint8 => "UINT8"
  | uint16 => "UINT16"
  | uint32 => "UINT32"
  | uint64 => "UINT64"
  | half => "HALF"
  | float => "FLOAT"
  | double => "DOUBLE"
  | decimal128 => "DECIMAL128"
  | utf8 => "UTF8"
  | list => "LIST"
  | struct => "STRUCT"

/-- Bytes of one element; `none` for text and nested types. -/
def width? : DataType → Option Nat
  | bool | int8 | uint8 => some 1
  | int16 | uint16 | half => some 2
  | int32 | uint32 | float => some 4
  | int64 | uint64 | double => some 8
  | decimal128 => some 16
  | utf8 | list | struct => none

/-- Bytes of one element, zero for text and nested types. -/
def width (t : DataType) : Nat :=
  t.width?.getD 0

/-- Whether every element takes the same number of bytes. -/
def isFixedWidth (t : DataType) : Bool :=
  t.width?.isSome

def isSignedInteger : DataType → Bool
  | int8 | int16 | int32 | int64 => true
  | _ => false

def isUnsignedInteger : DataType → Bool
  | uint8 | uint16 | uint32 | uint64 => true
  | _ => false

def isFloat : DataType → Bool
  | half | float | double => true
  | _ => false

/-- Whether columns of the type can be filtered by a kernel. -/
def isNumeric (t : DataType) : Bool :=
  t.isSignedInteger || t.isUnsignedInteger || t.isFloat

theorem width_pos_iff (t : DataType) : 0 < t.width ↔ t.isFixedWidth = true := by
  cases t <;> decide

theorem isFixedWidth_of_isNumeric {t : DataType} (h : t.isNumeric = true) :
    t.isFixedWidth = true := by
  revert h
  cases t <;> decide

theorem width?_eq_some_iff (t : DataType) (w : Nat) :
    t.width? = some w ↔ t.isFixedWidth = true ∧ t.width = w := by
  cases t <;> simp [width?, width, isFixedWidth]

end DataType

end Columnar
