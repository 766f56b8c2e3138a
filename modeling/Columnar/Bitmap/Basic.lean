import Columnar.Bitmap.Byte

/-!
# Bitmaps

A bitmap holds one bit per row, packed into as many bytes as are needed; selections
and validity share the layout.  Bits past the length are padding.  Constructors
fill the padding in different ways, and no question about rows depends on it.
-/

namespace Columnar

/-- Bytes that hold `length` bits. -/
def bytesFor (length : Nat) : Nat :=
  (length + 7) / 8

theorem div_lt_bytesFor {i length : Nat} (h : i < length) : i / 8 < bytesFor length := by
  unfold bytesFor
  omega

/-- A list of bits, eight to a byte, the first of each eight at the high end. -/
structure Bitmap where
  bytes : Array UInt8
  length : Nat
  size_eq : bytes.size = bytesFor length
  deriving DecidableEq

namespace Bitmap

/-- Every bit is set, padding included. -/
def allSet (length : Nat) : Bitmap where
  bytes := Array.replicate (bytesFor length) 0xff
  length := length
  size_eq := Array.size_replicate

/-- Every bit is clear, padding included. -/
def allClear (length : Nat) : Bitmap where
  bytes := Array.replicate (bytesFor length) 0
  length := length
  size_eq := Array.size_replicate

/-- The given bits; padding is clear. -/
def ofBools (bits : List Bool) : Bitmap :=
  let row := bits.toArray
  { bytes := Array.ofFn (n := bytesFor bits.length) fun group =>
      Byte.pack fun j => row[8 * group.val + j]?.getD false
    length := bits.length
    size_eq := Array.size_ofFn }

/-- The bits of the given bytes, cut to `length`; missing bytes are all ones. -/
def ofBytes (bytes : Array UInt8) (length : Nat) : Bitmap where
  bytes := Array.ofFn (n := bytesFor length) fun i => bytes[i.val]?.getD 0xff
  length := length
  size_eq := Array.size_ofFn

/-- Replaces the bytes, keeping their number. -/
def withBytes (b : Bitmap) (bytes : Array UInt8) (h : bytes.size = b.bytes.size) : Bitmap where
  bytes := bytes
  length := b.length
  size_eq := h.trans b.size_eq

/-- The bit of row `i`. -/
def get (b : Bitmap) (i : Nat) : Bool :=
  Byte.bit (b.bytes[i / 8]?.getD 0) i

/-- Changes the bit of row `i`. -/
def set (b : Bitmap) (i : Nat) (value : Bool) : Bitmap :=
  b.withBytes
    (b.bytes.modify (i / 8) fun byte =>
      if value then byte ||| bitMask i else byte &&& ~~~bitMask i)
    (Array.size_modify ..)

/-- Replaces one whole byte, padding included. -/
def setByte (b : Bitmap) (index : Nat) (byte : UInt8) : Bitmap :=
  b.withBytes (b.bytes.setIfInBounds index byte) (Array.size_setIfInBounds ..)

/-- Keeps the rows that both bitmaps have. -/
def and (b other : Bitmap) : Bitmap :=
  b.withBytes
    (b.bytes.mapIdx fun i byte => byte &&& other.bytes[i]?.getD 0xff)
    Array.size_mapIdx

/-- Keeps the rows that either bitmap has. -/
def or (b other : Bitmap) : Bitmap :=
  b.withBytes
    (b.bytes.mapIdx fun i byte => byte ||| other.bytes[i]?.getD 0)
    Array.size_mapIdx

/-- Number of set bits among the rows.  Whole bytes are counted at once, and the
last byte is cut to the rows it holds. -/
def count (b : Bitmap) : Nat :=
  let whole := b.length / 8
  let rest := b.length % 8
  let counted := (b.bytes.toList.take whole).foldl (fun n byte => n + Byte.popcount byte) 0
  if rest = 0 then counted
  else
    let last := b.bytes[whole]?.getD 0
    counted + Byte.popcount (last &&& Byte.pack fun j => j < rest)

/-- The bits of the rows, in order. -/
def toList (b : Bitmap) : List Bool :=
  (List.range b.length).map b.get

/-- The rows whose bit is set, in ascending order. -/
def setIndices (b : Bitmap) : List Nat :=
  (List.range b.length).filter b.get

@[simp]
theorem length_toList (b : Bitmap) : b.toList.length = b.length := by
  simp [toList]

@[simp]
theorem length_withBytes (b : Bitmap) (bytes : Array UInt8) (h) :
    (b.withBytes bytes h).length = b.length := rfl

@[simp]
theorem bytes_withBytes (b : Bitmap) (bytes : Array UInt8) (h) :
    (b.withBytes bytes h).bytes = bytes := rfl

@[simp]
theorem length_set (b : Bitmap) (i : Nat) (value : Bool) :
    (b.set i value).length = b.length := rfl

@[simp]
theorem length_and (b other : Bitmap) : (b.and other).length = b.length := rfl

@[simp]
theorem length_or (b other : Bitmap) : (b.or other).length = b.length := rfl

@[simp]
theorem length_ofBools (bits : List Bool) : (ofBools bits).length = bits.length := rfl

theorem lt_size {b : Bitmap} {i : Nat} (h : i < b.length) : i / 8 < b.bytes.size := by
  rw [b.size_eq]
  exact div_lt_bytesFor h

/-- A bitmap is its length and the bits of its bytes, padding included. -/
theorem eq_of_bits {b other : Bitmap} (hLength : b.length = other.length)
    (hBits : ∀ j < b.bytes.size, ∀ i < 8,
      Byte.bit (b.bytes[j]?.getD 0) i = Byte.bit (other.bytes[j]?.getD 0) i) : b = other := by
  have hSize : b.bytes.size = other.bytes.size := by
    rw [b.size_eq, other.size_eq, hLength]
  have hBytes : b.bytes = other.bytes := by
    refine Array.ext hSize fun j hj hj' => Byte.ext fun i hi => ?_
    simpa only [Array.getElem?_eq_getElem hj, Array.getElem?_eq_getElem hj', Option.getD_some]
      using hBits j hj i hi
  cases b
  cases other
  cases hBytes
  cases hLength
  rfl

theorem get_allSet {length i : Nat} (h : i < length) : (allSet length).get i = true := by
  have hi := div_lt_bytesFor h
  simp [get, allSet, hi]

theorem get_allClear (length i : Nat) : (allClear length).get i = false := by
  unfold get allClear
  by_cases hi : i / 8 < bytesFor length <;> simp [hi]

theorem get_ofBools {bits : List Bool} {i : Nat} (h : i < bits.length) :
    (ofBools bits).get i = bits[i] := by
  have hi := div_lt_bytesFor h
  have hRow : 8 * (i / 8) + i % 8 = i := by omega
  simp [get, ofBools, hi, Byte.bit_pack, hRow, h]

theorem get_and {b other : Bitmap} {i : Nat} (h : i < b.length) (hOther : i < other.length) :
    (b.and other).get i = (b.get i && other.get i) := by
  simp [get, and, withBytes, lt_size h, lt_size hOther]

theorem get_or {b other : Bitmap} {i : Nat} (h : i < b.length) (hOther : i < other.length) :
    (b.or other).get i = (b.get i || other.get i) := by
  simp [get, or, withBytes, lt_size h, lt_size hOther]

/-- Setting a bit changes that bit and no other. -/
theorem get_set {b : Bitmap} {i : Nat} (j : Nat) (value : Bool) (h : i < b.length) :
    (b.set i value).get j = if j = i then value else b.get j := by
  have hi := lt_size h
  by_cases hByte : i / 8 = j / 8
  · have hGet : (b.set i value).bytes[j / 8]?.getD 0 =
        (if value then b.bytes[j / 8]?.getD 0 ||| bitMask i
          else b.bytes[j / 8]?.getD 0 &&& ~~~bitMask i) := by
      rw [← hByte]
      simp [set, withBytes, Array.getElem_modify, hi]
    rw [get, hGet]
    by_cases hEq : j = i
    · subst hEq
      cases value <;> simp [Byte.bit_bitMask]
    · have hMod : ¬ i % 8 = j % 8 := by omega
      cases value <;> simp [get, Byte.bit_bitMask, hEq, hMod]
  · have hNe : j ≠ i := fun hEq => hByte (by rw [hEq])
    simp [get, set, withBytes, Array.getElem?_modify, hByte, hNe]

end Bitmap

end Columnar
