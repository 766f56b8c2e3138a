import Columnar.Bitmap.Basic
import Columnar.Error
import Columnar.Scalar
import Columnar.Word

/-!
# Chunks

A chunk is a contiguous piece of a column.  Elements of fixed width are stored
back to back, low byte first; text is stored as one byte string with the offsets
at which elements end.  An optional bitmap marks the elements that are valid.

A chunk is a plain record.  `Chunk.WellFormed` says when its parts fit together,
and readers never assume it.  The length is a number of its own: how many elements the
bytes hold is `Chunk.slotCount`, and readers of all elements follow the bytes.
-/

namespace Columnar

/-- The number written by bytes, low byte first. -/
def littleEndian : List UInt8 → Nat
  | [] => 0
  | byte :: rest => byte.toNat + 256 * littleEndian rest

/-- The lowest `width` bytes of a number, low byte first. -/
def wordBytes : Nat → Nat → List UInt8
  | 0, _ => []
  | width + 1, n => UInt8.ofNat n :: wordBytes width (n / 256)

@[simp]
theorem length_wordBytes (width n : Nat) : (wordBytes width n).length = width := by
  induction width generalizing n with
  | zero => rfl
  | succ width ih => simp [wordBytes, ih]

theorem littleEndian_wordBytes (width n : Nat) :
    littleEndian (wordBytes width n) = n % 256 ^ width := by
  induction width generalizing n with
  | zero => simp [wordBytes, littleEndian, Nat.mod_one]
  | succ width ih =>
      have hByte : (UInt8.ofNat n).toNat = n % 256 := by simp
      rw [wordBytes, littleEndian, ih, hByte, Nat.pow_succ', Nat.mod_mul]

/-- Cuts bytes into stretches of a width.  What is left at the end and too short is dropped. -/
def stretches (width : Nat) (bytes : List UInt8) : List (List UInt8) :=
  if 0 < width ∧ width ≤ bytes.length then
    bytes.take width :: stretches width (bytes.drop width)
  else
    []
termination_by bytes.length
decreasing_by
  rw [List.length_drop]
  omega

/-- One contiguous piece of a column. -/
structure Chunk where
  type : DataType
  length : Nat
  bytes : Array UInt8
  /-- For text, where each element starts and where the last one ends. -/
  offsets : Array UInt32
  /-- One bit per element, set for the valid ones; absent when all are valid. -/
  validity : Option Bitmap
  deriving DecidableEq

namespace Chunk

/-- A chunk holds the elements that it announces: value bytes of fixed width are those of
`length` elements, a validity bitmap has one bit for each of them, and every place in the
chunk has an address. -/
structure WellFormed (c : Chunk) : Prop where
  length_lt : c.length < 2 ^ 63
  bytes_lt : c.bytes.size < 2 ^ 63
  bytes_size : ∀ width, c.type.width? = some width → c.bytes.size = c.length * width
  validity_length : ∀ v, c.validity = some v → v.length = c.length

/-- Whether the element at `i` is valid. -/
def isValid (c : Chunk) (i : Nat) : Bool :=
  match c.validity with
  | none => true
  | some v => v.get i

/-- Number of elements that are not valid. -/
def nullCount (c : Chunk) : Nat :=
  match c.validity with
  | none => 0
  | some v => c.length - v.count

/-- The positions of the elements that are not valid. -/
def nullPositions (c : Chunk) : List Nat :=
  match c.validity with
  | none => []
  | some v => (List.range c.length).filter fun i => !v.get i

/-- How many elements the value bytes hold. -/
def slotCount (c : Chunk) : Nat :=
  c.bytes.size / c.type.width

/-- The bytes of the element at `i`.  They start at the product of the position and
the width, which is a machine word. -/
def slot (c : Chunk) (i : Nat) : List UInt8 :=
  let start := wordMul i c.type.width
  (c.bytes.extract start (start + c.type.width)).toList

/-- The stored word of the element at `i`, valid or not. -/
def word (c : Chunk) (i : Nat) : Nat :=
  littleEndian (c.slot i)

/-- The words that the value bytes hold. -/
def words (c : Chunk) : List Nat :=
  (List.range c.slotCount).map c.word

/-- The validity of all elements. -/
def validities (c : Chunk) : List Bool :=
  (List.range c.length).map c.isValid

/-- The elements of type `t`, valid or not, from the first byte to the last. -/
def iterate (c : Chunk) (t : DataType) : List (Native t) :=
  (stretches t.width c.bytes.toList).filterMap fun bytes => Native.ofWord? t (littleEndian bytes)

/-- The text of the element at `i`, for chunks of text. -/
def textAt? (c : Chunk) (i : Nat) : Option String :=
  match c.type, c.offsets[i]?, c.offsets[i + 1]? with
  | .utf8, some start, some stop =>
      String.fromUTF8? ⟨c.bytes.extract start.toNat stop.toNat⟩
  | _, _, _ => none

/-- The decoded element at `i`, `none` when it is not valid. -/
def scalarAt (c : Chunk) (i : Nat) : Result (Option Scalar) :=
  if c.isValid i then
    match c.type, c.type.scalar? (c.word i) with
    | .utf8, _ => .ok (some (.string ((c.textAt? i).getD "")))
    | _, some scalar => .ok (some scalar)
    | t, none => .error (.notImplemented s!"scalar access for {t.name} arrays")
  else
    .ok none

@[simp]
theorem length_validities (c : Chunk) : c.validities.length = c.length := by
  simp [validities]

@[simp]
theorem length_words (c : Chunk) : c.words.length = c.slotCount := by
  simp [words]

theorem mem_nullPositions {c : Chunk} {i : Nat} :
    i ∈ c.nullPositions ↔ i < c.length ∧ c.isValid i = false := by
  cases h : c.validity <;> simp [nullPositions, isValid, h]

theorem slotCount_eq_length {c : Chunk} (h : c.WellFormed)
    (hFixed : c.type.isFixedWidth = true) : c.slotCount = c.length := by
  have hSize := h.bytes_size _ ((DataType.width?_eq_some_iff _ _).mpr ⟨hFixed, rfl⟩)
  rw [slotCount, hSize, Nat.mul_div_cancel _ ((DataType.width_pos_iff _).mpr hFixed)]

/-- The bytes of an element lie inside a well formed chunk. -/
theorem wordMul_add_width_le {c : Chunk} (h : c.WellFormed)
    (hFixed : c.type.isFixedWidth = true) {i : Nat} (hi : i < c.length) :
    wordMul i c.type.width = i * c.type.width ∧
      i * c.type.width + c.type.width ≤ c.bytes.size :=
  wordMul_add_le (h.bytes_size _ ((DataType.width?_eq_some_iff _ _).mpr ⟨hFixed, rfl⟩))
    h.bytes_lt hi

/-- In a well formed chunk the elements lie back to back. -/
theorem slot_eq_extract {c : Chunk} (h : c.WellFormed)
    (hFixed : c.type.isFixedWidth = true) {i : Nat} (hi : i < c.length) :
    c.slot i = (c.bytes.extract (i * c.type.width)
      (i * c.type.width + c.type.width)).toList := by
  rw [slot, (wordMul_add_width_le h hFixed hi).1]

theorem isValid_of_validity_none {c : Chunk} (h : c.validity = none) (i : Nat) :
    c.isValid i = true := by
  simp [isValid, h]

end Chunk

end Columnar
