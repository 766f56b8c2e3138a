import Columnar.Column
import Columnar.Kernel.Condition

/-!
# Passes over a chunk

A condition is run over a chunk by clearing bits of a row of bytes, eight rows to a
byte.  Nothing ever sets a bit, so the work of a pass is a list of `ByteMask`s, each
of which keeps some bits of one byte.

The bulk pass covers whole bytes, all of whose rows belong to the chunk.  A byte that
a chunk shares with its neighbours is left to the boundary pass, which covers the
head of the chunk, up to the first whole byte, or its tail.  `columnMasks` cuts every
chunk of a column into a head, whole bytes and a tail, by the row at which the chunk
starts.
-/

namespace Columnar

/-- Keep of the byte at `index` only the bits of `keep`. -/
structure ByteMask where
  index : Nat
  keep : UInt8
  deriving DecidableEq

namespace ByteMask

/-- Applies one mask. -/
def apply (bytes : Array UInt8) (m : ByteMask) : Array UInt8 :=
  bytes.modify m.index (· &&& m.keep)

/-- Applies masks one after the other. -/
def applyAll (bytes : Array UInt8) (masks : List ByteMask) : Array UInt8 :=
  masks.foldl apply bytes

@[simp]
theorem size_apply (bytes : Array UInt8) (m : ByteMask) :
    (apply bytes m).size = bytes.size := by
  simp [apply]

@[simp]
theorem size_applyAll (bytes : Array UInt8) (masks : List ByteMask) :
    (applyAll bytes masks).size = bytes.size := by
  induction masks generalizing bytes with
  | nil => rfl
  | cons m rest ih =>
      have hRest := ih (apply bytes m)
      rw [size_apply] at hRest
      exact hRest

end ByteMask

/-- Whole bytes that the elements behind the first `offset` fill. -/
def bulkGroups (length offset : Nat) : Nat :=
  (length - offset) / 8

/-- Whole bytes that the bulk pass goes through.  It counts their elements in a signed
machine word. -/
def bulkReach (length offset : Nat) : Nat :=
  signedSteps (8 * bulkGroups length offset) / 8

theorem bulkReach_eq_bulkGroups {length offset : Nat} (h : length < 2 ^ 63) :
    bulkReach length offset = bulkGroups length offset := by
  have hGroups : 8 * bulkGroups length offset ≤ length := by
    unfold bulkGroups
    omega
  rw [bulkReach, signedSteps_of_lt (by omega), Nat.mul_div_cancel_left _ (by decide)]

/-- Bytes that the bulk pass leaves alone at the start: with an offset, the byte
shared with the chunk before. -/
def bulkSkip (offset : Nat) : Nat :=
  if offset = 0 then 0 else 1

/-- Elements that a boundary pass covers: at element zero the head of the chunk, which
fills up one byte, and elsewhere the tail. -/
def boundaryCount (length element bit : Nat) : Nat :=
  if element = 0 then min (8 - bit) length else length - element

namespace Condition

/-- The masks of the bulk pass behind `offset` elements, for a destination that
starts at byte `first`. -/
def bulkMasks (c : Condition) (chunk : Chunk) (first offset : Nat) : List ByteMask :=
  (List.range (bulkReach chunk.length offset)).map fun group =>
    { index := first + bulkSkip offset + group
      keep := Byte.pack fun j => c.holds (chunk.word (offset + 8 * group + j)) }

/-- The bits that stay when `count` elements from `element` on are tested against one
byte, the first of them at position `bit`. -/
def boundaryKeep (c : Condition) (chunk : Chunk) (element bit count : Nat) : UInt8 :=
  Byte.pack fun j =>
    if bit ≤ j ∧ j < bit + count then c.holds (chunk.word (element + (j - bit))) else true

end Condition

/-- A predicate lowered for one field. -/
structure Program where
  field : Field
  condition : Condition

namespace Program

/-- The program of a predicate for a field. -/
def ofPredicate (field : Field) (p : Predicate) : Result Program := do
  return { field, condition := ← Condition.ofPredicate field p }

/-- Refuses chunks whose elements are not those of the field. -/
def checkChunk (k : Program) (chunk : Chunk) : Result Unit :=
  if ¬ chunk.type.isFixedWidth then
    .error (.notImplemented s!"filtering {chunk.type.name} columns")
  else if chunk.type ≠ k.field.type then
    .error (.schema
      s!"kernel for '{k.field.name}' ({k.field.type.name}) given a {chunk.type.name} chunk")
  else .ok ()

/-- Bulk pass over the elements behind `offset`, into the given bytes. -/
def runBulk (k : Program) (chunk : Chunk) (bytes : Array UInt8) (offset : Nat) :
    Result (Array UInt8) := do
  k.checkChunk chunk
  let groups := bulkGroups chunk.length offset
  let skip := bulkSkip offset
  if groups ≠ 0 ∧ bytes.size < skip + groups then
    throw (.runtime
      s!"bitmap of {bytes.size} bytes cannot hold {groups} groups at skip {skip}")
  return ByteMask.applyAll bytes (k.condition.bulkMasks chunk 0 offset)

/-- The bits of one byte that a boundary pass keeps. -/
def boundary (k : Program) (chunk : Chunk) (element bit : Nat) : Result UInt8 := do
  k.checkChunk chunk
  let count := boundaryCount chunk.length element bit
  if 8 < count + bit then
    throw (.runtime s!"{count} values at bit offset {bit} overflow one byte")
  return k.condition.boundaryKeep chunk element bit count

/-- Elements of a chunk that starts at row `start` before its first whole byte. -/
def headLength (start : Nat) : Nat :=
  (8 - start % 8) % 8

/-- The bulk masks of a chunk that starts at row `start`. -/
def bulkOf (k : Program) (start : Nat) (chunk : Chunk) : Result (List ByteMask) := do
  k.checkChunk chunk
  return k.condition.bulkMasks chunk (start / 8) (headLength start)

/-- The boundary masks of a chunk that starts at row `start`: its head, when the row
is inside a byte, and its tail, when it ends inside one. -/
def boundariesOf (k : Program) (start : Nat) (chunk : Chunk) : Result (List ByteMask) := do
  if chunk.length = 0 then
    return []
  let head ←
    if start % 8 = 0 then pure []
    else do
      let keep ← k.boundary chunk 0 (start % 8)
      pure [{ index := start / 8, keep : ByteMask }]
  let tail := (chunk.length - min (headLength start) chunk.length) % 8
  let last ←
    if tail = 0 then pure []
    else do
      let keep ← k.boundary chunk (chunk.length - tail) 0
      pure [{ index := wordAdd start chunk.length / 8, keep : ByteMask }]
  return head ++ last

/-- The masks of a whole column: the bulk passes of all chunks, then their
boundaries. -/
def columnMasks (k : Program) (column : Column) : Result (List ByteMask) := do
  let bulk ← column.placed.mapM fun (start, chunk) => k.bulkOf start chunk
  let boundaries ← column.placed.mapM fun (start, chunk) => k.boundariesOf start chunk
  return bulk.flatten ++ boundaries.flatten

/-- Clears the bits of the rows of a column that fail the program. -/
def run (k : Program) (column : Column) (b : Bitmap) : Result Bitmap := do
  let masks ← k.columnMasks column
  return b.withBytes (ByteMask.applyAll b.bytes masks) (ByteMask.size_applyAll ..)

end Program

end Columnar
