import Columnar.Checked

/-!
# Kernels on a buffer

A kernel is called on bytes that belong to its caller.  The operations of this module thread
the bytes through, so that what was written stays when a call is refused, and they work as
code does: elements are read one at a time, their bits are shifted into place, and bytes are
stored one at a time.  Every element and every byte is looked at before it is used; one that
is not there is reported as `unreachable`.
-/

namespace Columnar

/-- An operation on a buffer, which may refuse. -/
abbrev InBuffer (σ α : Type) := ExceptT Error (StateM σ) α

/-- Stores what some bits leave of a byte, which has to be there. -/
def InBuffer.maskByte (index : Nat) (keep : UInt8) : InBuffer (Array UInt8) Unit := do
  let bytes ← get
  match bytes[index]? with
  | some byte => set (bytes.setIfInBounds index (byte &&& keep))
  | none => throw (.unreachable s!"no byte {index} in a buffer of {bytes.size}")

/-- The stored word of an element, which the chunk has to have. -/
def Chunk.readWord (c : Chunk) (i : Nat) : Result Nat := do
  if c.length ≤ i then
    throw (.unreachable s!"no element {i} among {c.length}")
  c.checkElement i
  return c.word i

namespace Program

/-- One if an element satisfies the condition, and zero otherwise. -/
def readBit (k : Program) (chunk : Chunk) (i : Nat) : Result UInt8 := do
  return (k.condition.holds (← chunk.readWord i)).toUInt8

/-- The bits of the eight elements from `first` on, the first one at the high end. -/
def packGroup (k : Program) (chunk : Chunk) (first : Nat) : Result UInt8 :=
  (List.range 8).foldlM
    (fun packed j => do
      let bit ← k.readBit chunk (first + j)
      return packed ||| (bit <<< UInt8.ofNat (7 - j)))
    0

/-- Bulk pass over the elements behind `offset`, into bytes that are known to be enough. -/
def bulkRaw (k : Program) (chunk : Chunk) (offset : Nat) : InBuffer (Array UInt8) Unit := do
  k.checkChunk chunk
  if bulkGroups chunk.length offset = 0 then
    return
  (List.range (bulkReach chunk.length offset)).forM fun group => do
    let packed ← k.packGroup chunk (offset + 8 * group)
    InBuffer.maskByte (bulkSkip offset + group) packed

/-- Bulk pass over the elements behind `offset`. -/
def bulkIn (k : Program) (chunk : Chunk) (offset : Nat) : InBuffer (Array UInt8) Unit := do
  k.checkChunk chunk
  let groups := bulkGroups chunk.length offset
  let skip := bulkSkip offset
  if groups = 0 then
    return
  let size := (← get).size
  if size < skip + groups then
    throw (.runtime s!"bitmap of {size} bytes cannot hold {groups} groups at skip {skip}")
  k.bulkRaw chunk offset

/-- The bits that `count` elements from `element` on leave of a byte: the bits of those that
fail are cleared, the first one at position `bit`. -/
def keptBits (k : Program) (chunk : Chunk) (element bit count : Nat) : Result UInt8 :=
  (List.range count).foldlM
    (fun keep i => do
      let fail := (← k.readBit chunk (element + i)) ^^^ 1
      return keep &&& ~~~(fail <<< UInt8.ofInt (7 - i - bit)))
    0xff

/-- Boundary pass into one byte. -/
def boundaryIn (k : Program) (chunk : Chunk) (element bit : Nat) : InBuffer UInt8 Unit := do
  k.checkChunk chunk
  let count := boundaryCount chunk.length element bit
  if 8 < count + bit then
    throw (.runtime s!"{count} values at bit offset {bit} overflow one byte")
  if count = 0 then
    return
  let keep ← k.keptBits chunk element bit count
  modify (· &&& keep)

end Program

namespace Kernel

/-- Bulk pass over the elements of a chunk behind `offset`, into the buffer. -/
def executeIn (k : Kernel) (chunk : Chunk) (offset : Nat) : InBuffer (Array UInt8) Unit := do
  (← k.program).bulkIn chunk offset

/-- Boundary pass into the byte that is the buffer. -/
def executeRemainingIn (k : Kernel) (chunk : Chunk) (element bit : Nat) : InBuffer UInt8 Unit := do
  (← k.program).boundaryIn chunk element bit

end Kernel

end Columnar
