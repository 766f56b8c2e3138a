import Columnar.Context

/-!
# Compaction

Compaction copies the selected rows into fresh chunks and drops the selection.  Rows
keep their order.  A `ChunkBuilder` writes every element, selected or not, into the next
slot of its buffers, and moves on only behind a selected one.  It closes a chunk whenever
the buffers are full, so that all chunks of a compacted column but the last have the same
length.  A column without surviving rows becomes one empty chunk.

Reads of a bitmap and writes into a buffer are checked, here and in the machine; one that
misses is reported as `unreachable`.
-/

namespace Columnar

/-- The bit of row `i`, refused when its byte is not there. -/
def Bitmap.read (b : Bitmap) (i : Nat) : Result Bool :=
  match b.bytes[i / 8]? with
  | some byte => .ok (Byte.bit byte i)
  | none => .error (.unreachable s!"no byte {i / 8} in a bitmap of {b.bytes.size}")

/-- Whether the element at `i` is valid, refused when the validity bitmap ends before it. -/
def Chunk.readValid (c : Chunk) (i : Nat) : Result Bool :=
  match c.validity with
  | none => .ok true
  | some v => v.read i

/-- The bytes with those from `place` on replaced. -/
def overwrite (bytes : Array UInt8) (place : Nat) : List UInt8 → Array UInt8
  | [] => bytes
  | byte :: rest => overwrite (bytes.setIfInBounds place byte) (place + 1) rest

/-- Collects elements into chunks of a fixed length. -/
structure ChunkBuilder where
  type : DataType
  chunkSize : Nat
  /-- Whether the chunks get a validity bitmap. -/
  tracksValidity : Bool
  /-- Selected elements that are not in a closed chunk, taken already or not. -/
  remaining : Nat
  /-- Length of the chunk that is being filled. -/
  capacity : Nat := 0
  /-- Value bytes and validity of the chunk that is being filled, with one slot more than
  the chunk has: what follows the last selected element is written there. -/
  bytes : Array UInt8 := #[]
  valid : Array Bool := #[]
  /-- Selected elements in the chunk that is being filled. -/
  cursor : Nat := 0
  /-- The chunks that are complete. -/
  done : Array Chunk := #[]

namespace ChunkBuilder

/-- Opens the next chunk. -/
def reset (b : ChunkBuilder) : ChunkBuilder :=
  let capacity := min b.chunkSize b.remaining
  { b with
    capacity
    bytes := Array.replicate ((capacity + 1) * b.type.width) 0
    valid := if b.tracksValidity then Array.replicate (capacity + 1) false else b.valid
    cursor := 0 }

/-- A builder for a number of selected elements of fixed width. -/
def new (t : DataType) (chunkSize selected : Nat) (tracksValidity : Bool) :
    Result ChunkBuilder :=
  if t.isFixedWidth then
    let b : ChunkBuilder := { type := t, chunkSize, tracksValidity, remaining := selected }
    .ok b.reset
  else .error (.notImplemented s!"materializing {t.name} columns")

/-- Closes the chunk that is being filled. -/
def flush (b : ChunkBuilder) : Result ChunkBuilder := do
  let validity :=
    if b.tracksValidity then some (Bitmap.ofBools (b.valid.toList.take b.cursor)) else none
  let chunk ← Chunk.ofRaw b.type b.cursor (b.bytes.extract 0 (b.cursor * b.type.width)) validity
  let b := { b with done := b.done.push chunk, remaining := b.remaining - b.cursor }
  return b.reset

/-- Writes an element into the slot at the cursor. -/
def write (b : ChunkBuilder) (slot : List UInt8) (valid : Bool) : Result ChunkBuilder :=
  let place := b.cursor * b.type.width
  if b.bytes.size < place + b.type.width then
    .error (.unreachable s!"no slot {b.cursor} in {b.bytes.size} bytes")
  else if slot.length ≠ b.type.width then
    .error (.unreachable s!"{slot.length} bytes for a slot of {b.type.width}")
  else if b.tracksValidity then
    if b.valid.size ≤ b.cursor then
      .error (.unreachable s!"no slot {b.cursor} in {b.valid.size} validity bits")
    else
      .ok { b with
        bytes := overwrite b.bytes place slot
        valid := b.valid.setIfInBounds b.cursor valid }
  else .ok { b with bytes := overwrite b.bytes place slot }

/-- Takes one element, which counts only if it is kept, and closes the chunk when it is
full. -/
def push (b : ChunkBuilder) (slot : List UInt8) (valid keep : Bool) : Result ChunkBuilder := do
  let b ← b.write slot valid
  let b := { b with cursor := b.cursor + keep.toNat }
  if b.cursor = b.capacity ∧ 0 < b.cursor then b.flush else return b

/-- Takes the elements of a chunk that starts at row `start`, and keeps the selected
ones. -/
def absorb (selection : Bitmap) (b : ChunkBuilder) (start : Nat) (chunk : Chunk) :
    Result ChunkBuilder :=
  (List.range chunk.slotCount).foldlM
    (fun b i => do
      let valid ← chunk.readValid i
      let keep ← selection.read (wordAdd start i)
      b.push (chunk.slot i) valid keep)
    b

/-- The column of the collected chunks. -/
def finish (b : ChunkBuilder) : Result Column := do
  let b ← if 0 < b.cursor then b.flush else pure b
  if b.done.isEmpty then
    Column.ofChunks b.type [Chunk.empty b.type]
  else
    Column.ofChunks b.type b.done.toList

end ChunkBuilder

/-- The selected rows of a column, in chunks of `chunkSize` rows; a size of zero acts
as one. -/
def Column.compact (c : Column) (selection : Bitmap) (chunkSize : Nat) : Result Column := do
  let start ← ChunkBuilder.new c.type (max chunkSize 1) selection.count
    (c.chunks.any fun chunk => chunk.validity.isSome)
  let filled ← c.placed.foldlM (fun b (row, chunk) => b.absorb selection row chunk) start
  filled.finish

/-- Compacts the table to its selected rows.  Columns whose elements have no fixed
width are refused. -/
def Context.materialize (ctx : Context) (chunkSize : Nat) : Result Context := do
  ctx.checkSelection
  if ctx.table.isChunkless then
    return ctx.selectAll
  let some selection := ctx.selection
    | throw (.unreachable "materialize reached without a selection bitmap")
  if let some field := ctx.table.schema.fields.find? fun field => !field.type.isFixedWidth then
    throw (.notImplemented s!"materializing {field.type.name} column '{field.name}'")
  let columns ← ctx.table.columns.mapM fun c => c.compact selection chunkSize
  return Context.ofTable (← Table.make ctx.table.schema columns)

end Columnar
