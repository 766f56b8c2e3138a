import Columnar.Compaction
import Columnar.Kernel.Basic
import Columnar.Selection

/-!
# Checked accesses

The operations behind filters and projections are total: a place that is not there reads as a
default, and a write past the end is dropped.  A machine has no such default.  The operations
of this module are the same ones with every place looked at before it is used: positions of
fields and columns, elements of a chunk, bytes and bits of a bitmap.  A place that is not
there is reported as `unreachable`, as compaction does.

Counting the bits of a bitmap needs no check, since a bitmap has the bytes of its length by
its type.
-/

namespace Columnar

/-- The field at a position. -/
def Schema.fieldAt (s : Schema) (i : Nat) : Result Field :=
  match s.fields[i]? with
  | some field => .ok field
  | none => .error (.unreachable s!"no field {i} among {s.length}")

/-- The field of a given name, through its position. -/
def Schema.fieldNamed (s : Schema) (name : String) : Result Field := do
  s.fieldAt (← s.locate name)

namespace Table

/-- The column at a position. -/
def columnAt (t : Table) (i : Nat) : Result Column :=
  match t.columns[i]? with
  | some c => .ok c
  | none => .error (.unreachable s!"no column {i} among {t.columns.length}")

/-- The column of a given name, through its position. -/
def columnNamed (t : Table) (name : String) : Result Column := do
  t.columnAt (← t.schema.locate name)

/-- The named columns in the order given, each through its position. -/
def projectChecked (t : Table) (names : List String) : Result Table := do
  let indices ← names.mapM t.schema.locate
  let schema ← Schema.ofFields (← indices.mapM t.schema.fieldAt)
  make schema (← indices.mapM t.columnAt)

/-- Refuses what `validate` refuses, with the fields found through their positions. -/
def validateChecked (t : Table) (p : Predicate) : Result Unit :=
  p.columns.forM fun name => do
    Condition.validate (← t.schema.fieldNamed name) p

end Table

/-- Refuses a byte that a bitmap does not have. -/
def Bitmap.checkByte (b : Bitmap) (index : Nat) : Result Unit :=
  if index < b.bytes.size then .ok ()
  else .error (.unreachable s!"no byte {index} in a bitmap of {b.bytes.size}")

/-- Changes the bit of row `i`, whose byte has to be there. -/
def Bitmap.write (b : Bitmap) (i : Nat) (value : Bool) : Result Bitmap := do
  b.checkByte (i / 8)
  return b.set i value

/-- Refuses a source that does not have all bytes of a region of a buffer of `size` bytes. -/
def checkRegion (source : Array UInt8) (size region : Nat) : Result Unit :=
  let start := region * regionSize
  let stop := start + min regionSize (size - start)
  if stop ≤ source.size then .ok ()
  else .error (.unreachable s!"no bytes {start} to {stop} among {source.size}")

/-- What is left of a list when its first element is taken out: the last one has moved into
its place. -/
def refill {α : Type} (others : List α) : List α :=
  others.getLast?.toList ++ others.dropLast

/-- The conjunction of a list of bitmaps.  The first one is taken out to hold it, and of the
others every region has to be there. -/
def Bitmap.andReduceChecked : List Bitmap → Result (Option Bitmap)
  | [] => .ok none
  | b :: others => do
      let sources := (refill others).map Bitmap.bytes
      (List.range ((b.bytes.size + regionSize - 1) / regionSize)).forM fun region =>
        sources.forM fun source => checkRegion source b.bytes.size region
      return some (b.withBytes (andRegions sources b.bytes) (size_andRegions ..))

/-- Refuses an element whose bytes are not all in the chunk. -/
def Chunk.checkElement (c : Chunk) (i : Nat) : Result Unit :=
  let stop := wordMul i c.type.width + c.type.width
  if stop ≤ c.bytes.size then .ok ()
  else .error (.unreachable s!"element {i} ends at byte {stop} of {c.bytes.size}")

/-- The bytes of an element are in a well formed chunk. -/
theorem Chunk.checkElement_eq_ok {c : Chunk} (h : c.WellFormed)
    (hFixed : c.type.isFixedWidth = true) {i : Nat} (hi : i < c.length) :
    c.checkElement i = .ok () := by
  obtain ⟨hPlace, hEnd⟩ := wordMul_add_width_le h hFixed hi
  rw [checkElement, hPlace]
  exact if_pos hEnd

namespace Program

/-- The bulk masks of a chunk that starts at row `start`; every element that is read has to
be there. -/
def bulkChecked (k : Program) (start : Nat) (chunk : Chunk) : Result (List ByteMask) := do
  let masks ← k.bulkOf start chunk
  let first := headLength start
  (List.range' first (8 * bulkReach chunk.length first)).forM chunk.checkElement
  return masks

/-- The bits of one byte that a boundary pass keeps; every element that is read has to be
there. -/
def boundaryChecked (k : Program) (chunk : Chunk) (element bit : Nat) : Result UInt8 := do
  let keep ← k.boundary chunk element bit
  (List.range' element (boundaryCount chunk.length element bit)).forM chunk.checkElement
  return keep

/-- The boundary masks of a chunk that starts at row `start`, its head and its tail. -/
def boundariesChecked (k : Program) (start : Nat) (chunk : Chunk) : Result (List ByteMask) := do
  if chunk.length = 0 then
    return []
  let head ←
    if start % 8 = 0 then pure []
    else do
      let keep ← k.boundaryChecked chunk 0 (start % 8)
      pure [{ index := start / 8, keep : ByteMask }]
  let tail := (chunk.length - min (headLength start) chunk.length) % 8
  let last ←
    if tail = 0 then pure []
    else do
      let keep ← k.boundaryChecked chunk (chunk.length - tail) 0
      pure [{ index := wordAdd start chunk.length / 8, keep : ByteMask }]
  return head ++ last

/-- Clears the bits of the rows of a column that fail the program; every byte that a mask
goes to has to be there. -/
def runChecked (k : Program) (column : Column) (b : Bitmap) : Result Bitmap := do
  let bulk ← column.placed.mapM fun (start, chunk) => k.bulkChecked start chunk
  let boundaries ← column.placed.mapM fun (start, chunk) => k.boundariesChecked start chunk
  let masks := bulk.flatten ++ boundaries.flatten
  masks.forM fun m => b.checkByte m.index
  return b.withBytes (ByteMask.applyAll b.bytes masks) (ByteMask.size_applyAll ..)

end Program

/-- Runs a kernel over a column, when it is compiled. -/
def Kernel.runChecked (k : Kernel) (column : Column) (b : Bitmap) : Result Bitmap := do
  (← k.program).runChecked column b

/-- Clears the bits of the elements of a chunk that are not valid; the chunk starts at row
`start`. -/
def Chunk.clearNulls (start : Nat) (c : Chunk) (mask : Bitmap) : Result Bitmap :=
  match c.validity with
  | none => .ok mask
  | some _ => (List.range c.length).foldlM
      (fun mask i => do
        if ← c.readValid i then return mask
        else mask.write (wordAdd start i) false)
      mask

/-- The rows that are not null, as `validityMask` gives them. -/
def Column.validityMaskChecked (c : Column) : Result (Option Bitmap) :=
  if c.chunks.all fun chunk => chunk.nullCount == 0 then .ok none
  else do
    let mask ← c.placed.foldlM (fun mask (start, chunk) => chunk.clearNulls start mask)
      (Bitmap.allSet c.length)
    return some mask

/-- Rejects the rows that are null in one of the named columns. -/
def Table.rejectNullsChecked (t : Table) (names : List String) (b : Bitmap) : Result Bitmap :=
  names.foldlM
    (fun b name => do
      match ← (← t.columnNamed name).validityMaskChecked with
      | some mask => return b.and mask
      | none => return b)
    b

/-- Keeps the named columns, in the order given, and the selection. -/
def Context.projectChecked (ctx : Context) (names : List String) : Result Context := do
  return ctx.withTable (← ctx.table.projectChecked names)

end Columnar
