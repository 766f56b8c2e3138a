import Columnar.Chunk.Construction

/-!
# Columns

A column is a list of chunks of one type, read one after the other.  `placed`
pairs every chunk with the row at which it starts; rows are numbered through the
whole column, and chunk boundaries need not fall on byte boundaries of a bitmap.
Lengths and starts are machine words; `Column.WellFormed` says when they do not wrap.
The length is counted when a column is made and kept in it, with the proof of what it counts.
-/

namespace Columnar

/-- A column cut into chunks of one type. -/
structure Column where
  type : DataType
  chunks : List Chunk
  chunks_type : ∀ c ∈ chunks, c.type = type
  /-- Number of rows. -/
  length : Nat := wordSum (chunks.map Chunk.length)
  length_eq : length = wordSum (chunks.map Chunk.length) := by rfl
  deriving DecidableEq

/-- Chunks paired with the rows at which they start, the first at `start`. -/
def placeChunks (start : Nat) : List Chunk → List (Nat × Chunk)
  | [] => []
  | c :: rest => (start, c) :: placeChunks (wordAdd start c.length) rest

/-- The chunk that holds row `i`, and the position of the row in it. -/
def locateRow : List Chunk → Nat → Option (Chunk × Nat)
  | [], _ => none
  | c :: rest, i => if i < c.length then some (c, i) else locateRow rest (i - c.length)

namespace Column

/-- A column of the given chunks, refused at the first chunk of another type. -/
def ofChunks (t : DataType) (chunks : List Chunk) : Result Column :=
  match h : chunks.find? (fun c => decide (c.type ≠ t)) with
  | none =>
      .ok {
        type := t
        chunks
        chunks_type := fun c hc => by simpa using List.find?_eq_none.mp h c hc }
  | some bad =>
      .error (.schema s!"{t.name} column cannot hold a {bad.type.name} chunk")

/-- A column of one chunk. -/
def ofChunk (c : Chunk) : Column where
  type := c.type
  chunks := [c]
  chunks_type := by simp

/-- A column of one chunk for each list of elements. -/
def ofSlices (t : DataType) (slices : List (List (Native t))) : Column where
  type := t
  chunks := slices.map (Chunk.ofValues t)
  chunks_type := by
    intro c hc
    obtain ⟨slice, -, rfl⟩ := List.mem_map.mp hc
    rfl

/-- The chunks of a column are well formed, the number of their rows is a machine
word, and their value bytes have room in one address space. -/
structure WellFormed (c : Column) : Prop where
  chunks_wellFormed : ∀ chunk ∈ c.chunks, chunk.WellFormed
  rows_lt : total (c.chunks.map Chunk.length) < 2 ^ 64
  bytes_lt : total (c.chunks.map fun chunk => chunk.bytes.size) < 2 ^ 63

/-- Every chunk with the row at which it starts. -/
def placed (c : Column) : List (Nat × Chunk) :=
  placeChunks 0 c.chunks

/-- The row at which every chunk starts. -/
def offsets (c : Column) : List Nat :=
  c.placed.map Prod.fst

/-- The elements of a column of type `t`, valid or not. -/
def values (c : Column) (t : DataType) : List (Native t) :=
  c.chunks.flatMap (Chunk.iterate · t)

/-- The validity of every row. -/
def validities (c : Column) : List Bool :=
  c.chunks.flatMap Chunk.validities

/-- The decoded element of row `i`; a row past the end has none. -/
def scalarAt (c : Column) (i : Nat) : Result (Option Scalar) :=
  match locateRow c.chunks i with
  | some (chunk, k) => chunk.scalarAt k
  | none => .ok none

/-- The rows that are not valid. -/
def nullRows (c : Column) : List Nat :=
  c.placed.flatMap fun (start, chunk) => chunk.nullPositions.map (wordAdd start)

/-- The rows that are not valid, as a bitmap of the valid ones; `none` when every
chunk is free of nulls. -/
def validityMask (c : Column) : Option Bitmap :=
  if c.chunks.all fun chunk => chunk.nullCount == 0 then none
  else some <| c.nullRows.foldl (fun mask row => mask.set row false) (Bitmap.allSet c.length)

/-- A column is its type and its chunks; the length is counted from them. -/
theorem eq_of_chunks {c c' : Column} (hType : c.type = c'.type) (hChunks : c.chunks = c'.chunks) :
    c = c' := by
  have hLength : c.length = c'.length := by rw [c.length_eq, c'.length_eq, hChunks]
  cases c
  cases c'
  cases hType
  cases hChunks
  cases hLength
  rfl

theorem length_eq_total {c : Column} (h : c.WellFormed) :
    c.length = total (c.chunks.map Chunk.length) :=
  c.length_eq.trans (wordSum_eq_total h.rows_lt)

end Column

end Columnar
