import Columnar.Proofs.Bitmap.Count
import Columnar.Proofs.Compaction.Builder
import Mathlib.Data.List.Basic

/-!
# Compaction packs the selected cells

Compaction walks through the chunks of a column and hands every element to a builder, with
its bit in the selection.  Where the chunks of the column are cut does not matter: only the
selected cells, in row order, and whether the column tracks validity show in the result.

* `compact_eq_pack` -- a compacted column is the packing of the selected cells.
* `length_packSelected`, `cells_packSelected` -- its rows are the selected cells.
-/

namespace Columnar

/-- The bit of a row is there. -/
theorem Bitmap.read_eq_ok {b : Bitmap} {i : Nat} (h : i < b.length) : b.read i = .ok (b.get i) := by
  have hByte := Array.getElem?_eq_getElem (lt_size h)
  rw [read, get, hByte]
  rfl

/-- The validity of an element of a well formed chunk is there. -/
theorem Chunk.readValid_eq_ok {c : Chunk} (h : c.WellFormed) {i : Nat} (hi : i < c.length) :
    c.readValid i = .ok (c.isValid i) := by
  unfold readValid isValid
  cases hValidity : c.validity with
  | none => rfl
  | some v => exact Bitmap.read_eq_ok (by rw [h.validity_length v hValidity]; exact hi)

/-- Cells with their bits in a selection, the first of them in row `start`. -/
def entries (selection : Bitmap) (start : Nat) (cells : List Cell) : List Entry :=
  cells.mapIdx fun i cell => (cell, selection.get (start + i))

theorem entries_append (selection : Bitmap) (start : Nat) (cells others : List Cell) :
    entries selection start (cells ++ others) =
      entries selection start cells ++ entries selection (start + cells.length) others := by
  simp only [entries, List.mapIdx_append, Nat.add_assoc, Nat.add_comm cells.length]

theorem entries_cons (selection : Bitmap) (start : Nat) (cell : Cell) (cells : List Cell) :
    entries selection start (cell :: cells) =
      (cell, selection.get start) :: entries selection (start + 1) cells :=
  entries_append selection start [cell] cells

theorem fst_mem_of_mem_entries {selection : Bitmap} {start : Nat} {cells : List Cell}
    {entry : Entry} (h : entry ∈ entries selection start cells) : entry.1 ∈ cells := by
  obtain ⟨i, hi, rfl⟩ := List.mem_mapIdx.mp h
  exact List.getElem_mem hi

/-- The kept cells are those whose row is selected. -/
theorem keptCells_entries (selection : Bitmap) (start : Nat) (cells : List Cell) :
    keptCells (entries selection start cells) =
      ((List.range' start cells.length).filter selection.get).filterMap
        fun i => cells[i - start]? := by
  induction cells generalizing start with
  | nil => rfl
  | cons cell rest ih =>
      have hLater : ((List.range' (start + 1) rest.length).filter selection.get).filterMap
            (fun i => (cell :: rest)[i - start]?) =
          ((List.range' (start + 1) rest.length).filter selection.get).filterMap
            fun i => rest[i - (start + 1)]? := by
        refine List.filterMap_congr fun i hi => ?_
        have hRange := List.mem_range'_1.mp (List.mem_filter.mp hi).1
        rw [show i - start = i - (start + 1) + 1 by omega, List.getElem?_cons_succ]
      rw [entries_cons, keptCells_cons, ih, List.length_cons, List.range'_succ, List.filter_cons]
      by_cases hBit : selection.get start = true
      · simp [hBit, hLater]
      · simp [hBit, hLater]

/-- As many cells are kept as rows are selected. -/
theorem length_keptCells_entries (selection : Bitmap) (cells : List Cell)
    (hLength : selection.length = cells.length) :
    (keptCells (entries selection 0 cells)).length = selection.count := by
  have hBits : (entries selection 0 cells).map Prod.snd =
      (List.range cells.length).map selection.get := by
    refine List.ext_getElem (by simp [entries]) fun i hLeft hRight => ?_
    simp [entries]
  have hCount : (keptCells (entries selection 0 cells)).length =
      ((entries selection 0 cells).map Prod.snd).countP id := by
    rw [keptCells, List.length_map, List.countP_map, List.countP_eq_length_filter]
    rfl
  rw [hCount, hBits, List.countP_map, Bitmap.count_eq_countP, hLength]
  rfl

namespace ChunkBuilder

variable {selection : Bitmap}

/-- A chunk hands over its cells. -/
theorem absorb_eq_pushAll (b : ChunkBuilder) {chunk : Chunk} (h : chunk.WellFormed)
    (hFixed : chunk.type.isFixedWidth = true) {start : Nat}
    (hFit : start + chunk.length < 2 ^ 64) (hRows : start + chunk.length ≤ selection.length) :
    b.absorb selection start chunk = b.pushAll (entries selection start chunk.cells) := by
  have hEntries : entries selection start chunk.cells =
      (List.range chunk.length).map fun i => (chunk.cell i, selection.get (start + i)) := by
    refine List.ext_getElem (by simp [entries]) fun i hLeft hRight => ?_
    simp [entries, Chunk.cells]
  rw [absorb, pushAll, Chunk.slotCount_eq_length h hFixed, hEntries, List.foldlM_map]
  refine Result.foldlM_congr (fun b i hi => ?_) b
  have hi : i < chunk.length := List.mem_range.mp hi
  rw [Chunk.readValid_eq_ok h hi, Result.ok_bind, wordAdd_eq_add (by omega),
    Bitmap.read_eq_ok (by omega), Result.ok_bind, Chunk.cell, Chunk.elementBytes_eq_slot hFixed]

/-- The chunks of a column hand over the cells of the column. -/
theorem foldlM_absorb_eq_pushAll {t : DataType} (hFixed : t.isFixedWidth = true)
    {chunks : List Chunk} (hChunks : ∀ chunk ∈ chunks, chunk.WellFormed ∧ chunk.type = t)
    {start : Nat} (hFit : start + total (chunks.map Chunk.length) < 2 ^ 64)
    (hRows : start + total (chunks.map Chunk.length) ≤ selection.length) (b : ChunkBuilder) :
    (placeChunks start chunks).foldlM (fun b e => b.absorb selection e.1 e.2) b =
      b.pushAll (entries selection start (chunks.flatMap Chunk.cells)) := by
  induction chunks generalizing start b with
  | nil => rfl
  | cons chunk rest ih =>
      obtain ⟨⟨hChunk, hType⟩, hRest⟩ := List.forall_mem_cons.mp hChunks
      rw [List.map_cons, total_cons] at hFit hRows
      -- The first chunk hands over its rows, and the other chunks have the rest.
      rw [placeChunks, wordAdd_eq_add (by omega), List.foldlM_cons,
        absorb_eq_pushAll b hChunk (by rw [hType]; exact hFixed) (by omega) (by omega),
        List.flatMap_cons, entries_append, Chunk.length_cells, pushAll_append]
      exact congrArg _ (funext fun b' => ih hRest (by omega) (by omega) b')

end ChunkBuilder

namespace Column

variable {c : Column} {selection : Bitmap}

/-- The selected cells of a column, in row order. -/
def selectedCells (c : Column) (selection : Bitmap) : List Cell :=
  ((List.range c.length).filter selection.get).filterMap (c.cells[·]?)

theorem keptCells_cells (h : c.WellFormed) (selection : Bitmap) :
    keptCells (entries selection 0 c.cells) = c.selectedCells selection := by
  rw [keptCells_entries, selectedCells, length_cells h, List.range_eq_range']
  rfl

/-- As many cells are selected as the selection has bits. -/
theorem length_selectedCells (h : c.WellFormed) (hLength : selection.length = c.length) :
    (c.selectedCells selection).length = selection.count := by
  rw [← keptCells_cells h]
  exact length_keptCells_entries selection c.cells (by rw [hLength, length_cells h])

theorem length_selectedCells_le (h : c.WellFormed) (selection : Bitmap) :
    (c.selectedCells selection).length ≤ total (c.chunks.map Chunk.length) := by
  have hRows : (List.range c.length).length = total (c.chunks.map Chunk.length) := by
    rw [List.length_range, length_eq_total h]
  rw [← hRows]
  exact Nat.le_trans (List.length_filterMap_le _ _) (List.length_filter_le _ _)

/-- In a column of fixed width the value bytes are those of the rows. -/
theorem total_size_eq (h : c.WellFormed) (hFixed : c.type.isFixedWidth = true) :
    total (c.chunks.map fun chunk => chunk.bytes.size) =
      total (c.chunks.map Chunk.length) * c.type.width := by
  have hChunks : ∀ chunk ∈ c.chunks, chunk.bytes.size = chunk.length * c.type.width :=
    fun chunk hMem => (h.chunks_wellFormed chunk hMem).bytes_size _
      ((DataType.width?_eq_some_iff _ _).mpr ⟨by rw [c.chunks_type chunk hMem]; exact hFixed,
        by rw [c.chunks_type chunk hMem]⟩)
  generalize c.chunks = chunks at hChunks
  induction chunks with
  | nil => simp
  | cons chunk rest ih =>
      obtain ⟨hHead, hRest⟩ := List.forall_mem_cons.mp hChunks
      simp only [List.map_cons, total_cons, Nat.add_mul, hHead, ih hRest]

theorem fits_of_mem_cells (h : c.WellFormed) (hFixed : c.type.isFixedWidth = true) {cell : Cell}
    (hMem : cell ∈ c.cells) : cell.Fits c.type := by
  obtain ⟨chunk, hChunk, hCell⟩ := List.mem_flatMap.mp hMem
  rw [← c.chunks_type chunk hChunk] at hFixed ⊢
  exact Chunk.fits_of_mem_cells (h.chunks_wellFormed chunk hChunk) hFixed hCell

theorem valid_of_mem_cells (h : c.tracksValidity = false) {cell : Cell} (hMem : cell ∈ c.cells) :
    cell.valid = true := by
  obtain ⟨chunk, hChunk, hCell⟩ := List.mem_flatMap.mp hMem
  have hNone := List.any_eq_false.mp h chunk hChunk
  exact Chunk.valid_of_mem_cells (by simpa using hNone) hCell

theorem map_some_filterMap {α β : Type} {f : α → Option β} {l : List α}
    (h : ∀ a ∈ l, ∃ b, f a = some b) : (l.filterMap f).map some = l.map f := by
  induction l with
  | nil => rfl
  | cons a rest ih =>
      obtain ⟨b, hHead⟩ := h a List.mem_cons_self
      rw [List.filterMap_cons_some hHead, List.map_cons, List.map_cons, hHead,
        ih fun other hOther => h other (List.mem_cons_of_mem _ hOther)]

/-- The selected cells are the cells of the selected rows. -/
theorem map_some_selectedCells (h : c.WellFormed) (selection : Bitmap) :
    (c.selectedCells selection).map some =
      ((List.range c.length).filter selection.get).map (c.cells[·]?) := by
  refine map_some_filterMap fun i hi => ?_
  have hRow := List.mem_range.mp (List.mem_filter.mp hi).1
  have hCell : i < c.cells.length := by rwa [length_cells h]
  exact ⟨_, List.getElem?_eq_getElem hCell⟩

theorem mem_cells_of_mem_selectedCells {cell : Cell} (h : cell ∈ c.selectedCells selection) :
    cell ∈ c.cells := by
  obtain ⟨i, -, hSome⟩ := List.mem_filterMap.mp h
  exact List.mem_of_getElem? hSome

/-- The selected cells have room in one address space. -/
theorem selectedCells_bytes_lt (h : c.WellFormed) (hFixed : c.type.isFixedWidth = true)
    (selection : Bitmap) : (c.selectedCells selection).length * c.type.width < 2 ^ 63 := by
  refine Nat.lt_of_le_of_lt ?_ h.bytes_lt
  rw [total_size_eq h hFixed]
  exact Nat.mul_le_mul_right _ (length_selectedCells_le h selection)

theorem fits_of_mem_selectedCells (h : c.WellFormed) (hFixed : c.type.isFixedWidth = true)
    {cell : Cell} (hMem : cell ∈ c.selectedCells selection) : cell.Fits c.type :=
  fits_of_mem_cells h hFixed (mem_cells_of_mem_selectedCells hMem)

/-- The packing of the selected cells. -/
def packSelected (c : Column) (selection : Bitmap) (size : Nat) : Column :=
  pack c.type size c.tracksValidity (c.selectedCells selection)

theorem cells_packSelected (h : c.WellFormed) (hFixed : c.type.isFixedWidth = true)
    (selection : Bitmap) {size : Nat} (hSize : 0 < size) :
    (c.packSelected selection size).cells = c.selectedCells selection :=
  cells_pack hFixed (fun _ => fits_of_mem_selectedCells h hFixed)
    (selectedCells_bytes_lt h hFixed selection) hSize fun hTracks _ hCell =>
      valid_of_mem_cells hTracks (mem_cells_of_mem_selectedCells hCell)

theorem wellFormed_packSelected (h : c.WellFormed) (hFixed : c.type.isFixedWidth = true)
    (selection : Bitmap) {size : Nat} (hSize : 0 < size) :
    (c.packSelected selection size).WellFormed :=
  wellFormed_pack c.tracksValidity hFixed (fun _ => fits_of_mem_selectedCells h hFixed)
    (selectedCells_bytes_lt h hFixed selection) hSize

theorem length_packSelected (h : c.WellFormed) (hFixed : c.type.isFixedWidth = true)
    (hLength : selection.length = c.length) {size : Nat} (hSize : 0 < size) :
    (c.packSelected selection size).length = selection.count := by
  rw [← length_cells (wellFormed_packSelected h hFixed selection hSize),
    cells_packSelected h hFixed selection hSize, length_selectedCells h hLength]

/-- A compacted column is the packing of the selected cells.  No check of a place, a type or
a size fails on the way. -/
theorem compact_eq_pack (h : c.WellFormed) (hFixed : c.type.isFixedWidth = true)
    (hLength : selection.length = c.length) (chunkSize : Nat) :
    c.compact selection chunkSize = .ok (c.packSelected selection (max chunkSize 1)) := by
  have hTotal := length_eq_total h
  have hRowsLt := h.rows_lt
  have hSize : 0 < max chunkSize 1 := by omega
  have hSelected : (keptCells (entries selection 0 c.cells)).length = selection.count := by
    rw [keptCells_cells h, length_selectedCells h hLength]
  have hBytes : selection.count * c.type.width < 2 ^ 63 := by
    rw [← length_selectedCells h hLength]
    exact selectedCells_bytes_lt h hFixed selection
  obtain ⟨b, hNew, hWaiting⟩ :=
    ChunkBuilder.exists_new (max chunkSize 1) selection.count c.tracksValidity hFixed
  have hFold : c.placed.foldlM (fun b e => b.absorb selection e.1 e.2) b =
      b.pushAll (entries selection 0 c.cells) :=
    ChunkBuilder.foldlM_absorb_eq_pushAll hFixed
      (fun chunk hMem => ⟨h.chunks_wellFormed chunk hMem, c.chunks_type chunk hMem⟩)
      (by omega) (by omega) b
  obtain ⟨b', closed, current, hRun, hFinal, hKept⟩ := hWaiting.pushAll
    (fun entry hEntry => fits_of_mem_cells h hFixed (fst_mem_of_mem_entries hEntry))
    hFixed hSize hBytes (by rw [hSelected]; simp)
  rw [List.nil_append, List.nil_append] at hKept
  have hAll := congrArg List.length hKept
  rw [List.length_append, hSelected] at hAll
  obtain ⟨rfl, hFinish⟩ := hFinal.finish hSize hAll
  rw [List.append_nil] at hKept
  have hCompact : c.compact selection chunkSize =
      (ChunkBuilder.new c.type (max chunkSize 1) selection.count c.tracksValidity >>= fun b =>
        c.placed.foldlM (fun b e => b.absorb selection e.1 e.2) b >>= ChunkBuilder.finish) := rfl
  rw [hCompact, hNew, Result.ok_bind, hFold, hRun, Result.ok_bind, hFinish, hKept,
    keptCells_cells h, packSelected]

end Column

end Columnar
