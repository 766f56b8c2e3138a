import Columnar.Proofs.Chunk.Construction

/-!
# Chunks and cells

A chunk of fixed width is its cells laid end to end.  `Chunk.ofCells` builds the chunk
that compaction builds from some cells, and reading the chunk gives the cells back.

* `cells_ofCells` -- the cells of a built chunk are the cells that it was built from.
* `wellFormed_ofCells` -- a built chunk is well formed.
* `fits_of_mem_cells` -- the cells of a well formed chunk have the width of its type.
-/

namespace Columnar

/-- The value bytes of a cell are as many as elements of the type have. -/
def Cell.Fits (t : DataType) (cell : Cell) : Prop :=
  cell.bytes.length = t.width

theorem length_flatMap_bytes {t : DataType} {cells : List Cell}
    (hFits : ∀ cell ∈ cells, cell.Fits t) :
    (cells.flatMap Cell.bytes).length = cells.length * t.width := by
  induction cells with
  | nil => simp
  | cons cell rest ih =>
      rw [List.flatMap_cons, List.length_append, hFits cell List.mem_cons_self,
        ih fun other hOther => hFits other (List.mem_cons_of_mem _ hOther), List.length_cons,
        Nat.succ_mul, Nat.add_comm]

/-- Cells of one width lie at the multiples of the width. -/
theorem take_drop_flatMap_bytes {t : DataType} {cells : List Cell}
    (hFits : ∀ cell ∈ cells, cell.Fits t) {i : Nat} (hi : i < cells.length) :
    ((cells.flatMap Cell.bytes).drop (i * t.width)).take t.width = cells[i].bytes := by
  induction cells generalizing i with
  | nil => exact absurd hi (Nat.not_lt_zero i)
  | cons cell rest ih =>
      have hHead : cell.bytes.length = t.width := hFits cell List.mem_cons_self
      rw [List.flatMap_cons]
      cases i with
      | zero =>
          rw [Nat.zero_mul, List.drop_zero, List.take_append_of_le_length (by omega),
            List.take_of_length_le (by omega)]
          rfl
      | succ i =>
          have hDrop : (i + 1) * t.width = cell.bytes.length + i * t.width := by
            rw [hHead, Nat.succ_mul, Nat.add_comm]
          rw [hDrop, List.drop_append, List.drop_of_length_le (by omega), List.nil_append,
            Nat.add_sub_cancel_left]
          exact ih (fun other hOther => hFits other (List.mem_cons_of_mem _ hOther))
            (by simpa using hi)

namespace Chunk

/-- The chunk that holds the given cells, with a validity bitmap or without. -/
def ofCells (t : DataType) (tracks : Bool) (cells : List Cell) : Chunk where
  type := t
  length := cells.length
  bytes := (cells.flatMap Cell.bytes).toArray
  offsets := #[]
  validity := if tracks then some (Bitmap.ofBools (cells.map Cell.valid)) else none

section OfCells

variable {t : DataType} {tracks : Bool} {cells : List Cell}

@[simp]
theorem type_ofCells : (ofCells t tracks cells).type = t := rfl

@[simp]
theorem length_ofCells : (ofCells t tracks cells).length = cells.length := rfl

@[simp]
theorem isSome_validity_ofCells : (ofCells t tracks cells).validity.isSome = tracks := by
  cases tracks <;> rfl

theorem size_ofCells (hFits : ∀ cell ∈ cells, cell.Fits t) :
    (ofCells t tracks cells).bytes.size = cells.length * t.width := by
  rw [ofCells, List.size_toArray, length_flatMap_bytes hFits]

theorem slot_ofCells (hFits : ∀ cell ∈ cells, cell.Fits t)
    (hBytes : cells.length * t.width < 2 ^ 63) {i : Nat} (hi : i < cells.length) :
    (ofCells t tracks cells).slot i = cells[i].bytes := by
  have hPlace : i * t.width ≤ cells.length * t.width := Nat.mul_le_mul_right _ (by omega)
  rw [slot, type_ofCells, wordMul_eq_mul (by omega), ofCells]
  simp only [List.extract_toArray, List.extract_eq_take_drop, Nat.add_sub_cancel_left]
  exact take_drop_flatMap_bytes hFits hi

theorem isValid_ofCells (hValid : tracks = false → ∀ cell ∈ cells, cell.valid = true) {i : Nat}
    (hi : i < cells.length) : (ofCells t tracks cells).isValid i = cells[i].valid := by
  cases tracks with
  | false =>
      rw [hValid rfl _ (List.getElem_mem hi)]
      rfl
  | true =>
      show (Bitmap.ofBools (cells.map Cell.valid)).get i = _
      rw [Bitmap.get_ofBools (by simpa using hi), List.getElem_map]

/-- Reading a chunk gives back the cells that it was built from. -/
theorem cells_ofCells (hFixed : t.isFixedWidth = true) (hFits : ∀ cell ∈ cells, cell.Fits t)
    (hBytes : cells.length * t.width < 2 ^ 63)
    (hValid : tracks = false → ∀ cell ∈ cells, cell.valid = true) :
    (ofCells t tracks cells).cells = cells := by
  refine List.ext_getElem (by simp) fun i hLeft hRight => ?_
  simp only [Chunk.cells, List.getElem_map, List.getElem_range, cell,
    elementBytes_eq_slot (c := ofCells t tracks cells) hFixed, slot_ofCells hFits hBytes hRight,
    isValid_ofCells hValid hRight]

theorem wellFormed_ofCells (hFixed : t.isFixedWidth = true)
    (hFits : ∀ cell ∈ cells, cell.Fits t) (hBytes : cells.length * t.width < 2 ^ 63) :
    (ofCells t tracks cells).WellFormed := by
  have hSize : (ofCells t tracks cells).bytes.size = cells.length * t.width :=
    size_ofCells hFits
  refine wellFormed_of_isFixedWidth hFixed hSize (by rw [hSize]; exact hBytes) fun v hv => ?_
  cases tracks with
  | false => exact absurd hv (by simp [ofCells])
  | true =>
      obtain rfl := Option.some.inj hv
      simp

end OfCells

theorem wellFormed_empty (t : DataType) : (empty t).WellFormed := by
  constructor
  case length_lt => exact Nat.two_pow_pos 63
  case bytes_lt => exact Nat.two_pow_pos 63
  case bytes_size => simp [empty]
  case validity_length => simp [empty]

@[simp]
theorem cells_empty (t : DataType) : (empty t).cells = [] := rfl

/-- The cells of a well formed chunk have the width of its type. -/
theorem fits_of_mem_cells {c : Chunk} (h : c.WellFormed) (hFixed : c.type.isFixedWidth = true)
    {cell : Cell} (hMem : cell ∈ c.cells) : cell.Fits c.type := by
  obtain ⟨i, hi, rfl⟩ := List.mem_map.mp hMem
  have hLt : i < c.length := List.mem_range.mp hi
  have hEnd := (wordMul_add_width_le h hFixed hLt).2
  rw [Cell.Fits, Chunk.cell, elementBytes_eq_slot hFixed, slot_eq_extract h hFixed hLt,
    Array.length_toList, Array.size_extract]
  omega

/-- Without a validity bitmap every cell is valid. -/
theorem valid_of_mem_cells {c : Chunk} (h : c.validity = none) {cell : Cell}
    (hMem : cell ∈ c.cells) : cell.valid = true := by
  obtain ⟨i, -, rfl⟩ := List.mem_map.mp hMem
  exact isValid_of_validity_none h i

end Chunk

end Columnar
