import Columnar.Proofs.Compaction.Chunk
import Columnar.Proofs.Compaction.Pieces

/-!
# Packing cells into chunks

`Column.pack` cuts cells of one type into chunks of one length.  It is what a compacted
column is, said without the builder that fills the chunks.

* `cells_pack`, `wellFormed_pack` -- cells of one width make a well formed column, which has
  these cells.
* `bytes_pack`, `validity_pack`, `length_pack` -- the bytes, the validity and the lengths of
  its chunks.
-/

namespace Columnar.Column

variable {t : DataType} {size : Nat} {tracks : Bool} {cells : List Cell}

theorem ofChunks_eq_ok {chunks : List Chunk} (h : ∀ chunk ∈ chunks, chunk.type = t) :
    ofChunks t chunks = .ok { type := t, chunks, chunks_type := h } := by
  unfold ofChunks
  split
  · rfl
  · next bad hBad =>
      have hType := List.find?_some hBad
      simp only [decide_eq_true_eq] at hType
      exact absurd (h bad (List.mem_of_find?_eq_some hBad)) hType

/-- The chunks of packed cells.  Without cells there is one empty chunk. -/
def packedChunks (t : DataType) (size : Nat) (tracks : Bool) (cells : List Cell) : List Chunk :=
  if cells = [] then [Chunk.empty t] else (pieces size cells).map (Chunk.ofCells t tracks)

/-- A column of the given cells, in chunks of `size` rows. -/
def pack (t : DataType) (size : Nat) (tracks : Bool) (cells : List Cell) : Column where
  type := t
  chunks := packedChunks t size tracks cells
  chunks_type := by
    unfold packedChunks
    split <;> simp

/-- Without cells the validity of the builder does not show. -/
theorem pack_nil (t : DataType) (size : Nat) (tracks : Bool) :
    pack t size tracks [] = ofChunk (Chunk.empty t) := rfl

theorem chunks_pack (hSome : cells ≠ []) :
    (pack t size tracks cells).chunks = (pieces size cells).map (Chunk.ofCells t tracks) :=
  if_neg hSome

theorem chunks_pack_ne_nil (hSize : 0 < size) : (pack t size tracks cells).chunks ≠ [] := by
  by_cases hNone : cells = []
  · simp [hNone, pack_nil, ofChunk]
  · rw [chunks_pack hNone]
    simpa [pieces_eq_nil_iff hSize] using hNone

section OfGroups

variable {groups : List (List Cell)}

theorem flatMap_cells_ofCells (hFixed : t.isFixedWidth = true)
    (hFits : ∀ cell ∈ groups.flatten, cell.Fits t)
    (hBytes : groups.flatten.length * t.width < 2 ^ 63)
    (hValid : tracks = false → ∀ cell ∈ groups.flatten, cell.valid = true) :
    (groups.map (Chunk.ofCells t tracks)).flatMap Chunk.cells = groups.flatten := by
  induction groups with
  | nil => rfl
  | cons group rest ih =>
      simp only [List.flatten_cons, List.mem_append, or_imp, forall_and, List.length_append,
        Nat.add_mul] at hFits hBytes hValid
      rw [List.map_cons, List.flatMap_cons, List.flatten_cons,
        Chunk.cells_ofCells hFixed hFits.1 (by omega) hValid.1, ih hFits.2 (by omega) hValid.2]

theorem total_size_ofCells (hFits : ∀ cell ∈ groups.flatten, cell.Fits t) :
    total ((groups.map (Chunk.ofCells t tracks)).map fun chunk => chunk.bytes.size) =
      groups.flatten.length * t.width := by
  induction groups with
  | nil => simp
  | cons group rest ih =>
      simp only [List.flatten_cons, List.mem_append, or_imp, forall_and] at hFits
      simp only [List.map_cons, total_cons, List.flatten_cons, List.length_append, Nat.add_mul]
      rw [Chunk.size_ofCells hFits.1, ih hFits.2]

theorem wellFormed_of_groups (hFixed : t.isFixedWidth = true)
    (hFits : ∀ cell ∈ groups.flatten, cell.Fits t)
    (hBytes : groups.flatten.length * t.width < 2 ^ 63) {c : Column}
    (hChunks : c.chunks = groups.map (Chunk.ofCells t tracks)) : c.WellFormed := by
  have hRows : groups.flatten.length ≤ groups.flatten.length * t.width :=
    Nat.le_mul_of_pos_right _ ((DataType.width_pos_iff t).mpr hFixed)
  constructor
  · rw [hChunks]
    refine List.forall_mem_map.mpr fun group hGroup => ?_
    have hLength : group.length ≤ groups.flatten.length :=
      (List.sublist_flatten_of_mem hGroup).length_le
    have hMul := Nat.mul_le_mul_right t.width hLength
    exact Chunk.wellFormed_ofCells hFixed
      (fun cell hCell => hFits cell (List.mem_flatten_of_mem hGroup hCell)) (by omega)
  · have hSum : total (c.chunks.map Chunk.length) = groups.flatten.length := by
      rw [hChunks, List.map_map, ← List.flatMap_id, length_flatMap_eq_total]
      rfl
    rw [hSum]
    omega
  · rw [hChunks, total_size_ofCells hFits]
    exact hBytes

end OfGroups

/-- A packed column has the cells that were packed. -/
theorem cells_pack (hFixed : t.isFixedWidth = true) (hFits : ∀ cell ∈ cells, cell.Fits t)
    (hBytes : cells.length * t.width < 2 ^ 63) (hSize : 0 < size)
    (hValid : tracks = false → ∀ cell ∈ cells, cell.valid = true) :
    (pack t size tracks cells).cells = cells := by
  by_cases hNone : cells = []
  · rw [hNone]
    rfl
  · have hPieces := flatten_pieces hSize cells
    rw [Column.cells, chunks_pack hNone, flatMap_cells_ofCells hFixed (by rwa [hPieces])
      (by rwa [hPieces]) (by rwa [hPieces]), hPieces]

theorem wellFormed_pack (tracks : Bool) (hFixed : t.isFixedWidth = true)
    (hFits : ∀ cell ∈ cells, cell.Fits t) (hBytes : cells.length * t.width < 2 ^ 63)
    (hSize : 0 < size) : (pack t size tracks cells).WellFormed := by
  by_cases hNone : cells = []
  · subst hNone
    refine ⟨?_, ?_, ?_⟩
    · simpa [pack_nil, ofChunk] using Chunk.wellFormed_empty t
    · simp [pack_nil, ofChunk, Chunk.empty]
    · simp [pack_nil, ofChunk, Chunk.empty]
  · have hPieces := flatten_pieces hSize cells
    exact wellFormed_of_groups hFixed (by rwa [hPieces]) (by rwa [hPieces]) (chunks_pack hNone)

/-- The value bytes of a packed column are those of its cells. -/
theorem bytes_pack (hSize : 0 < size) :
    (pack t size tracks cells).chunks.flatMap (fun chunk => chunk.bytes.toList) =
      cells.flatMap Cell.bytes := by
  by_cases hNone : cells = []
  · rw [hNone]
    rfl
  · calc
      (pack t size tracks cells).chunks.flatMap (fun chunk => chunk.bytes.toList)
          = (pieces size cells).flatMap fun piece => piece.flatMap Cell.bytes := by
        rw [chunks_pack hNone, List.flatMap_map]
        rfl
      _ = (pieces size cells).flatten.flatMap Cell.bytes := by
        rw [← List.flatMap_id, List.flatMap_assoc]
        rfl
      _ = cells.flatMap Cell.bytes := by rw [flatten_pieces hSize]

/-- Every chunk of a packed column has a validity bitmap, or none has. -/
theorem validity_pack (hSome : cells ≠ []) {chunk : Chunk}
    (hMem : chunk ∈ (pack t size tracks cells).chunks) : chunk.validity.isSome = tracks := by
  rw [chunks_pack hSome] at hMem
  obtain ⟨piece, -, rfl⟩ := List.mem_map.mp hMem
  exact Chunk.isSome_validity_ofCells

theorem tracksValidity_pack (hSome : cells ≠ []) (hSize : 0 < size) :
    (pack t size tracks cells).tracksValidity = tracks := by
  have hChunks : (pack t size tracks cells).chunks ≠ [] := chunks_pack_ne_nil hSize
  rw [tracksValidity]
  rw [chunks_pack hSome] at hChunks ⊢
  cases hPieces : pieces size cells with
  | nil => simp [hPieces] at hChunks
  | cons first rest => cases tracks <;> simp [Chunk.ofCells]

/-- Every chunk of a packed column but the last is full, and none is empty. -/
theorem length_pack (hSome : cells ≠ []) (hSize : 0 < size) {i : Nat} {chunk : Chunk}
    (h : (pack t size tracks cells).chunks[i]? = some chunk) :
    (i + 1 < (pack t size tracks cells).chunks.length → chunk.length = size) ∧
      0 < chunk.length ∧ chunk.length ≤ size := by
  rw [chunks_pack hSome, List.getElem?_map, Option.map_eq_some_iff] at h
  obtain ⟨piece, hPiece, rfl⟩ := h
  rw [chunks_pack hSome, List.length_map]
  exact length_of_getElem?_pieces hSize hPiece

end Columnar.Column
