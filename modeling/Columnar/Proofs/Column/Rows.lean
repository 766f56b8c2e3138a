import Columnar.Column

/-!
# The rows of a column

A column is cut into chunks, but it is read row by row.  `Column.cells` is that reading:
one `Cell` for each row, which holds the value bytes of the row and its validity.  What
the rest of the theory says of a column it says of its cells, so that no statement
depends on where the chunks are cut.

* `getElem?_cells` -- the cell of a row is the cell that `locateRow` finds.
* `forall_placeChunks_iff` -- the chunks at their starting rows cover every row once.
* `scalarAt_eq_scalar?` -- a row decodes to the scalar of its cell.
-/

namespace Columnar

/-- One stored element: its value bytes and whether it is valid. -/
structure Cell where
  bytes : List UInt8
  valid : Bool
  deriving DecidableEq

/-- Every word of a type of fixed width decodes. -/
theorem DataType.exists_scalar? {t : DataType} (h : t.isFixedWidth = true) (w : Nat) :
    ∃ s, t.scalar? w = some s := by
  cases t with
  | utf8 | list | struct => exact absurd h (by decide)
  | _ => exact ⟨_, rfl⟩

/-- The decoded element of a cell of a type of fixed width; a cell that is not valid has
none. -/
def Cell.scalar? (t : DataType) (cell : Cell) : Option Scalar :=
  if cell.valid then t.scalar? (littleEndian cell.bytes) else none

theorem Cell.isSome_scalar? {t : DataType} (h : t.isFixedWidth = true) (cell : Cell) :
    (cell.scalar? t).isSome = cell.valid := by
  obtain ⟨s, hs⟩ := DataType.exists_scalar? h (littleEndian cell.bytes)
  cases hValid : cell.valid <;> simp [scalar?, hValid, hs]

namespace Chunk

/-- The bytes between the offsets of the element at `i`, for chunks of text. -/
def textBytes (c : Chunk) (i : Nat) : List UInt8 :=
  match c.offsets[i]?, c.offsets[i + 1]? with
  | some start, some stop => (c.bytes.extract start.toNat stop.toNat).toList
  | _, _ => []

/-- The value bytes of the element at `i`. -/
def elementBytes (c : Chunk) (i : Nat) : List UInt8 :=
  if c.type = .utf8 then c.textBytes i else c.slot i

/-- The element at `i` with its validity. -/
def cell (c : Chunk) (i : Nat) : Cell where
  bytes := c.elementBytes i
  valid := c.isValid i

/-- The cells of a chunk, in order. -/
def cells (c : Chunk) : List Cell :=
  (List.range c.length).map c.cell

@[simp]
theorem length_cells (c : Chunk) : c.cells.length = c.length := by
  simp [cells]

theorem ne_utf8_of_isFixedWidth {t : DataType} (h : t.isFixedWidth = true) : t ≠ .utf8 := by
  rintro rfl
  exact absurd h (by decide)

theorem elementBytes_eq_slot {c : Chunk} (h : c.type.isFixedWidth = true) (i : Nat) :
    c.elementBytes i = c.slot i :=
  if_neg (ne_utf8_of_isFixedWidth h)

/-- In a chunk of fixed width a row decodes to the scalar of its cell. -/
theorem scalarAt_eq_scalar? {c : Chunk} (h : c.type.isFixedWidth = true) (i : Nat) :
    c.scalarAt i = .ok ((c.cell i).scalar? c.type) := by
  obtain ⟨s, hs⟩ := DataType.exists_scalar? h (c.word i)
  cases hValid : c.isValid i with
  | false => simp [scalarAt, Cell.scalar?, cell, hValid]
  | true =>
      have hCell : (c.cell i).scalar? c.type = some s := by
        simp only [Cell.scalar?, cell, hValid, if_true, elementBytes_eq_slot h]
        exact hs
      rw [hCell]
      unfold scalarAt
      rw [if_pos hValid, hs]
      split
      · next hType => exact absurd hType (ne_utf8_of_isFixedWidth h)
      · next hSome _ => rw [Option.some.inj hSome]
      · next hNone _ => exact absurd hNone (by simp)

end Chunk

/-- A row is found exactly when it is below the number of rows. -/
theorem locateRow_eq_none_iff (chunks : List Chunk) (i : Nat) :
    locateRow chunks i = none ↔ total (chunks.map Chunk.length) ≤ i := by
  induction chunks generalizing i with
  | nil => simp [locateRow]
  | cons c rest ih =>
      by_cases hi : i < c.length
      · simp [locateRow, hi]
        omega
      · simp only [locateRow, hi, if_false, ih, List.map_cons, total_cons]
        omega

theorem mem_of_locateRow {chunks : List Chunk} {i : Nat} {c : Chunk} {k : Nat}
    (h : locateRow chunks i = some (c, k)) : c ∈ chunks ∧ k < c.length := by
  induction chunks generalizing i with
  | nil => simp [locateRow] at h
  | cons first rest ih =>
      by_cases hi : i < first.length
      · simp only [locateRow, hi, if_true, Option.some.injEq, Prod.mk.injEq] at h
        obtain ⟨rfl, rfl⟩ := h
        exact ⟨List.mem_cons_self, hi⟩
      · simp only [locateRow, hi, if_false] at h
        exact ⟨List.mem_cons_of_mem _ (ih h).1, (ih h).2⟩

theorem mem_of_mem_placeChunks {start : Nat} {chunks : List Chunk} {e : Nat × Chunk}
    (h : e ∈ placeChunks start chunks) : e.2 ∈ chunks := by
  induction chunks generalizing start with
  | nil => cases h
  | cons c rest ih =>
      rcases List.mem_cons.mp h with rfl | hRest
      · exact List.mem_cons_self
      · exact List.mem_cons_of_mem _ (ih hRest)

/-- The chunks of a list whose starting rows do not wrap lie between the first and the
last row of the list. -/
theorem bounds_of_mem_placeChunks {start : Nat} {chunks : List Chunk}
    (hFit : start + total (chunks.map Chunk.length) < 2 ^ 64) {e : Nat × Chunk}
    (he : e ∈ placeChunks start chunks) :
    start ≤ e.1 ∧ e.1 + e.2.length ≤ start + total (chunks.map Chunk.length) := by
  induction chunks generalizing start with
  | nil => simp [placeChunks] at he
  | cons c rest ih =>
      simp only [List.map_cons, total_cons] at hFit ⊢
      rw [placeChunks, wordAdd_eq_add (by omega), List.mem_cons] at he
      rcases he with rfl | he
      · exact ⟨Nat.le_refl _, by simp only; omega⟩
      · obtain ⟨hLower, hUpper⟩ := ih (by omega) he
        exact ⟨by omega, by omega⟩

/-- Of two chunks of a list the later one starts where the earlier one has ended. -/
theorem pairwise_placeChunks (start : Nat) (chunks : List Chunk)
    (hFit : start + total (chunks.map Chunk.length) < 2 ^ 64) :
    (placeChunks start chunks).Pairwise fun e e' => e.1 + e.2.length ≤ e'.1 := by
  induction chunks generalizing start with
  | nil => exact List.Pairwise.nil
  | cons c rest ih =>
      simp only [List.map_cons, total_cons] at hFit
      have hNext : wordAdd start c.length = start + c.length := wordAdd_eq_add (by omega)
      rw [placeChunks, hNext]
      exact List.Pairwise.cons
        (fun e he => (bounds_of_mem_placeChunks (by omega) he).1) (ih _ (by omega))

/-- A fact about the chunks at their starting rows is a fact about the chunk that
holds the row, as long as no starting row wraps. -/
theorem forall_placeChunks_iff {P : Chunk → Nat → Prop} (start : Nat) (chunks : List Chunk)
    (hFit : start + total (chunks.map Chunk.length) < 2 ^ 64) (i : Nat) (hStart : start ≤ i) :
    (∀ e ∈ placeChunks start chunks,
        e.1 ≤ i → i < e.1 + e.2.length → P e.2 (i - e.1)) ↔
      ∀ c k, locateRow chunks (i - start) = some (c, k) → P c k := by
  induction chunks generalizing start with
  | nil => simp [placeChunks, locateRow]
  | cons c rest ih =>
      simp only [List.map_cons, total_cons] at hFit
      have hNext : wordAdd start c.length = start + c.length := wordAdd_eq_add (by omega)
      simp only [placeChunks, hNext, List.forall_mem_cons, locateRow]
      by_cases hi : i - start < c.length
      · -- No later chunk reaches back to row `i`.
        have hLater : ∀ e ∈ placeChunks (start + c.length) rest, i < e.1 := by
          intro e he
          have := (bounds_of_mem_placeChunks (by omega) he).1
          omega
        simp only [hi, if_true, Option.some.injEq, Prod.mk.injEq]
        constructor
        · rintro ⟨hHere, -⟩ _ _ ⟨rfl, rfl⟩
          exact hHere hStart (by omega)
        · intro hHere
          refine ⟨fun _ _ => hHere c (i - start) ⟨rfl, rfl⟩, fun e he hLe _ => ?_⟩
          have := hLater e he
          omega
      · have hRest := ih (start + c.length) (by omega) (by omega)
        have hSub : i - (start + c.length) = i - start - c.length := by omega
        rw [hSub] at hRest
        simp only [hi, if_false, ← hRest]
        constructor
        · exact fun h => h.2
        · exact fun h => ⟨fun _ hLt => by omega, h⟩

namespace Column

/-- The stored word of row `i`, valid or not; a row past the end has none. -/
def word? (c : Column) (i : Nat) : Option Nat :=
  (locateRow c.chunks i).map fun e => e.1.word e.2

/-- A fact about the words at their rows is a fact about the chunk that holds the row. -/
theorem forall_locateRow_iff (c : Column) (P : Nat → Prop) (i : Nat) :
    (∀ chunk j, locateRow c.chunks i = some (chunk, j) → P (chunk.word j)) ↔
      ∀ w, c.word? i = some w → P w := by
  simp only [word?, Option.map_eq_some_iff, Prod.exists]
  constructor
  · rintro h w ⟨chunk, j, hRow, rfl⟩
    exact h chunk j hRow
  · exact fun h chunk j hRow => h _ ⟨chunk, j, hRow, rfl⟩

/-- The chunks of a column hold exactly the bytes of the elements that they announce, each of
them in one block of memory, and the number of rows is a machine word. -/
structure Filled (c : Column) : Prop where
  bytes_size : ∀ chunk ∈ c.chunks, chunk.bytes.size = chunk.length * c.type.width
  bytes_lt : ∀ chunk ∈ c.chunks, chunk.bytes.size < 2 ^ 63
  rows_lt : total (c.chunks.map Chunk.length) < 2 ^ 64

/-- A well formed column of fixed width is filled. -/
theorem WellFormed.filled {c : Column} (h : c.WellFormed)
    (hFixed : c.type.isFixedWidth = true) : c.Filled where
  bytes_size chunk hMem := by
    refine (h.chunks_wellFormed chunk hMem).bytes_size _ ?_
    rw [c.chunks_type chunk hMem]
    exact (DataType.width?_eq_some_iff _ _).mpr ⟨hFixed, rfl⟩
  bytes_lt chunk hMem := (h.chunks_wellFormed chunk hMem).bytes_lt
  rows_lt := h.rows_lt

namespace Filled

variable {c : Column} {chunk : Chunk}

theorem length_lt (h : c.Filled) (hFixed : c.type.isFixedWidth = true)
    (hMem : chunk ∈ c.chunks) : chunk.length < 2 ^ 63 := by
  have hSize := h.bytes_size chunk hMem
  have hBytes := h.bytes_lt chunk hMem
  have hWidth := (DataType.width_pos_iff _).mpr hFixed
  have hLength := Nat.le_mul_of_pos_right chunk.length hWidth
  omega

/-- The bytes of an element lie inside the chunk, where no product of a position and a
width wraps. -/
theorem wordMul_add_width_le (h : c.Filled) (hMem : chunk ∈ c.chunks) {i : Nat}
    (hi : i < chunk.length) :
    wordMul i c.type.width = i * c.type.width ∧
      i * c.type.width + c.type.width ≤ chunk.bytes.size :=
  wordMul_add_le (h.bytes_size chunk hMem) (h.bytes_lt chunk hMem) hi

theorem length_eq_total (h : c.Filled) : c.length = total (c.chunks.map Chunk.length) :=
  c.length_eq.trans (wordSum_eq_total h.rows_lt)

/-- The rows below the length are those that have a word. -/
theorem word?_eq_none_iff (h : c.Filled) (i : Nat) : c.word? i = none ↔ c.length ≤ i := by
  rw [word?, Option.map_eq_none_iff, locateRow_eq_none_iff, h.length_eq_total]

theorem exists_word? (h : c.Filled) {i : Nat} (hi : i < c.length) : ∃ w, c.word? i = some w :=
  Option.ne_none_iff_exists'.mp fun hNone =>
    Nat.not_le.mpr hi ((h.word?_eq_none_iff i).mp hNone)

/-- A chunk at its starting row lies inside the column. -/
theorem bounds_of_mem_placed (h : c.Filled) {e : Nat × Chunk} (he : e ∈ c.placed) :
    e.1 + e.2.length ≤ c.length ∧ e.2 ∈ c.chunks := by
  have hRows : 0 + total (c.chunks.map Chunk.length) < 2 ^ 64 := by
    have := h.rows_lt
    omega
  have hMem := mem_of_mem_placeChunks he
  obtain ⟨-, hEnd⟩ := bounds_of_mem_placeChunks hRows he
  rw [h.length_eq_total]
  exact ⟨by omega, hMem⟩

/-- Of two chunks of a column at their starting rows one lies behind the other. -/
theorem pairwise_placed (h : c.Filled) :
    c.placed.Pairwise fun e e' => e.1 + e.2.length ≤ e'.1 := by
  refine pairwise_placeChunks 0 c.chunks ?_
  have := h.rows_lt
  omega

theorem eq_or_apart (h : c.Filled) {e e' : Nat × Chunk} (he : e ∈ c.placed)
    (he' : e' ∈ c.placed) :
    e = e' ∨ e.1 + e.2.length ≤ e'.1 ∨ e'.1 + e'.2.length ≤ e.1 := by
  obtain ⟨i, hi, rfl⟩ := List.getElem_of_mem he
  obtain ⟨j, hj, rfl⟩ := List.getElem_of_mem he'
  have hOrder := List.pairwise_iff_getElem.mp h.pairwise_placed
  rcases Nat.lt_trichotomy i j with hLt | rfl | hLt
  · exact .inr (.inl (hOrder i j hi hj hLt))
  · exact .inl rfl
  · exact .inr (.inr (hOrder j i hj hi hLt))

end Filled

/-- The numbers up to 37, cut inside bytes.  One chunk lies inside a byte and one is empty. -/
def uneven : Column :=
  .ofSlices .uint8 <| [List.range' 0 5, List.range' 5 2, List.range' 7 13, [],
    List.range' 20 17].map fun slice => slice.map (BitVec.ofNat 8)

theorem filled_uneven : uneven.Filled where
  bytes_size := by decide +kernel
  bytes_lt := by decide +kernel
  rows_lt := by decide +kernel

/-- The cells of a column, row by row. -/
def cells (c : Column) : List Cell :=
  c.chunks.flatMap Chunk.cells

/-- Whether some chunk of the column has a validity bitmap. -/
def tracksValidity (c : Column) : Bool :=
  c.chunks.any fun chunk => chunk.validity.isSome

theorem length_cells {c : Column} (h : c.WellFormed) : c.cells.length = c.length := by
  rw [length_eq_total h, cells, length_flatMap_eq_total]
  exact congrArg total (List.map_congr_left fun chunk _ => chunk.length_cells)

end Column

theorem getElem?_flatMap_cells (chunks : List Chunk) (i : Nat) :
    (chunks.flatMap Chunk.cells)[i]? = (locateRow chunks i).map fun e => e.1.cell e.2 := by
  induction chunks generalizing i with
  | nil => simp [locateRow]
  | cons c rest ih =>
      rw [List.flatMap_cons, locateRow]
      by_cases hi : i < c.length
      · rw [List.getElem?_append_left (by simpa using hi), if_pos hi]
        simp [Chunk.cells, hi]
      · rw [List.getElem?_append_right (by simpa using hi), if_neg hi, Chunk.length_cells]
        exact ih _

namespace Column

/-- The cell of a row is the cell of the element that holds it. -/
theorem getElem?_cells (c : Column) (i : Nat) :
    c.cells[i]? = (locateRow c.chunks i).map fun e => e.1.cell e.2 :=
  getElem?_flatMap_cells c.chunks i

/-- In a column of fixed width a row decodes to the scalar of its cell. -/
theorem scalarAt_eq_scalar? {c : Column} (h : c.type.isFixedWidth = true) (i : Nat) :
    c.scalarAt i = .ok (c.cells[i]?.bind (Cell.scalar? c.type)) := by
  rw [scalarAt, getElem?_cells]
  cases hRow : locateRow c.chunks i with
  | none => rfl
  | some e =>
      obtain ⟨chunk, k⟩ := e
      have hType := c.chunks_type chunk (mem_of_locateRow hRow).1
      rw [← hType] at h ⊢
      exact Chunk.scalarAt_eq_scalar? h k

end Column

end Columnar
