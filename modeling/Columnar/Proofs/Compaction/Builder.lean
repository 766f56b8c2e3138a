import Columnar.Compaction
import Columnar.Proofs.Compaction.Pack
import Columnar.Proofs.Result

/-!
# The builder packs the kept cells

A chunk builder is handed every cell of a column and told which of them to keep.  `Filling`
is the invariant that carries it through: the cells of the closed chunks and of the open one
are the cells kept so far, the buffers begin with the open cells, and they have a slot for
whatever comes next.

* `Filling.write` -- a write fits into the buffers and changes nothing that is kept.
* `Filling.push` -- one cell, kept or not, keeps the invariant.
* `Filling.pushAll` -- and so does any number of them, as long as no more are kept than
  announced.
* `Filling.finish` -- when all announced cells were kept the result is the packed column.
-/

namespace Columnar

@[simp]
theorem size_overwrite (bytes : Array UInt8) (place : Nat) (slot : List UInt8) :
    (overwrite bytes place slot).size = bytes.size := by
  induction slot generalizing bytes place with
  | nil => rfl
  | cons byte rest ih => rw [overwrite, ih, Array.size_setIfInBounds]

/-- Up to its end an overwritten slot is what was in front of it and the new bytes. -/
theorem take_overwrite {bytes : Array UInt8} {place : Nat} {slot : List UInt8}
    (h : place + slot.length ≤ bytes.size) :
    (overwrite bytes place slot).toList.take (place + slot.length) =
      bytes.toList.take place ++ slot := by
  induction slot generalizing bytes place with
  | nil => simp [overwrite]
  | cons byte rest ih =>
      rw [List.length_cons] at h
      have hFront : (bytes.setIfInBounds place byte).toList.take (place + 1) =
          bytes.toList.take place ++ [byte] := by
        rw [Array.toList_setIfInBounds, List.take_add_one, List.take_set_of_le (Nat.le_refl _),
          List.getElem?_set_self (by rw [Array.length_toList]; omega)]
        rfl
      have hRoom : place + 1 + rest.length ≤ (bytes.setIfInBounds place byte).size := by
        rw [Array.size_setIfInBounds]
        omega
      have hRest := ih hRoom
      rw [overwrite, List.length_cons, show place + (rest.length + 1) = place + 1 + rest.length by
        omega, hRest, hFront, List.append_assoc]
      rfl

/-- In front of it an overwritten slot changes nothing. -/
theorem take_overwrite_of_le {bytes : Array UInt8} {place n : Nat} {slot : List UInt8}
    (h : place + slot.length ≤ bytes.size) (hn : n ≤ place) :
    (overwrite bytes place slot).toList.take n = bytes.toList.take n := by
  have hFront := congrArg (List.take n) (take_overwrite h)
  rwa [List.take_take, Nat.min_eq_left (by omega),
    List.take_append_of_le_length (by rw [List.length_take, Array.length_toList]; omega),
    List.take_take, Nat.min_eq_left hn] at hFront

/-- A cell handed to a builder, and whether it is kept. -/
abbrev Entry := Cell × Bool

/-- The cells that are kept. -/
def keptCells (entries : List Entry) : List Cell :=
  (entries.filter Prod.snd).map Prod.fst

theorem keptCells_cons (entry : Entry) (entries : List Entry) :
    keptCells (entry :: entries) = (if entry.2 then [entry.1] else []) ++ keptCells entries := by
  obtain ⟨cell, keep⟩ := entry
  cases keep <;> rfl

namespace ChunkBuilder

/-- The first slots of the buffers hold these cells. -/
structure Holds (b : ChunkBuilder) (cells : List Cell) : Prop where
  bytes_take : b.bytes.toList.take (cells.length * b.type.width) = cells.flatMap Cell.bytes
  valid_take : b.tracksValidity = true →
    b.valid.toList.take cells.length = cells.map Cell.valid

/-- A builder of `selected` elements that has closed the chunks of `closed` and has kept the
cells of `current` since. -/
structure Filling (t : DataType) (size : Nat) (tracks : Bool) (selected : Nat)
    (closed current : List Cell) (b : ChunkBuilder) : Prop where
  type_eq : b.type = t
  chunkSize_eq : b.chunkSize = size
  tracks_eq : b.tracksValidity = tracks
  done_eq : b.done.toList = (pieces size closed).map (Chunk.ofCells t tracks)
  remaining_eq : closed.length + b.remaining = selected
  closed_full : 0 < b.remaining → size ∣ closed.length
  capacity_eq : b.capacity = min size b.remaining
  bytes_size : b.bytes.size = (b.capacity + 1) * t.width
  valid_size : tracks = true → b.valid.size = b.capacity + 1
  cursor_eq : b.cursor = current.length
  length_le : current.length ≤ b.capacity
  fits : ∀ cell ∈ current, cell.Fits t
  holds : b.Holds current

/-- A builder between two cells: a chunk that is full has been closed. -/
structure Waiting (t : DataType) (size : Nat) (tracks : Bool) (selected : Nat)
    (closed current : List Cell) (b : ChunkBuilder) : Prop
    extends Filling t size tracks selected closed current b where
  not_full : current = [] ∨ current.length < b.capacity

variable {t : DataType} {size selected : Nat} {tracks : Bool} {closed current : List Cell}
  {b : ChunkBuilder} {cell : Cell}

/-- A builder that opens a chunk has kept nothing for it. -/
theorem waiting_reset (hType : b.type = t) (hSize : b.chunkSize = size)
    (hTracks : b.tracksValidity = tracks)
    (hDone : b.done.toList = (pieces size closed).map (Chunk.ofCells t tracks))
    (hRemaining : closed.length + b.remaining = selected)
    (hFull : 0 < b.remaining → size ∣ closed.length) :
    Waiting t size tracks selected closed [] b.reset where
  type_eq := hType
  chunkSize_eq := hSize
  tracks_eq := hTracks
  done_eq := hDone
  remaining_eq := hRemaining
  closed_full := hFull
  capacity_eq := by rw [← hSize]; rfl
  bytes_size := by simp [reset, hType]
  valid_size hSome := by simp [reset, hTracks, hSome]
  cursor_eq := rfl
  length_le := Nat.zero_le _
  fits := by simp
  holds := ⟨by simp, by simp⟩
  not_full := .inl rfl

/-- A new builder has kept nothing. -/
theorem exists_new (size selected : Nat) (tracks : Bool) (hFixed : t.isFixedWidth = true) :
    ∃ b, new t size selected tracks = .ok b ∧ Waiting t size tracks selected [] [] b :=
  ⟨_, if_pos hFixed,
    waiting_reset rfl rfl rfl (by simp) (Nat.zero_add _) fun _ => Nat.dvd_zero size⟩

/-- The raw parts of an open chunk fit together. -/
theorem ofRaw_cells {cells : List Cell} (hFixed : t.isFixedWidth = true)
    (hFits : ∀ cell ∈ cells, cell.Fits t) (hBytes : cells.length * t.width < 2 ^ 63) :
    Chunk.ofRaw t cells.length (cells.flatMap Cell.bytes).toArray
        (if tracks then some (Bitmap.ofBools (cells.map Cell.valid)) else none) =
      .ok (Chunk.ofCells t tracks cells) := by
  have hWidth : t.width? = some t.width := (DataType.width?_eq_some_iff _ _).mpr ⟨hFixed, rfl⟩
  have hSize : (cells.flatMap Cell.bytes).toArray.size = wordMul cells.length t.width := by
    rw [List.size_toArray, length_flatMap_bytes hFits, wordMul_eq_mul (by omega)]
  cases tracks <;>
    simp [Chunk.ofRaw, hWidth, hSize, pure, Except.pure, Chunk.ofCells]

/-- Closing a builder makes a chunk of the cells that the buffers hold up to the cursor. -/
theorem flush_eq (hFixed : b.type.isFixedWidth = true) {cells : List Cell}
    (hCursor : b.cursor = cells.length) (hHolds : b.Holds cells)
    (hFits : ∀ cell ∈ cells, cell.Fits b.type) (hBytes : cells.length * b.type.width < 2 ^ 63) :
    b.flush = .ok (reset { b with
      done := b.done.push (Chunk.ofCells b.type b.tracksValidity cells)
      remaining := b.remaining - cells.length }) := by
  have hValues : b.bytes.extract 0 (b.cursor * b.type.width) =
      (cells.flatMap Cell.bytes).toArray := by
    refine Array.toList_inj.mp ?_
    rw [Array.toList_extract, List.extract_eq_take_drop, List.drop_zero, Nat.sub_zero, hCursor,
      hHolds.bytes_take]
  have hValid : (if b.tracksValidity then
      some (Bitmap.ofBools (b.valid.toList.take b.cursor)) else none) =
        if b.tracksValidity then some (Bitmap.ofBools (cells.map Cell.valid)) else none := by
    by_cases hTracks : b.tracksValidity = true
    · rw [if_pos hTracks, if_pos hTracks, hCursor, hHolds.valid_take hTracks]
    · rw [if_neg hTracks, if_neg hTracks]
  rw [flush, hValid, hValues, hCursor, ofRaw_cells hFixed hFits hBytes, Result.ok_bind]
  rfl

/-- A builder behind a write. -/
def put (b : ChunkBuilder) (cell : Cell) : ChunkBuilder :=
  { b with
    bytes := overwrite b.bytes (b.cursor * b.type.width) cell.bytes
    valid := if b.tracksValidity then b.valid.setIfInBounds b.cursor cell.valid else b.valid }

namespace Filling

theorem cursor_le (h : Filling t size tracks selected closed current b) :
    b.cursor ≤ b.capacity := by
  rw [h.cursor_eq]
  exact h.length_le

/-- There is a slot at the cursor. -/
theorem slot_le (h : Filling t size tracks selected closed current b) :
    b.cursor * t.width + t.width ≤ b.bytes.size := by
  rw [h.bytes_size, ← Nat.succ_mul]
  exact Nat.mul_le_mul_right _ (Nat.succ_le_succ h.cursor_le)

/-- A write fits into the buffers. -/
theorem write_eq (h : Filling t size tracks selected closed current b) (hCell : cell.Fits t) :
    b.write cell.bytes cell.valid = .ok (b.put cell) := by
  have hSlot := h.slot_le
  have hCursor := h.cursor_le
  rw [← h.type_eq] at hSlot hCell
  rw [write, if_neg (by omega), if_neg (by rw [hCell]; exact not_not_intro rfl)]
  by_cases hTracks : b.tracksValidity = true
  · have hValid := h.valid_size (by rw [← h.tracks_eq, hTracks])
    rw [if_pos hTracks, if_neg (by omega), ChunkBuilder.put, if_pos hTracks]
  · rw [if_neg hTracks, ChunkBuilder.put, if_neg hTracks]

/-- Behind a write the buffers hold one cell more. -/
theorem holds_put (h : Filling t size tracks selected closed current b)
    (hCell : cell.Fits t) : (b.put cell).Holds (current ++ [cell]) where
  bytes_take := by
    have hSlot := h.slot_le
    have hWrite : b.cursor * t.width + cell.bytes.length ≤ b.bytes.size := by rwa [hCell]
    have hTake := take_overwrite hWrite
    have hHolds := h.holds.bytes_take
    rw [h.type_eq, ← h.cursor_eq] at hHolds
    rw [hHolds, hCell, ← Nat.succ_mul] at hTake
    rw [List.flatMap_append, List.flatMap_singleton, ← hTake, List.length_append,
      List.length_singleton, ← h.cursor_eq, ChunkBuilder.put, h.type_eq]
  valid_take hTracks := by
    have hTracks' : b.tracksValidity = true := hTracks
    have hSize := h.valid_size (by rw [← h.tracks_eq, hTracks'])
    have hCursor := h.cursor_le
    rw [List.map_append, ← h.holds.valid_take hTracks', ChunkBuilder.put, if_pos hTracks',
      List.length_append, List.length_singleton, ← h.cursor_eq, Array.toList_setIfInBounds,
      List.take_add_one, List.take_set_of_le (Nat.le_refl _),
      List.getElem?_set_self (by rw [Array.length_toList]; omega)]
    rfl

/-- A write changes nothing that is kept. -/
theorem put (h : Filling t size tracks selected closed current b) (hCell : cell.Fits t) :
    Filling t size tracks selected closed current (b.put cell) where
  type_eq := h.type_eq
  chunkSize_eq := h.chunkSize_eq
  tracks_eq := h.tracks_eq
  done_eq := h.done_eq
  remaining_eq := h.remaining_eq
  closed_full := h.closed_full
  capacity_eq := h.capacity_eq
  bytes_size := (size_overwrite ..).trans h.bytes_size
  valid_size hSome := by
    refine Eq.trans ?_ (h.valid_size hSome)
    rw [ChunkBuilder.put]
    split
    · exact Array.size_setIfInBounds
    · rfl
  cursor_eq := h.cursor_eq
  length_le := h.length_le
  fits := h.fits
  holds :=
    { bytes_take := by
        have hSlot := h.slot_le
        rw [← h.holds.bytes_take, ChunkBuilder.put]
        refine take_overwrite_of_le ?_ (Nat.le_of_eq ?_)
        · rw [h.type_eq, hCell]
          exact hSlot
        · rw [h.cursor_eq]
      valid_take := fun hTracks => by
        have hTracks' : b.tracksValidity = true := hTracks
        rw [← h.holds.valid_take hTracks', ChunkBuilder.put, if_pos hTracks',
          Array.toList_setIfInBounds, h.cursor_eq, List.take_set_of_le (Nat.le_refl _)] }

/-- Behind a write the cursor can move on, if the open chunk has room. -/
theorem advance (h : Filling t size tracks selected closed current b) (hCell : cell.Fits t)
    (hRoom : current.length < b.capacity) :
    Filling t size tracks selected closed (current ++ [cell])
      { b.put cell with cursor := b.cursor + 1 } where
  type_eq := h.type_eq
  chunkSize_eq := h.chunkSize_eq
  tracks_eq := h.tracks_eq
  done_eq := h.done_eq
  remaining_eq := h.remaining_eq
  closed_full := h.closed_full
  capacity_eq := h.capacity_eq
  bytes_size := (h.put hCell).bytes_size
  valid_size := (h.put hCell).valid_size
  cursor_eq := by rw [h.cursor_eq, List.length_append, List.length_singleton]
  length_le := by rwa [List.length_append, List.length_singleton]
  fits := by simpa [or_imp, forall_and] using And.intro h.fits hCell
  holds := ⟨(h.holds_put hCell).bytes_take, (h.holds_put hCell).valid_take⟩

/-- A full chunk is closed, and the next one is opened. -/
theorem flush (h : Filling t size tracks selected closed current b)
    (hFixed : t.isFixedWidth = true) (hBytes : selected * t.width < 2 ^ 63)
    (hFull : current.length = b.capacity) (hSome : current ≠ []) :
    ∃ b', b.flush = .ok b' ∧ Waiting t size tracks selected (closed ++ current) [] b' := by
  have hRemaining := h.remaining_eq
  have hCapacity := h.capacity_eq
  have hLength := List.length_pos_iff.mpr hSome
  have hMul : current.length * t.width ≤ selected * t.width :=
    Nat.mul_le_mul_right _ (by omega)
  obtain rfl := h.type_eq
  obtain rfl := h.tracks_eq
  refine ⟨_, flush_eq hFixed h.cursor_eq h.holds h.fits (by omega),
    waiting_reset rfl h.chunkSize_eq rfl ?_ ?_ ?_⟩
  · -- The closed chunks are full, as there was something left to keep.
    have hPieces : pieces size (closed ++ current) = pieces size closed ++ [current] :=
      pieces_append (h.closed_full (by omega)) hSome (by omega)
    simp only [Array.toList_push, h.done_eq, hPieces, List.map_append, List.map_singleton]
  · simp only [List.length_append]
    omega
  · -- Something is left to keep, so this chunk has the full length.
    intro hLeft
    have hWhole : current.length = size := by
      simp only at hLeft
      omega
    rw [List.length_append, hWhole]
    exact Nat.dvd_add (h.closed_full (by omega)) (Nat.dvd_refl size)

end Filling

namespace Waiting

theorem push_eq (h : Waiting t size tracks selected closed current b) (hCell : cell.Fits t)
    (keep : Bool) :
    b.push cell.bytes cell.valid keep =
      if b.cursor + keep.toNat = b.capacity ∧ 0 < b.cursor + keep.toNat then
        ChunkBuilder.flush { b.put cell with cursor := b.cursor + keep.toNat }
      else .ok { b.put cell with cursor := b.cursor + keep.toNat } := by
  rw [push, h.write_eq hCell, Result.ok_bind]
  rfl

/-- A cell that is not kept leaves the cursor where it is. -/
theorem push_dropped (h : Waiting t size tracks selected closed current b)
    (hCell : cell.Fits t) :
    ∃ b', b.push cell.bytes cell.valid false = .ok b' ∧
      Waiting t size tracks selected closed current b' := by
  refine ⟨b.put cell, ?_, { h.put hCell with not_full := h.not_full }⟩
  have hOpen : ¬ (b.cursor = b.capacity ∧ 0 < b.cursor) := by
    have hCursor := h.cursor_eq
    rcases h.not_full with rfl | hLess
    · rw [List.length_nil] at hCursor
      omega
    · omega
  rw [h.push_eq hCell]
  exact if_neg hOpen

/-- A cell that is kept moves the cursor on, and closes the chunk if it fills it up. -/
theorem push_kept (h : Waiting t size tracks selected closed current b) (hCell : cell.Fits t)
    (hFixed : t.isFixedWidth = true) (hSize : 0 < size) (hBytes : selected * t.width < 2 ^ 63)
    (hRoom : closed.length + current.length < selected) :
    ∃ b' closed' current', b.push cell.bytes cell.valid true = .ok b' ∧
      Waiting t size tracks selected closed' current' b' ∧
      closed' ++ current' = closed ++ current ++ [cell] := by
  have hCursor := h.cursor_eq
  have hRemaining := h.remaining_eq
  have hCapacity := h.capacity_eq
  -- More cells are to be kept, so the open chunk has room for this one.
  have hLess : current.length < b.capacity := by
    rcases h.not_full with rfl | hLess
    · rw [List.length_nil] at hRoom ⊢
      omega
    · exact hLess
  have hNext := h.advance hCell hLess
  rw [h.push_eq hCell, Bool.toNat_true]
  by_cases hFull : b.cursor + 1 = b.capacity
  · rw [if_pos ⟨hFull, Nat.succ_pos _⟩]
    obtain ⟨b', hFlush, hWaiting⟩ := hNext.flush hFixed hBytes
      (by rw [List.length_append, List.length_singleton, ← hCursor]; exact hFull) (by simp)
    exact ⟨b', closed ++ (current ++ [cell]), [], hFlush, hWaiting, by simp⟩
  · rw [if_neg fun hBoth => hFull hBoth.1]
    refine ⟨_, closed, current ++ [cell], rfl, { hNext with not_full := .inr ?_ },
      by rw [List.append_assoc]⟩
    show (current ++ [cell]).length < b.capacity
    rw [List.length_append, List.length_singleton]
    omega

/-- One cell, kept or not. -/
theorem push (h : Waiting t size tracks selected closed current b) {entry : Entry}
    (hCell : entry.1.Fits t) (hFixed : t.isFixedWidth = true) (hSize : 0 < size)
    (hBytes : selected * t.width < 2 ^ 63)
    (hRoom : closed.length + current.length + (keptCells [entry]).length ≤ selected) :
    ∃ b' closed' current', b.push entry.1.bytes entry.1.valid entry.2 = .ok b' ∧
      Waiting t size tracks selected closed' current' b' ∧
      closed' ++ current' = closed ++ current ++ keptCells [entry] := by
  obtain ⟨cell, keep⟩ := entry
  cases keep with
  | false =>
      obtain ⟨b', hPush, hWaiting⟩ := h.push_dropped hCell
      exact ⟨b', closed, current, hPush, hWaiting, (List.append_nil _).symm⟩
  | true => exact h.push_kept hCell hFixed hSize hBytes hRoom

end Waiting

/-- Hands over cells one after the other. -/
def pushAll (b : ChunkBuilder) (entries : List Entry) : Result ChunkBuilder :=
  entries.foldlM (fun b entry => b.push entry.1.bytes entry.1.valid entry.2) b

theorem pushAll_append (b : ChunkBuilder) (entries others : List Entry) :
    b.pushAll (entries ++ others) = (b.pushAll entries >>= fun b => b.pushAll others) := by
  simp [pushAll]

/-- Any number of cells, of which no more are kept than were announced. -/
theorem Waiting.pushAll (h : Waiting t size tracks selected closed current b)
    {entries : List Entry} (hFits : ∀ entry ∈ entries, entry.1.Fits t)
    (hFixed : t.isFixedWidth = true) (hSize : 0 < size) (hBytes : selected * t.width < 2 ^ 63)
    (hRoom : closed.length + current.length + (keptCells entries).length ≤ selected) :
    ∃ b' closed' current', b.pushAll entries = .ok b' ∧
      Waiting t size tracks selected closed' current' b' ∧
      closed' ++ current' = closed ++ current ++ keptCells entries := by
  -- What was kept grows with the entries, so the state is generalized over them.
  induction entries generalizing b closed current with
  | nil => exact ⟨b, closed, current, rfl, h, (List.append_nil _).symm⟩
  | cons entry rest ih =>
      have hSplit : keptCells (entry :: rest) = keptCells [entry] ++ keptCells rest := by
        rw [keptCells_cons, keptCells_cons, List.append_assoc]
        rfl
      rw [hSplit, List.length_append] at hRoom
      obtain ⟨b₁, closed₁, current₁, hPush, hWaiting, hKept⟩ :=
        h.push (hFits entry List.mem_cons_self) hFixed hSize hBytes (by omega)
      have hLength := congrArg List.length hKept
      simp only [List.length_append] at hLength
      obtain ⟨b₂, closed₂, current₂, hRest, hLast, hAll⟩ :=
        ih hWaiting (fun other hOther => hFits other (List.mem_cons_of_mem _ hOther)) (by omega)
      refine ⟨b₂, closed₂, current₂, ?_, hLast, by rw [hAll, hKept, hSplit, List.append_assoc]⟩
      rw [ChunkBuilder.pushAll, List.foldlM_cons, hPush]
      exact hRest

/-- When all announced cells were kept, no chunk is open, and the chunks are those of the
packed column. -/
theorem Waiting.finish (h : Waiting t size tracks selected closed current b) (hSize : 0 < size)
    (hAll : closed.length + current.length = selected) :
    current = [] ∧ b.finish = .ok (Column.pack t size tracks closed) := by
  have hRemaining := h.remaining_eq
  have hCapacity := h.capacity_eq
  have hNone : current = [] := by
    rcases h.not_full with hNone | hLess
    · exact hNone
    · omega
  have hCursor := h.cursor_eq
  rw [hNone, List.length_nil] at hCursor
  have hDone : b.done.isEmpty = true ↔ closed = [] := by
    rw [← pieces_eq_nil_iff hSize, ← List.map_eq_nil_iff (f := Chunk.ofCells t tracks),
      ← h.done_eq, Array.toList_eq_nil_iff, Array.isEmpty_iff]
  have hFinish : b.finish =
      if b.done.isEmpty then Column.ofChunks b.type [Chunk.empty b.type]
      else Column.ofChunks b.type b.done.toList := by
    rw [ChunkBuilder.finish, if_neg (by omega)]
    rfl
  refine ⟨hNone, ?_⟩
  rw [hFinish, h.type_eq, h.done_eq]
  by_cases hEmpty : closed = []
  · rw [if_pos (hDone.mpr hEmpty), hEmpty]
    exact Column.ofChunks_eq_ok (by simp)
  · rw [if_neg fun h => hEmpty (hDone.mp h), ← Column.chunks_pack hEmpty]
    exact Column.ofChunks_eq_ok (Column.pack t size tracks closed).chunks_type

end ChunkBuilder

end Columnar
