import Columnar.Proofs.Column.Padding
import Columnar.Proofs.Compaction.Column

/-!
# Padding in a compaction

A compaction reads the selection at every element that the value bytes hold, by a row number
that may wrap.  Numbers of rows and of elements agree up to whole laps: a lap is as many elements
as fill an address space, and a column whose bytes have room in one has less than a lap of them.
So a row number that wraps lands on a row or far behind the bitmap, never in the padding.

* `Chunk.slotCount_eq_mod` -- a chunk has as many elements as rows, up to whole laps.
* `Column.Regular.reads_rows` -- the places that are read are rows or behind the last byte.
* `Column.Regular.compact_trim` -- a compaction is the one with trimmed bitmaps.
* `Column.Regular.trim_eq_self` -- a column without rows has nothing to trim.
-/

namespace Columnar

/-- A bitmap that is read inside of its rows or behind its bytes does not show its padding. -/
theorem Bitmap.read_trim {b : Bitmap} {i : Nat}
    (h : i < b.length ∨ bytesFor b.length ≤ i / 8) : b.trim.read i = b.read i := by
  rcases h with hRow | hBehind
  · rw [read_eq_ok hRow, read_eq_ok (by rwa [length_trim]), get_trim hRow]
  · have hNone : b.bytes[i / 8]? = none := Array.getElem?_eq_none (by rwa [b.size_eq])
    have hNone' : b.trim.bytes[i / 8]? = none :=
      Array.getElem?_eq_none (by rwa [size_bytes_trim, b.size_eq])
    rw [read, read, hNone, hNone', size_bytes_trim]

/-- The elements of fixed width that fill an address space. -/
theorem DataType.exists_lap {t : DataType} (hFixed : t.isFixedWidth = true) :
    ∃ lap, lap * t.width = 2 ^ 64 ∧ lap % 8 = 0 := by
  refine ⟨2 ^ 64 / t.width, ?_⟩
  cases t <;> first | exact ⟨rfl, rfl⟩ | cases hFixed

/-- Up to whole laps a place is one of the rows.  Then it is a row, or it lies in a later lap
than the last of them. -/
theorem lt_or_bytesFor_le {lap place rows : Nat} (hPos : 0 < lap) (hLap : lap % 8 = 0)
    (h : place % lap < rows % lap) : place < rows ∨ bytesFor rows ≤ place / 8 := by
  have hPlace := Nat.div_add_mod place lap
  have hRows := Nat.div_add_mod rows lap
  have hLess := Nat.mod_lt rows hPos
  rcases Nat.lt_or_ge (rows / lap) (place / lap) with hLater | hSame
  · have hMul : lap * (rows / lap + 1) ≤ lap * (place / lap) := Nat.mul_le_mul_left lap hLater
    have hWhole : lap * (rows / lap) % 8 = 0 := by
      rw [Nat.mul_mod, hLap, Nat.zero_mul, Nat.zero_mod]
    rw [Nat.mul_add_one] at hMul
    unfold bytesFor
    omega
  · have hMul : lap * (place / lap) ≤ lap * (rows / lap) := Nat.mul_le_mul_left lap hSame
    omega

namespace Chunk

variable {c : Chunk} {lap : Nat}

theorem readValid_trim (h : c.Sound) {i : Nat} (hi : i < c.length) :
    c.trim.readValid i = c.readValid i := by
  cases hValidity : c.validity with
  | none => simp [readValid, hValidity]
  | some v =>
      simp only [readValid, validity_trim, hValidity, Option.map_some]
      exact Bitmap.read_trim (.inl (by rwa [h.validity_length v hValidity]))

/-- A chunk has as many elements as rows, up to whole laps. -/
theorem slotCount_eq_mod (h : c.Sound) (hFixed : c.type.isFixedWidth = true)
    (hBytes : c.bytes.size < 2 ^ 64) (hLap : lap * c.type.width = 2 ^ 64) :
    c.slotCount = c.length % lap := by
  have hWord := h.bytes_word _ ((DataType.width?_eq_some_iff _ _).mpr ⟨hFixed, rfl⟩)
  rw [Nat.mod_eq_of_lt hBytes, wordMul, ← hLap, Nat.mul_mod_mul_right] at hWord
  rw [slotCount, hWord, Nat.mul_div_cancel _ ((DataType.width_pos_iff _).mpr hFixed)]

end Chunk

/-- Up to whole laps a chunk starts behind the rows of the chunks before it. -/
theorem mod_of_mem_placeChunks {lap start : Nat} (hLap : lap ∣ 2 ^ 64) {chunks : List Chunk}
    {e : Nat × Chunk} (he : e ∈ placeChunks start chunks) :
    ∃ before, e.1 % lap = (start + before) % lap ∧
      before + e.2.length % lap ≤ total (chunks.map (·.length % lap)) := by
  induction chunks generalizing start with
  | nil => cases he
  | cons c rest ih =>
      rw [List.map_cons, total_cons]
      rcases List.mem_cons.mp he with rfl | hRest
      · exact ⟨0, rfl, by rw [Nat.zero_add]; exact Nat.le_add_right _ _⟩
      · obtain ⟨before, hStart, hBefore⟩ := ih hRest
        refine ⟨c.length % lap + before, ?_, by omega⟩
        rw [hStart, wordAdd, Nat.add_mod, Nat.mod_mod_of_dvd _ hLap, ← Nat.add_assoc]
        simp [Nat.add_mod]

theorem le_total_of_mem {n : Nat} {ns : List Nat} (h : n ∈ ns) : n ≤ total ns := by
  induction ns with
  | nil => cases h
  | cons m rest ih =>
      rw [total_cons]
      rcases List.mem_cons.mp h with rfl | hRest
      · exact Nat.le_add_right _ _
      · exact Nat.le_trans (ih hRest) (Nat.le_add_left _ _)

theorem total_mul_le {α : Type} {l : List α} {f g : α → Nat} {width : Nat}
    (h : ∀ a ∈ l, f a * width ≤ g a) : total (l.map f) * width ≤ total (l.map g) := by
  induction l with
  | nil => simp
  | cons a rest ih =>
      obtain ⟨hHead, hRest⟩ := List.forall_mem_cons.mp h
      rw [List.map_cons, List.map_cons, total_cons, total_cons, Nat.add_mul]
      exact Nat.add_le_add hHead (ih hRest)

theorem total_mod_mod (ns : List Nat) (lap : Nat) :
    total (ns.map (· % lap)) % lap = total ns % lap := by
  induction ns with
  | nil => rfl
  | cons n rest ih =>
      rw [List.map_cons, total_cons, total_cons, Nat.add_mod, ih, Nat.mod_mod, ← Nat.add_mod]

namespace ChunkBuilder

/-- A chunk whose reads stay away from padding is absorbed as the trimmed one is. -/
theorem absorb_trim {selection : Bitmap} {start : Nat} {chunk : Chunk} (hSound : chunk.Sound)
    (hSlots : chunk.slotCount ≤ chunk.length)
    (hReads : ∀ i < chunk.slotCount, wordAdd start i < selection.length ∨
      bytesFor selection.length ≤ wordAdd start i / 8) (b : ChunkBuilder) :
    b.absorb selection.trim start chunk.trim = b.absorb selection start chunk := by
  refine Result.foldlM_congr (fun b i hMem => ?_) b
  have hi : i < chunk.slotCount := List.mem_range.mp hMem
  rw [Chunk.readValid_trim hSound (Nat.lt_of_lt_of_le hi hSlots),
    Bitmap.read_trim (hReads i hi)]
  rfl

end ChunkBuilder

namespace Column

variable {c : Column} {lap : Nat}

/-- The chunks of a column are sound, text is never null, and the value bytes have room in one
address space. -/
structure Regular (c : Column) : Prop where
  chunks_sound : ∀ chunk ∈ c.chunks, chunk.Sound
  validity_of_text : c.type.isFixedWidth = false → ∀ chunk ∈ c.chunks, chunk.validity = none
  bytes_lt : total (c.chunks.map fun chunk => chunk.bytes.size) < 2 ^ 64

theorem regular_trim_iff : c.trim.Regular ↔ c.Regular := by
  have hBytes : c.trim.chunks.map (fun chunk => chunk.bytes.size) =
      c.chunks.map fun chunk => chunk.bytes.size := by
    rw [chunks_trim, List.map_map]
    rfl
  constructor
  · intro h
    have hSound := List.forall_mem_map.mp h.chunks_sound
    have hText := fun hFixed => List.forall_mem_map.mp (h.validity_of_text hFixed)
    exact ⟨fun chunk hMem => Chunk.sound_trim_iff.mp (hSound chunk hMem),
      fun hFixed chunk hMem => Option.map_eq_none_iff.mp (hText hFixed chunk hMem),
      hBytes ▸ h.bytes_lt⟩
  · intro h
    refine ⟨List.forall_mem_map.mpr fun chunk hMem =>
      Chunk.sound_trim_iff.mpr (h.chunks_sound chunk hMem), fun hFixed =>
        List.forall_mem_map.mpr fun chunk hMem => ?_, hBytes ▸ h.bytes_lt⟩
    exact Option.map_eq_none_iff.mpr (h.validity_of_text hFixed chunk hMem)

namespace Regular

theorem size_lt (h : c.Regular) {chunk : Chunk} (hMem : chunk ∈ c.chunks) :
    chunk.bytes.size < 2 ^ 64 :=
  have hSize : chunk.bytes.size ∈ c.chunks.map fun chunk => chunk.bytes.size :=
    List.mem_map.mpr ⟨chunk, hMem, rfl⟩
  Nat.lt_of_le_of_lt (le_total_of_mem hSize) h.bytes_lt

theorem slotCount_eq_mod (h : c.Regular) (hFixed : c.type.isFixedWidth = true)
    (hLap : lap * c.type.width = 2 ^ 64) {chunk : Chunk} (hMem : chunk ∈ c.chunks) :
    chunk.slotCount = chunk.length % lap := by
  have hType := c.chunks_type chunk hMem
  exact Chunk.slotCount_eq_mod (h.chunks_sound chunk hMem) (by rwa [hType]) (h.size_lt hMem)
    (by rwa [hType])

/-- The elements of a column are less than a lap. -/
theorem total_lt (h : c.Regular) (hFixed : c.type.isFixedWidth = true)
    (hLap : lap * c.type.width = 2 ^ 64) : total (c.chunks.map (·.length % lap)) < lap := by
  have hBytes : total (c.chunks.map (·.length % lap)) * c.type.width ≤
      total (c.chunks.map fun chunk => chunk.bytes.size) := by
    refine total_mul_le fun chunk hMem => ?_
    rw [← h.slotCount_eq_mod hFixed hLap hMem, Chunk.slotCount, c.chunks_type chunk hMem]
    exact Nat.div_mul_le_self ..
  refine Nat.lt_of_mul_lt_mul_right (a := c.type.width) ?_
  rw [hLap]
  exact Nat.lt_of_le_of_lt hBytes h.bytes_lt

/-- The rows of a column are its elements, up to whole laps. -/
theorem length_mod (h : c.Regular) (hFixed : c.type.isFixedWidth = true)
    (hLap : lap * c.type.width = 2 ^ 64) :
    c.length % lap = total (c.chunks.map (·.length % lap)) := by
  have hDvd : lap ∣ 2 ^ 64 := ⟨_, hLap.symm⟩
  have hTotal := total_mod_mod (c.chunks.map Chunk.length) lap
  rw [List.map_map] at hTotal
  rw [c.length_eq, wordSum, Nat.mod_mod_of_dvd _ hDvd, ← hTotal]
  exact Nat.mod_eq_of_lt (h.total_lt hFixed hLap)

/-- Every element is read at a row or behind the last byte of a bitmap of the rows. -/
theorem reads_rows (h : c.Regular) (hFixed : c.type.isFixedWidth = true) {e : Nat × Chunk}
    (he : e ∈ c.placed) {i : Nat} (hi : i < e.2.slotCount) :
    wordAdd e.1 i < c.length ∨ bytesFor c.length ≤ wordAdd e.1 i / 8 := by
  obtain ⟨lap, hLap, hEight⟩ := DataType.exists_lap hFixed
  obtain ⟨before, hStart, hBefore⟩ := mod_of_mem_placeChunks ⟨_, hLap.symm⟩ he
  have hTotal := h.total_lt hFixed hLap
  rw [h.slotCount_eq_mod hFixed hLap (mem_of_mem_placeChunks he)] at hi
  rw [Nat.zero_add] at hStart
  refine lt_or_bytesFor_le (Nat.lt_of_le_of_lt (Nat.zero_le _) hTotal) hEight ?_
  have hPlace : wordAdd e.1 i % lap = before + i := by
    rw [wordAdd, Nat.mod_mod_of_dvd _ ⟨_, hLap.symm⟩, Nat.add_mod, hStart, ← Nat.add_mod]
    exact Nat.mod_eq_of_lt (by omega)
  rw [hPlace, h.length_mod hFixed hLap]
  omega

/-- A compaction is the one with trimmed bitmaps. -/
theorem compact_trim (h : c.Regular) (hFixed : c.type.isFixedWidth = true) {selection : Bitmap}
    (hLength : selection.length = c.length) (size : Nat) :
    c.trim.compact selection.trim size = c.compact selection size := by
  obtain ⟨lap, hLap, -⟩ := DataType.exists_lap hFixed
  have hTracks : (c.trim.chunks.any fun chunk => chunk.validity.isSome) =
      c.chunks.any fun chunk => chunk.validity.isSome := by
    simp [List.any_map, Function.comp_def]
  have hFold : ∀ b : ChunkBuilder,
      c.trim.placed.foldlM (fun b e => b.absorb selection.trim e.1 e.2) b =
        c.placed.foldlM (fun b e => b.absorb selection e.1 e.2) b := by
    intro b
    rw [placed_trim, List.foldlM_map]
    refine Result.foldlM_congr (fun b e he => ?_) b
    have hMem := mem_of_mem_placeChunks he
    refine ChunkBuilder.absorb_trim (h.chunks_sound _ hMem) ?_ (fun i hi => ?_) b
    · rw [h.slotCount_eq_mod hFixed hLap hMem]
      exact Nat.mod_le ..
    · rw [hLength]
      exact h.reads_rows hFixed he hi
  rw [compact, compact, hTracks, Bitmap.count_trim, type_trim]
  refine congrArg _ (funext fun b => ?_)
  exact congrArg (· >>= ChunkBuilder.finish) (hFold b)

/-- Without rows there are no padded bitmaps: the chunks are empty, or their lengths are whole
laps. -/
theorem trim_eq_self (h : c.Regular) (hRows : c.length = 0) : c.trim = c := by
  have hChunks : ∀ chunk ∈ c.chunks, chunk.trim = chunk := by
    refine fun chunk hMem => Chunk.trim_eq_self fun v hValidity => ?_
    cases hFixed : c.type.isFixedWidth with
    | false =>
        rw [h.validity_of_text hFixed chunk hMem] at hValidity
        cases hValidity
    | true =>
        obtain ⟨lap, hLap, hEight⟩ := DataType.exists_lap hFixed
        have hTotal := h.length_mod hFixed hLap
        rw [hRows, Nat.zero_mod] at hTotal
        have hLess : chunk.length % lap ≤ total (c.chunks.map (·.length % lap)) :=
          le_total_of_mem (List.mem_map_of_mem hMem)
        have hWhole : chunk.length % lap = 0 := by omega
        rw [(h.chunks_sound chunk hMem).validity_length v hValidity]
        exact Nat.mod_eq_zero_of_dvd
          (Nat.dvd_trans (Nat.dvd_of_mod_eq_zero hEight) (Nat.dvd_of_mod_eq_zero hWhole))
  refine eq_of_chunks c.type_trim ?_
  rw [chunks_trim]
  exact (List.map_congr_left hChunks).trans (List.map_id _)

end Regular

end Column

end Columnar
