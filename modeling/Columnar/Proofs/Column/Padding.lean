import Columnar.Kernel.Pass
import Columnar.Proofs.Bitmap.View
import Columnar.Proofs.Chunk.Sound
import Columnar.Proofs.Column.Rows
import Columnar.Proofs.Result
import Mathlib.Data.List.Forall2

/-!
# Padding in a column

Validity bitmaps have padding, and columns that are equal otherwise may differ in it.  Every
bitmap can be trimmed: its rows stay and its padding is cleared.  What is the same on a column
and on the trimmed one is the same on any two columns that differ in padding.

* `Bitmap.Agrees`, `Chunk.Agrees`, `Column.Agrees` -- equal except for padding.
* `Column.Agrees.trim_eq` -- trimmed, such columns are equal.
* `Column.validityMask_trim`, `Program.run_trim` -- the null rows of a column and the passes of
  a kernel over it are those of the trimmed one.
-/

namespace Columnar

namespace Bitmap

variable {b b' : Bitmap}

/-- Two bitmaps are equal except for their padding. -/
structure Agrees (b b' : Bitmap) : Prop where
  length_eq : b.length = b'.length
  get_eq : ∀ i < b.length, b.get i = b'.get i

theorem agrees_iff : b.Agrees b' ↔ b.toList = b'.toList := by
  rw [toList_eq_iff]
  exact ⟨fun h => ⟨h.length_eq, h.get_eq⟩, fun h => ⟨h.1, h.2⟩⟩

/-- The same rows, with clear padding. -/
def trim (b : Bitmap) : Bitmap :=
  ofBools b.toList

@[simp]
theorem toList_trim (b : Bitmap) : b.trim.toList = b.toList :=
  toList_ofBools _

@[simp]
theorem length_trim (b : Bitmap) : b.trim.length = b.length :=
  b.length_toList

@[simp]
theorem size_bytes_trim (b : Bitmap) : b.trim.bytes.size = b.bytes.size := by
  rw [size_eq, size_eq, length_trim]

@[simp]
theorem count_trim (b : Bitmap) : b.trim.count = b.count :=
  count_eq_of_toList_eq b.toList_trim

theorem get_trim {i : Nat} (h : i < b.length) : b.trim.get i = b.get i :=
  (toList_eq_iff.mp b.toList_trim).2 i (by rwa [length_trim])

theorem Agrees.trim_eq (h : b.Agrees b') : b.trim = b'.trim :=
  congrArg ofBools (agrees_iff.mp h)

theorem agrees_refl (b : Bitmap) : b.Agrees b :=
  agrees_iff.mpr rfl

theorem rel_agrees_refl (v : Option Bitmap) : Option.Rel Agrees v v := by
  cases v with
  | none => exact .none
  | some b => exact .some b.agrees_refl

theorem agrees_trim (b : Bitmap) : b.Agrees b.trim :=
  agrees_iff.mpr b.toList_trim.symm

theorem rel_agrees_trim (v : Option Bitmap) : Option.Rel Agrees v (v.map trim) := by
  cases v with
  | none => exact .none
  | some b => exact .some b.agrees_trim

theorem map_trim_eq {v v' : Option Bitmap} (h : Option.Rel Agrees v v') :
    v.map trim = v'.map trim := by
  cases h with
  | none => rfl
  | some hBits => exact congrArg some hBits.trim_eq

/-- A bitmap whose rows fill its bytes has no padding. -/
theorem trim_eq_self (h : b.length % 8 = 0) : b.trim = b := by
  refine eq_of_bits b.length_trim fun j hj i hi => ?_
  have hSize := b.size_eq
  rw [size_bytes_trim] at hj
  unfold bytesFor at hSize
  rw [← get_of_byte _ hi, ← get_of_byte _ hi]
  exact get_trim (by omega)

end Bitmap

namespace Chunk

variable {c c' : Chunk}

/-- Two chunks are equal except for the padding of their validity. -/
structure Agrees (c c' : Chunk) : Prop where
  type_eq : c.type = c'.type
  length_eq : c.length = c'.length
  bytes_eq : c.bytes = c'.bytes
  offsets_eq : c.offsets = c'.offsets
  validity : Option.Rel Bitmap.Agrees c.validity c'.validity

/-- The same elements, with clear padding. -/
def trim (c : Chunk) : Chunk :=
  { c with validity := c.validity.map Bitmap.trim }

@[simp]
theorem type_trim (c : Chunk) : c.trim.type = c.type := rfl

@[simp]
theorem length_trim (c : Chunk) : c.trim.length = c.length := rfl

@[simp]
theorem validity_trim (c : Chunk) : c.trim.validity = c.validity.map Bitmap.trim := rfl

theorem Agrees.trim_eq (h : c.Agrees c') : c.trim = c'.trim := by
  rw [trim, trim, h.type_eq, h.length_eq, h.bytes_eq, h.offsets_eq,
    Bitmap.map_trim_eq h.validity]

theorem agrees_refl (c : Chunk) : c.Agrees c :=
  ⟨rfl, rfl, rfl, rfl, Bitmap.rel_agrees_refl _⟩

theorem agrees_trim (c : Chunk) : c.Agrees c.trim :=
  ⟨rfl, rfl, rfl, rfl, Bitmap.rel_agrees_trim _⟩

theorem sound_trim_iff : c.trim.Sound ↔ c.Sound := by
  have hLengths : (∀ v, c.trim.validity = some v → v.length = c.length) ↔
      ∀ v, c.validity = some v → v.length = c.length := by
    cases hValidity : c.validity <;> simp [hValidity]
  constructor
  · exact fun h => { h with validity_length := hLengths.mp h.validity_length }
  · exact fun h => { h with validity_length := hLengths.mpr h.validity_length }

/-- The null count is the same without asking anything of the chunk. -/
@[simp]
theorem nullCount_trim (c : Chunk) : c.trim.nullCount = c.nullCount := by
  cases hValidity : c.validity <;> simp [nullCount, hValidity]

/-- A validity bitmap of the length of the chunk is read inside of its rows. -/
theorem nullPositions_trim (h : c.Sound) : c.trim.nullPositions = c.nullPositions := by
  cases hValidity : c.validity with
  | none => simp [nullPositions, hValidity]
  | some v =>
      have hLength := h.validity_length v hValidity
      simp only [nullPositions, validity_trim, hValidity, Option.map_some, length_trim]
      refine List.filter_congr fun i hi => ?_
      rw [Bitmap.get_trim (by rw [hLength]; exact List.mem_range.mp hi)]

/-- Without validity, or with validity that fills its bytes, there is nothing to trim. -/
theorem trim_eq_self (h : ∀ v, c.validity = some v → v.length % 8 = 0) : c.trim = c := by
  have hValidity : c.validity.map Bitmap.trim = c.validity := by
    cases hSome : c.validity with
    | none => rfl
    | some v => exact congrArg some (Bitmap.trim_eq_self (h v hSome))
  rw [trim, hValidity]

end Chunk

namespace Column

variable {c c' : Column}

/-- Two columns are equal except for the padding of their validity. -/
structure Agrees (c c' : Column) : Prop where
  type_eq : c.type = c'.type
  chunks : List.Forall₂ Chunk.Agrees c.chunks c'.chunks

/-- The same chunks, with clear padding. -/
def trim (c : Column) : Column where
  type := c.type
  chunks := c.chunks.map Chunk.trim
  chunks_type := List.forall_mem_map.mpr c.chunks_type

@[simp]
theorem type_trim (c : Column) : c.trim.type = c.type := rfl

@[simp]
theorem chunks_trim (c : Column) : c.trim.chunks = c.chunks.map Chunk.trim := rfl

@[simp]
theorem length_trim (c : Column) : c.trim.length = c.length := by
  rw [length_eq, length_eq, chunks_trim, List.map_map]
  rfl

theorem Agrees.trim_eq (h : c.Agrees c') : c.trim = c'.trim := by
  have hChunks : c.chunks.map Chunk.trim = c'.chunks.map Chunk.trim := by
    rw [← List.forall₂_eq_eq_eq, List.forall₂_map_left_iff, List.forall₂_map_right_iff]
    exact h.chunks.imp fun _ _ hChunk => hChunk.trim_eq
  exact eq_of_chunks h.type_eq hChunks

theorem agrees_refl (c : Column) : c.Agrees c :=
  ⟨rfl, List.forall₂_same.mpr fun chunk _ => chunk.agrees_refl⟩

theorem agrees_trim (c : Column) : c.Agrees c.trim :=
  ⟨rfl, List.forall₂_map_right_iff.mpr (List.forall₂_same.mpr fun chunk _ => chunk.agrees_trim)⟩

/-- Chunks start at the same rows. -/
theorem placeChunks_trim (start : Nat) (chunks : List Chunk) :
    placeChunks start (chunks.map Chunk.trim) =
      (placeChunks start chunks).map fun e => (e.1, e.2.trim) := by
  induction chunks generalizing start with
  | nil => rfl
  | cons c rest ih =>
      rw [List.map_cons, placeChunks, placeChunks, List.map_cons, ih]
      rfl

theorem placed_trim (c : Column) : c.trim.placed = c.placed.map fun e => (e.1, e.2.trim) :=
  placeChunks_trim 0 c.chunks

/-- The null rows of a column of sound chunks do not depend on padding. -/
theorem validityMask_trim (hSound : ∀ chunk ∈ c.chunks, chunk.Sound) :
    c.trim.validityMask = c.validityMask := by
  have hCounts : (c.trim.chunks.all fun chunk => chunk.nullCount == 0) =
      c.chunks.all fun chunk => chunk.nullCount == 0 := by
    simp [List.all_map, Function.comp_def]
  have hRows : c.trim.nullRows = c.nullRows := by
    rw [nullRows, nullRows, placed_trim, List.flatMap_map]
    exact List.flatMap_congr fun e hMem => congrArg (List.map (wordAdd e.1))
      (Chunk.nullPositions_trim (hSound _ (mem_of_mem_placeChunks hMem)))
  rw [validityMask, validityMask, hCounts, hRows, length_trim]

end Column

/-- The passes of a kernel read elements and no validity. -/
theorem Program.run_trim (k : Program) (c : Column) (b : Bitmap) :
    k.run c.trim b = k.run c b := by
  have hMasks : k.columnMasks c.trim = k.columnMasks c := by
    rw [columnMasks, columnMasks, Column.placed_trim, List.mapM_map, List.mapM_map]
    rfl
  rw [run, run, hMasks]

end Columnar
