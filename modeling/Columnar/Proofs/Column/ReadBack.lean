import Columnar.Proofs.Chunk.Reading
import Columnar.Proofs.Compaction.Pack

/-!
# Stored columns read back

A column is made of chunks, and each chunk of elements that may be absent.  However the elements
are cut into chunks, and whichever of the chunks keep a validity bitmap, every way of reading the
column gives the elements back, and the place at which a chunk starts is where its elements are
found in the column as a whole.

* `getElem?_placeChunks` -- a chunk starts where the elements before it end.
* `getElem?_flatMap_of_getElem?` -- its elements are found from there on.
* `Column.reads_back` -- what every reader of the column gives.
-/

namespace Columnar

/-- A chunk starts behind the elements of the chunks before it. -/
theorem getElem?_placeChunks {start : Nat} {chunks : List Chunk}
    (hFit : start + total (chunks.map Chunk.length) < 2 ^ 64) (k : Nat) :
    (placeChunks start chunks)[k]? =
      chunks[k]?.map fun c => (start + total ((chunks.take k).map Chunk.length), c) := by
  induction chunks generalizing start k with
  | nil => rfl
  | cons c rest ih =>
      rw [List.map_cons, total_cons] at hFit
      have hNext : wordAdd start c.length = start + c.length := wordAdd_eq_add (by omega)
      cases k with
      | zero => rfl
      | succ k =>
          rw [placeChunks, hNext, List.getElem?_cons_succ, ih (by omega), List.getElem?_cons_succ,
            List.take_succ_cons, List.map_cons, total_cons]
          simp only [Nat.add_assoc]

/-- In lists laid end to end an element is found behind the lists before its own. -/
theorem getElem?_flatMap_of_getElem? {α β : Type} (f : α → List β) {l : List α} {k i : Nat} {a : α}
    (hk : l[k]? = some a) (hi : i < (f a).length) :
    (l.flatMap f)[total ((l.take k).map fun a => (f a).length) + i]? = (f a)[i]? := by
  induction l generalizing k with
  | nil => exact absurd hk (by simp)
  | cons first rest ih =>
      rw [List.flatMap_cons]
      cases k with
      | zero =>
          obtain rfl : first = a := by simpa using hk
          rw [List.take_zero, List.map_nil, total_nil, Nat.zero_add, List.getElem?_append_left hi]
      | succ k =>
          rw [List.getElem?_cons_succ] at hk
          rw [List.take_succ_cons, List.map_cons, total_cons,
            List.getElem?_append_right (by omega), Nat.add_assoc, Nat.add_sub_cancel_left]
          exact ih hk

namespace Column

variable {t : DataType}

/-- The column of some batches, one chunk each. -/
def ofBatches (batches : List (Batch t)) : Column where
  type := t
  chunks := batches.map Batch.chunk
  chunks_type := by simp

variable (hFixed : t.isFixedWidth = true) {batches : List (Batch t)}

/-- The elements of the column are those of the batches, end to end. -/
theorem values_ofBatches (hBytes : ∀ b ∈ batches, b.options.length * t.width < 2 ^ 63) :
    (ofBatches batches).values t =
      (batches.flatMap Batch.options).map (·.getD (Native.zero hFixed)) := by
  rw [values, ofBatches, List.flatMap_map, List.map_flatMap]
  exact List.flatMap_congr fun b hb => Batch.iterate_chunk hFixed (hBytes b hb)

theorem validities_ofBatches (batches : List (Batch t)) :
    (ofBatches batches).validities = (batches.flatMap Batch.options).map Option.isSome := by
  rw [validities, ofBatches, List.flatMap_map, List.map_flatMap]
  exact List.flatMap_congr fun b _ => b.validities_chunk

/-- A chunk starts at the number of elements in the batches before it. -/
theorem getElem?_offsets_ofBatches
    (hRows : total (batches.map fun b => b.options.length) < 2 ^ 64) {k : Nat} {b : Batch t}
    (hk : batches[k]? = some b) :
    (ofBatches batches).offsets[k]? =
      some (total ((batches.take k).map fun b => b.options.length)) := by
  have hLengths : ∀ l : List (Batch t), (l.map Batch.chunk).map Chunk.length =
      l.map fun b => b.options.length := fun l => by simp
  have hFit : 0 + total ((batches.map Batch.chunk).map Chunk.length) < 2 ^ 64 := by
    rwa [hLengths, Nat.zero_add]
  rw [offsets, placed, ofBatches, List.getElem?_map, getElem?_placeChunks hFit, List.getElem?_map,
    hk, ← List.map_take, hLengths, Nat.zero_add]
  rfl

/-- For every type of fixed width and every way of cutting optional elements into chunks, with a
validity bitmap or, where no element is absent, without: the column is accepted, it gives back
every element, zero for the absent ones, and which elements are present; and the chunk at every
place reads back as its part of the elements, which begins in the column where the chunk starts.
The bytes of a chunk fit into memory, and a machine word counts the rows. -/
theorem reads_back (hBytes : ∀ b ∈ batches, b.options.length * t.width < 2 ^ 63)
    (hRows : total (batches.map fun b => b.options.length) < 2 ^ 64) :
    ∃ column, ofChunks t (batches.map Batch.chunk) = .ok column ∧
      column.values t = (batches.flatMap Batch.options).map (·.getD (Native.zero hFixed)) ∧
      column.validities = (batches.flatMap Batch.options).map Option.isSome ∧
      ∀ (k : Nat) (b : Batch t), batches[k]? = some b →
        column.chunks[k]? = some b.chunk ∧ b.chunk.ReadsBack hFixed b.options ∧
        ∃ start, column.offsets[k]? = some start ∧
          ∀ (i : Nat) (h : i < b.options.length),
            (column.values t)[start + i]? = some (b.options[i].getD (Native.zero hFixed)) ∧
            column.validities[start + i]? = some b.options[i].isSome := by
  refine ⟨ofBatches batches, ofChunks_eq_ok _, values_ofBatches hFixed hBytes,
    validities_ofBatches batches, fun k b hk => ?_⟩
  have hMem : b ∈ batches := List.mem_of_getElem? hk
  refine ⟨by rw [ofBatches, List.getElem?_map, hk, Option.map_some],
    Batch.readsBack hFixed (hBytes b hMem), _, getElem?_offsets_ofBatches hRows hk, fun i h => ?_⟩
  have hPlace := getElem?_flatMap_of_getElem? Batch.options hk h
  rw [List.getElem?_eq_getElem h] at hPlace
  rw [values_ofBatches hFixed hBytes, validities_ofBatches, List.getElem?_map, List.getElem?_map,
    hPlace]
  exact ⟨rfl, rfl⟩

/-- A value that is not a number, an absent one and a zero with a sign, in three chunks. -/
def floats : List (Batch .float) :=
  [.sparse [some (Binary.ofNat .single 0x7fc00001), none], .dense [],
    .dense [Binary.ofNat .single 0x80000000]]

/-- Every bit of a float is kept. -/
theorem reads_back_floats :
    DataType.float.isFixedWidth = true ∧
      (∀ b ∈ floats, b.options.length * DataType.float.width < 2 ^ 63) ∧
      total (floats.map fun b => b.options.length) < 2 ^ 64 ∧
      ∃ column, ofChunks .float (floats.map Batch.chunk) = .ok column ∧
        column.values .float = [Binary.ofNat .single 0x7fc00001, Binary.ofNat .single 0,
          Binary.ofNat .single 0x80000000] ∧
        column.validities = [true, false, true] := by
  have hBytes : ∀ b ∈ floats, b.options.length * DataType.float.width < 2 ^ 63 := by decide
  have hRows : total (floats.map fun b => b.options.length) < 2 ^ 64 := by decide
  obtain ⟨column, hColumn, hValues, hValid, -⟩ := reads_back rfl hBytes hRows
  exact ⟨rfl, hBytes, hRows, column, hColumn, hValues, hValid⟩

end Column

end Columnar
