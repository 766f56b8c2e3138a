import Columnar.Chunk.Construction
import Mathlib.Data.List.Basic

/-!
# Chunks of text

A chunk of text keeps its strings end to end, with the places at which they start and the place
where the last one ends.  The places are kept in 32 bits: as long as the text is shorter than
that they ascend and end with the number of bytes.

* `length_textOffsets`, `pairwise_textOffsets`, `getLast?_textOffsets` -- the places of strings.
* `size_bytes_ofStrings` -- the bytes of a chunk of text.
-/

namespace Columnar.Chunk

variable {start : Nat} {values : List String}

/-- How many bytes strings have together. -/
def textSize (values : List String) : Nat :=
  total (values.map String.utf8ByteSize)

theorem textSize_cons (s : String) (rest : List String) :
    textSize (s :: rest) = s.utf8ByteSize + textSize rest := rfl

@[simp]
theorem length_textOffsets (start : Nat) (values : List String) :
    (textOffsets start values).length = values.length + 1 := by
  induction values generalizing start with
  | nil => rfl
  | cons s rest ih => rw [textOffsets, List.length_cons, ih, List.length_cons]

theorem toNat_ofNat_of_lt {n : Nat} (h : n < 2 ^ 32) : (UInt32.ofNat n).toNat = n :=
  Nat.mod_eq_of_lt h

/-- No place is before the first one. -/
theorem le_of_mem_textOffsets (h : start + textSize values < 2 ^ 32) {place : UInt32}
    (hMem : place ∈ textOffsets start values) : start ≤ place.toNat := by
  induction values generalizing start with
  | nil =>
      rw [textOffsets, List.mem_singleton] at hMem
      rw [hMem]
      exact Nat.le_of_eq (toNat_ofNat_of_lt (by omega)).symm
  | cons s rest ih =>
      rw [textSize_cons, ← Nat.add_assoc] at h
      rw [textOffsets, List.mem_cons] at hMem
      rcases hMem with rfl | hMem
      · exact Nat.le_of_eq (toNat_ofNat_of_lt (by omega)).symm
      · exact Nat.le_trans (Nat.le_add_right _ _) (ih h hMem)

/-- The places of a text that is short enough do not descend. -/
theorem pairwise_textOffsets (h : start + textSize values < 2 ^ 32) :
    (textOffsets start values).Pairwise fun place later => place.toNat ≤ later.toNat := by
  induction values generalizing start with
  | nil => exact List.pairwise_singleton _ _
  | cons s rest ih =>
      rw [textSize_cons, ← Nat.add_assoc] at h
      rw [textOffsets, List.pairwise_cons]
      refine ⟨fun later hLater => ?_, ih h⟩
      rw [toNat_ofNat_of_lt (by omega)]
      exact Nat.le_trans (Nat.le_add_right _ _) (le_of_mem_textOffsets h hLater)

/-- The last place is where the text ends, in 32 bits. -/
theorem getLast?_textOffsets (start : Nat) (values : List String) :
    (textOffsets start values).getLast? = some (UInt32.ofNat (start + textSize values)) := by
  induction values generalizing start with
  | nil => rfl
  | cons s rest ih =>
      have hSome : textOffsets (start + s.utf8ByteSize) rest ≠ [] :=
        List.ne_nil_of_length_pos (by rw [length_textOffsets]; exact Nat.succ_pos _)
      rw [textOffsets, List.getLast?_cons_of_ne_nil hSome, ih, textSize_cons, Nat.add_assoc]

theorem size_bytes_ofStrings (values : List String) :
    (ofStrings values).bytes.size = textSize values := by
  rw [ofStrings, List.size_toArray, length_flatMap_eq_total]
  rfl

end Columnar.Chunk
