/-!
# Cutting a list into pieces

The chunks of a compacted column are the pieces of the list of its cells, all of one length
but the last.  Pieces are taken by their number, so that how many there are and how long each
of them is can be read off.

* `flatten_pieces` -- the pieces are the list.
* `pieces_append` -- behind full pieces the next piece is one more.
* `length_of_getElem?_pieces` -- every piece but the last is full, and no piece is empty.
-/

namespace Columnar

variable {α : Type} {size : Nat} {l : List α}

/-- A list cut into pieces of `size` elements.  The last piece may be shorter. -/
def pieces (size : Nat) (l : List α) : List (List α) :=
  (List.range ((l.length + size - 1) / size)).map fun i => (l.drop (i * size)).take size

@[simp]
theorem length_pieces (size : Nat) (l : List α) :
    (pieces size l).length = (l.length + size - 1) / size := by
  simp [pieces]

/-- There are as many pieces as it takes to hold the list. -/
theorem length_le_mul_size (hSize : 0 < size) (n : Nat) : n ≤ (n + size - 1) / size * size := by
  have hDiv := Nat.div_add_mod (n + size - 1) size
  have hMod := Nat.mod_lt (n + size - 1) hSize
  rw [Nat.mul_comm] at hDiv
  omega

/-- The first `n` pieces are what the list starts with. -/
theorem flatten_map_range (size : Nat) (l : List α) (n : Nat) :
    ((List.range n).map fun i => (l.drop (i * size)).take size).flatten =
      l.take (n * size) := by
  induction n with
  | zero => simp
  | succ n ih =>
      rw [List.range_succ, List.map_append, List.flatten_append, ih, Nat.succ_mul, List.take_add]
      simp

/-- The pieces are the list. -/
theorem flatten_pieces (hSize : 0 < size) (l : List α) : (pieces size l).flatten = l := by
  rw [pieces, flatten_map_range, List.take_of_length_le (length_le_mul_size hSize l.length)]

@[simp]
theorem pieces_nil (size : Nat) : pieces size ([] : List α) = [] := by
  rw [← List.length_eq_zero_iff, length_pieces, List.length_nil]
  cases size with
  | zero => rfl
  | succ n => exact Nat.div_eq_of_lt (by omega)

theorem pieces_eq_nil_iff (hSize : 0 < size) : pieces size l = [] ↔ l = [] := by
  constructor
  · intro h
    rw [← flatten_pieces hSize l, h]
    rfl
  · rintro rfl
    exact pieces_nil size

/-- Behind full pieces a further piece is one more. -/
theorem pieces_append (hFull : size ∣ l.length) {last : List α} (hSome : last ≠ [])
    (hLength : last.length ≤ size) : pieces size (l ++ last) = pieces size l ++ [last] := by
  obtain ⟨n, hn⟩ := hFull
  have hPos := List.length_pos_iff.mpr hSome
  have hBefore : (l.length + size - 1) / size = n := by
    rw [hn, Nat.add_sub_assoc (by omega), Nat.mul_add_div (by omega),
      Nat.div_eq_of_lt (by omega), Nat.add_zero]
  have hAfter : ((l ++ last).length + size - 1) / size = n + 1 := by
    rw [List.length_append, hn, Nat.add_assoc, Nat.add_sub_assoc (by omega),
      Nat.mul_add_div (by omega), show last.length + size - 1 = size * 1 + (last.length - 1) by omega,
      Nat.mul_add_div (by omega), Nat.div_eq_of_lt (by omega), Nat.add_zero]
  rw [pieces, pieces, hBefore, hAfter, List.range_succ, List.map_append]
  congr 1
  · -- The pieces of the front do not reach into the last one.
    refine List.map_congr_left fun i hi => ?_
    have hNext : (i + 1) * size ≤ n * size :=
      Nat.mul_le_mul_right _ (List.mem_range.mp hi)
    rw [Nat.add_one_mul, Nat.mul_comm n, ← hn] at hNext
    rw [List.drop_append_of_le_length (by omega),
      List.take_append_of_le_length (by rw [List.length_drop]; omega)]
  · simp only [List.map_cons, List.map_nil, Nat.mul_comm n, ← hn, List.drop_left,
      List.take_of_length_le hLength]

/-- Every piece but the last is full, and no piece is empty. -/
theorem length_of_getElem?_pieces (hSize : 0 < size) {i : Nat} {piece : List α}
    (h : (pieces size l)[i]? = some piece) :
    (i + 1 < (pieces size l).length → piece.length = size) ∧
      0 < piece.length ∧ piece.length ≤ size := by
  obtain ⟨hi, rfl⟩ := List.getElem?_eq_some_iff.mp h
  rw [length_pieces] at hi ⊢
  have hReach := (Nat.le_div_iff_mul_le hSize).mp hi
  rw [Nat.succ_mul] at hReach
  have hLength : (pieces size l)[i].length = min size (l.length - i * size) := by
    simp [pieces]
  refine ⟨fun hNext => ?_, by omega, by omega⟩
  have hFurther := (Nat.le_div_iff_mul_le hSize).mp hNext
  rw [Nat.succ_mul, Nat.succ_mul] at hFurther
  omega

end Columnar
