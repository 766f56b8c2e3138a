import Columnar.Chunk.Construction
import Columnar.Proofs.Column.Rows
import Columnar.Proofs.Result

/-!
# Built chunks are well formed

A chunk built from elements has the value bytes of as many elements as it announces.
Raw construction is the exception: it compares the bytes with a product of two machine
words, and a product that has wrapped lets a chunk through that announces more elements
than it holds.

* `wellFormed_of_isFixedWidth` -- what well-formedness amounts to for fixed widths.
* `wellFormed_ofRaw_iff` -- a raw chunk is well formed exactly when the product did not
  wrap.
-/

namespace Columnar.Chunk

variable {t : DataType}

/-- A chunk of fixed width is well formed when bytes and validity are those of its
length. -/
theorem wellFormed_of_isFixedWidth {c : Chunk} (hFixed : c.type.isFixedWidth = true)
    (hSize : c.bytes.size = c.length * c.type.width) (hBytes : c.bytes.size < 2 ^ 63)
    (hValidity : ∀ v, c.validity = some v → v.length = c.length) : c.WellFormed := by
  constructor
  case length_lt =>
    have hPos := (DataType.width_pos_iff c.type).mpr hFixed
    rw [hSize] at hBytes
    exact Nat.lt_of_le_of_lt (Nat.le_mul_of_pos_right _ hPos) hBytes
  case bytes_lt => exact hBytes
  case bytes_size =>
    intro width hWidth
    rw [hSize, ((DataType.width?_eq_some_iff c.type width).mp hWidth).2]
  case validity_length => exact hValidity

theorem wellFormed_ofValues (hFixed : t.isFixedWidth = true) {values : List (Native t)}
    (hBytes : values.length * t.width < 2 ^ 63) : (ofValues t values).WellFormed := by
  have hSize : (ofValues t values).bytes.size = values.length * t.width := by
    rw [ofValues, size_encode, List.length_map]
  refine wellFormed_of_isFixedWidth hFixed hSize (by rw [hSize]; exact hBytes) fun v hv => ?_
  exact absurd hv (by simp [ofValues])

theorem length_foldl_absent {α : Type} (values : List (Option α × Nat)) (v : Bitmap) :
    (values.foldl (fun v (value, i) => if value.isSome then v else v.set i false) v).length =
      v.length := by
  induction values generalizing v with
  | nil => rfl
  | cons entry rest ih =>
      obtain ⟨value, i⟩ := entry
      rw [List.foldl_cons, ih]
      cases value <;> simp

theorem wellFormed_ofOptions (hFixed : t.isFixedWidth = true) {values : List (Option (Native t))}
    (hBytes : values.length * t.width < 2 ^ 63) : (ofOptions t values).WellFormed := by
  have hSize : (ofOptions t values).bytes.size = values.length * t.width := by
    rw [ofOptions, size_encode, List.length_map]
  refine wellFormed_of_isFixedWidth hFixed hSize (by rw [hSize]; exact hBytes) fun v hv => ?_
  obtain rfl := Option.some.inj hv
  rw [length_foldl_absent]
  rfl

/-- What raw construction checks. -/
theorem ofRaw_eq_ok {n : Nat} {bytes : Array UInt8} {validity : Option Bitmap} {c : Chunk}
    (h : ofRaw t n bytes validity = .ok c) :
    t.isFixedWidth = true ∧ bytes.size = wordMul n t.width ∧
      (∀ v, validity = some v → v.length = n) ∧
      c = { type := t, length := n, bytes, offsets := #[], validity } := by
  unfold ofRaw at h
  cases hWidth : t.width? with
  | none =>
      rw [hWidth] at h
      exact (Result.throw_ne_ok _ _ h).elim
  | some width =>
      obtain ⟨hFixed, rfl⟩ := (DataType.width?_eq_some_iff t width).mp hWidth
      rw [hWidth] at h
      by_cases hSize : bytes.size = wordMul n t.width
      · cases validity with
        | none =>
            simp only [hSize, ne_eq, not_true_eq_false, if_false] at h
            exact ⟨hFixed, hSize, by simp, (Except.ok.inj h).symm⟩
        | some v =>
            by_cases hLength : v.length = n
            · simp only [hSize, hLength, ne_eq, not_true_eq_false, if_false] at h
              exact ⟨hFixed, hSize, by simpa using hLength, (Except.ok.inj h).symm⟩
            · simp only [hSize, hLength, ne_eq, not_true_eq_false, not_false_eq_true, if_false,
                if_true] at h
              exact (Result.throw_ne_ok _ _ h).elim
      · simp only [hSize, ne_eq, not_false_eq_true, if_true] at h
        exact (Result.throw_ne_ok _ _ h).elim

/-- Raw construction refuses nothing else. -/
theorem ofRaw_ok {n : Nat} {bytes : Array UInt8} {validity : Option Bitmap}
    (hFixed : t.isFixedWidth = true) (hSize : bytes.size = wordMul n t.width)
    (hValidity : ∀ v, validity = some v → v.length = n) :
    ofRaw t n bytes validity =
      .ok { type := t, length := n, bytes, offsets := #[], validity } := by
  have hWidth := (DataType.width?_eq_some_iff t t.width).mpr ⟨hFixed, rfl⟩
  unfold ofRaw
  rw [hWidth]
  cases validity with
  | none =>
      simp only [hSize, ne_eq, not_true_eq_false, if_false]
      rfl
  | some v =>
      simp only [hSize, hValidity v rfl, ne_eq, not_true_eq_false, if_false]
      rfl

/-- A raw chunk is well formed exactly when the product of its length and its width did
not wrap. -/
theorem wellFormed_ofRaw_iff {n : Nat} {bytes : Array UInt8} {validity : Option Bitmap}
    {c : Chunk} (h : ofRaw t n bytes validity = .ok c) (hBytes : bytes.size < 2 ^ 63) :
    c.WellFormed ↔ n * t.width < 2 ^ 64 := by
  obtain ⟨hFixed, hSize, hValidity, rfl⟩ := ofRaw_eq_ok h
  constructor
  · intro hWellFormed
    have hExact : bytes.size = n * t.width := hWellFormed.bytes_size _
      ((DataType.width?_eq_some_iff _ _).mpr ⟨hFixed, rfl⟩)
    omega
  · intro hFit
    rw [wordMul_eq_mul hFit] at hSize
    exact wellFormed_of_isFixedWidth hFixed hSize hBytes hValidity

end Columnar.Chunk
