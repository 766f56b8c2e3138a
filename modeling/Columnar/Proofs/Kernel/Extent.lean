import Columnar.Proofs.Kernel.Effect

/-!
# The bytes that kernel calls read

A call of a kernel reads the elements behind its offset, so it stays inside the value bytes when
these are the bytes of as many elements as the chunk announces.  For a raw chunk that rests on one
comparison: the number of bytes has to be the product of length and width.  The product is one of
machine words, and the comparison means what it says exactly for the lengths for which it does not
wrap.

* `Chunk.ReadsInside` -- neither call reads outside the value bytes.
* `Chunk.readsInside_iff` -- this says of a chunk that its elements fit into its bytes.
* `Kernel.NeverMisses` -- no call of a kernel on a chunk looks for a byte that is not there.
* `Chunk.ofRaw_exact_iff` -- the lengths for which raw construction accepts nothing but the bytes
  of as many elements.
-/

namespace Columnar

/-- Neither call of a kernel reads outside the value bytes of the chunk, whatever its offset. -/
structure Chunk.ReadsInside (c : Chunk) : Prop where
  /-- The bulk pass reads whole groups of elements. -/
  bulk : ∀ offset, bulkReach c.length offset ≠ 0 →
    c.type.width * (offset + 8 * bulkReach c.length offset) ≤ c.bytes.size
  /-- A boundary pass reads the elements of one byte. -/
  boundary : ∀ element bit, boundaryCount c.length element bit ≠ 0 →
    boundaryCount c.length element bit + bit ≤ 8 →
    c.type.width * (element + boundaryCount c.length element bit) ≤ c.bytes.size

/-- The bulk pass ends inside the chunk. -/
theorem bulkReach_le {length offset : Nat} (hSome : bulkReach length offset ≠ 0) :
    offset + 8 * bulkReach length offset ≤ length := by
  have hSteps : signedSteps (8 * bulkGroups length offset) ≤ 8 * bulkGroups length offset := by
    unfold signedSteps
    split <;> omega
  have hGroups : 8 * bulkGroups length offset ≤ length - offset := Nat.mul_div_le _ _
  unfold bulkReach at hSome ⊢
  omega

/-- A boundary pass ends inside the chunk. -/
theorem boundaryCount_le {length element bit : Nat} (hSome : boundaryCount length element bit ≠ 0) :
    element + boundaryCount length element bit ≤ length := by
  unfold boundaryCount at hSome ⊢
  by_cases hHead : element = 0
  · rw [if_pos hHead] at hSome ⊢
    omega
  · rw [if_neg hHead] at hSome ⊢
    omega

/-- The last element alone makes a boundary pass. -/
theorem boundaryCount_last (length : Nat) : boundaryCount (length + 1) length 0 = 1 := by
  unfold boundaryCount
  split <;> omega

namespace Chunk

variable {t : DataType} {n : Nat} {bytes : Array UInt8} {validity : Option Bitmap} {c : Chunk}

/-- Calls stay inside the value bytes exactly when these are enough for every element: the last
one can be asked for alone. -/
theorem readsInside_iff (c : Chunk) : c.ReadsInside ↔ c.length * c.type.width ≤ c.bytes.size := by
  constructor
  · intro hInside
    cases hLength : c.length with
    | zero => omega
    | succ last =>
        have hLast := hInside.boundary last 0
        rw [hLength, boundaryCount_last, Nat.mul_comm] at hLast
        exact hLast (by decide) (by decide)
  · intro hFit
    rw [Nat.mul_comm] at hFit
    constructor
    case bulk =>
      intro offset hSome
      exact Nat.le_trans (Nat.mul_le_mul_left _ (bulkReach_le hSome)) hFit
    case boundary =>
      intro element bit hSome _
      exact Nat.le_trans (Nat.mul_le_mul_left _ (boundaryCount_le hSome)) hFit

/-- An accepted chunk has the bytes of as many elements as it announces exactly when the product
did not wrap. -/
theorem size_ofRaw_iff (h : ofRaw t n bytes validity = .ok c) :
    c.bytes.size = c.length * c.type.width ↔ n * t.width < 2 ^ 64 := by
  obtain ⟨-, hSize, -, rfl⟩ := ofRaw_eq_ok h
  constructor
  · intro hExact
    have hLt : wordMul n t.width < 2 ^ 64 := Nat.mod_lt _ (by decide)
    rwa [← hSize, hExact] at hLt
  · intro hFit
    exact hSize.trans (wordMul_eq_mul hFit)

end Chunk

/-- No call of the kernel on the chunk looks for an element or a byte that is not there. -/
structure Kernel.NeverMisses (k : Kernel) (c : Chunk) : Prop where
  bulk : ∀ buffer offset reason,
    ((k.executeIn c offset).run.run buffer).1 ≠ .error (.unreachable reason)
  boundary : ∀ byte element bit reason,
    ((k.executeRemainingIn c element bit).run.run byte).1 ≠ .error (.unreachable reason)

theorem Kernel.neverMisses {k : Kernel} {c : Chunk} (hKernel : k.Obtainable)
    (hChunk : c.WellFormed) : k.NeverMisses c where
  bulk buffer offset := (bulkOutcome hKernel hChunk buffer offset).ne_unreachable
  boundary byte element bit := (boundaryOutcome hKernel hChunk byte element bit).ne_unreachable

/-- For every type and every length: raw construction accepts no other bytes than those of as many
elements, and then calls of kernels stay inside them, exactly when the product of length and width
is a machine word. -/
theorem Chunk.ofRaw_exact_iff (t : DataType) (n : Nat) :
    (∀ bytes validity c, ofRaw t n bytes validity = .ok c →
      c.bytes.size = c.length * c.type.width ∧ c.ReadsInside ∧
        (c.bytes.size < 2 ^ 63 → ∀ k : Kernel, k.Obtainable → k.NeverMisses c)) ↔
      n * t.width < 2 ^ 64 := by
  constructor
  · intro hExact
    by_cases hFixed : t.isFixedWidth = true
    · have hAccepted : ofRaw t n (.replicate (wordMul n t.width) 0) none = .ok _ :=
        ofRaw_ok hFixed Array.size_replicate fun v hv => absurd hv (by simp)
      exact (size_ofRaw_iff hAccepted).mp (hExact _ _ _ hAccepted).1
    · -- The other types have no width, and their lengths no product that could wrap.
      have hNone : t.width = 0 := by
        have hPos := mt (DataType.width_pos_iff t).mp hFixed
        omega
      rw [hNone, Nat.mul_zero]
      decide
  · intro hFit bytes validity c hAccepted
    have hSize := (size_ofRaw_iff hAccepted).mpr hFit
    refine ⟨hSize, (readsInside_iff c).mpr (Nat.le_of_eq hSize.symm), fun hBytes k hKernel => ?_⟩
    obtain ⟨-, -, -, rfl⟩ := ofRaw_eq_ok hAccepted
    exact Kernel.neverMisses hKernel ((wellFormed_ofRaw_iff hAccepted hBytes).mpr hFit)

/-- A chunk without a byte is accepted as `2 ^ 63` elements of two bytes each, and the first call
on it looks for an element which is not there. -/
theorem Chunk.ofRaw_wrapped :
    ∃ c, ofRaw .int16 (2 ^ 63) #[] none = .ok c ∧
      c.bytes.size ≠ c.length * c.type.width ∧ ¬c.ReadsInside ∧
      Kernel.aboveFour.Obtainable ∧ ¬Kernel.aboveFour.NeverMisses c := by
  have hAccepted : ofRaw .int16 (2 ^ 63) #[] none = .ok ⟨.int16, 2 ^ 63, #[], #[], none⟩ := by
    decide +kernel
  have hKernel : Kernel.aboveFour.Obtainable :=
    .inr ⟨Kernel.aboveFour.field, Kernel.aboveFour.predicate, .fresh, rfl⟩
  refine ⟨_, hAccepted, by decide, ?_, hKernel, fun hNever => ?_⟩
  · rw [readsInside_iff]
    decide
  · exact hNever.boundary 0xff 0 0 _ rfl

end Columnar
