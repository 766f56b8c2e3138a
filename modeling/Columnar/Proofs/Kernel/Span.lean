import Columnar.Kernel.Pass
import Columnar.Proofs.Result
import Mathlib.Data.List.Nodup

/-!
# Spans of a pass

Both passes over a chunk work byte by byte.  A `Span` is one such step: it reads some
elements of the chunk and decides the bits of one byte with them.  The spans of a chunk
depend on its length and on the row at which it starts, and on nothing else; what a pass
clears is what the words of its spans say.

* `Span.Fits` -- a span stays inside its byte and inside its chunk, and element and bit
  belong to the same row.
* `fits_of_mem_bulkSpans`, `fits_of_mem_boundarySpans` -- every span of a chunk fits.
* `exists_mem_reads` -- every element of a chunk is read by some span.
* `bulkMasks_eq_masks`, `boundariesOf_eq_ok_masks` -- the passes are the masks of their
  spans.
-/

namespace Columnar

/-- One step of a pass: `count` elements from `element` on decide the bits of the byte at
`index`, from position `bit` on. -/
structure Span where
  index : Nat
  bit : Nat
  element : Nat
  count : Nat

namespace Span

/-- The elements that a span reads. -/
def reads (s : Span) : List Nat :=
  List.range' s.element s.count

theorem mem_reads {s : Span} {i : Nat} :
    i ∈ s.reads ↔ s.element ≤ i ∧ i < s.element + s.count :=
  List.mem_range'_1

/-- What a span keeps of its byte, given the words that it read. -/
def mask (s : Span) (c : Condition) (words : List Nat) : ByteMask where
  index := s.index
  keep := Byte.pack fun j => if s.bit ≤ j then words[j - s.bit]?.all c.holds else true

/-- A span over a chunk of `length` elements whose first element has row `start`: it has an
element, stays inside its byte and inside the chunk, and its bits are those of the rows of
its elements. -/
structure Fits (s : Span) (start length : Nat) : Prop where
  count_pos : 0 < s.count
  bit_add_count_le : s.bit + s.count ≤ 8
  element_add_count_le : s.element + s.count ≤ length
  row_eq : 8 * s.index + s.bit = start + s.element

/-- The byte of a span that fits holds a row of the chunk. -/
theorem Fits.index_eq {s : Span} {start length : Nat} (h : s.Fits start length) :
    s.index = (start + s.element) / 8 := by
  have hCount := h.count_pos
  have hBit := h.bit_add_count_le
  have hRow := h.row_eq
  omega

/-- A span keeps what a pass over its elements keeps, and every bit outside its place. -/
theorem mask_eq_boundaryKeep (s : Span) (c : Condition) (chunk : Chunk) :
    s.mask c (s.reads.map chunk.word) =
      { index := s.index, keep := c.boundaryKeep chunk s.element s.bit s.count } := by
  refine congrArg (ByteMask.mk s.index ∘ Byte.pack) (funext fun j => ?_)
  by_cases hBit : s.bit ≤ j
  · by_cases hCount : j < s.bit + s.count
    · have hPlace : j - s.bit < s.count := by omega
      simp [reads, hBit, hCount, hPlace]
    · have hPlace : s.count ≤ j - s.bit := by omega
      simp [reads, hCount, hPlace]
  · simp [hBit]

end Span

/-- Bytes with the same bits in their eight places are equal. -/
theorem Byte.pack_congr {f g : Nat → Bool} (h : ∀ j < 8, f j = g j) : pack f = pack g := by
  refine Byte.ext fun j hj => ?_
  rw [bit_pack, bit_pack, Nat.mod_eq_of_lt hj, h j hj]

namespace Program

/-- The elements of a chunk behind its last whole byte. -/
def tailLength (start length : Nat) : Nat :=
  (length - min (headLength start) length) % 8

/-- The span of one group of the bulk pass, which starts at the first whole byte. -/
def bulkSpan (start group : Nat) : Span where
  index := start / 8 + bulkSkip (headLength start) + group
  bit := 0
  element := headLength start + 8 * group
  count := 8

/-- The span of the head of a chunk that starts inside a byte. -/
def headSpan (start length : Nat) : Span where
  index := start / 8
  bit := start % 8
  element := 0
  count := min (8 - start % 8) length

/-- The span of the tail of a chunk that ends inside a byte. -/
def tailSpan (start length : Nat) : Span where
  index := (start + length) / 8
  bit := 0
  element := length - tailLength start length
  count := tailLength start length

/-- The spans of the bulk pass: the whole bytes behind the head. -/
def bulkSpans (start length : Nat) : List Span :=
  (List.range (bulkReach length (headLength start))).map (bulkSpan start)

/-- The spans of the boundary passes.  An empty chunk has none. -/
def boundarySpans (start length : Nat) : List Span :=
  if length = 0 then []
  else
    (if start % 8 = 0 then [] else [headSpan start length]) ++
      if tailLength start length = 0 then [] else [tailSpan start length]

/-- All spans of a chunk. -/
def chunkSpans (start length : Nat) : List Span :=
  bulkSpans start length ++ boundarySpans start length

section Spans

variable {start length : Nat} {s : Span}

/-- Head, whole bytes and tail lie side by side and fill the chunk. -/
theorem head_add_bulk_add_tail (start length : Nat) :
    min (headLength start) length + 8 * bulkGroups length (headLength start) +
      tailLength start length = length := by
  unfold bulkGroups tailLength
  omega

theorem mem_bulkSpans_iff (hLength : length < 2 ^ 63) :
    s ∈ bulkSpans start length ↔
      ∃ group < bulkGroups length (headLength start), bulkSpan start group = s := by
  simp only [bulkSpans, bulkReach_eq_bulkGroups hLength, List.mem_map, List.mem_range]

theorem mem_boundarySpans_iff :
    s ∈ boundarySpans start length ↔ length ≠ 0 ∧
      (start % 8 ≠ 0 ∧ s = headSpan start length ∨
        tailLength start length ≠ 0 ∧ s = tailSpan start length) := by
  unfold boundarySpans
  by_cases hEmpty : length = 0
  · simp [hEmpty]
  · by_cases hAligned : start % 8 = 0 <;> by_cases hNone : tailLength start length = 0 <;>
      simp [hEmpty, hAligned, hNone]

/-- The bulk pass starts at the first whole byte, which the head may push up by one. -/
theorem eight_mul_add_bulkSkip (start : Nat) :
    8 * (start / 8 + bulkSkip (headLength start)) = start + headLength start := by
  unfold bulkSkip headLength
  split <;> omega

/-- A bulk span fits, between the head and the tail. -/
theorem fits_bulkSpan {group : Nat} (hGroup : group < bulkGroups length (headLength start)) :
    (bulkSpan start group).Fits start length ∧
      headLength start ≤ (bulkSpan start group).element ∧
      (bulkSpan start group).element + 8 ≤ length - tailLength start length := by
  have hParts := head_add_bulk_add_tail start length
  have hByte := eight_mul_add_bulkSkip start
  have hHead : headLength start ≤ length := by
    unfold bulkGroups at hGroup
    omega
  rw [Nat.min_eq_left hHead] at hParts
  unfold bulkSpan
  exact ⟨⟨Nat.succ_pos _, Nat.le_refl _, by simp only; omega, by simp only; omega⟩,
    by simp only; omega, by simp only; omega⟩

/-- The head fits, in front of the first whole byte. -/
theorem fits_headSpan (hSome : length ≠ 0) (hInside : start % 8 ≠ 0) :
    (headSpan start length).Fits start length ∧
      (headSpan start length).element + (headSpan start length).count ≤ headLength start := by
  unfold headSpan headLength
  exact ⟨⟨by simp only; omega, by simp only; omega, by simp only; omega, by simp only; omega⟩,
    by simp only; omega⟩

/-- The tail fits, behind the last whole byte. -/
theorem fits_tailSpan (hSome : tailLength start length ≠ 0) :
    (tailSpan start length).Fits start length := by
  unfold tailSpan
  generalize hTail : tailLength start length = tail at hSome ⊢
  unfold tailLength headLength at hTail
  exact ⟨by simp only; omega, by simp only; omega, by simp only; omega, by simp only; omega⟩

theorem fits_of_mem_bulkSpans (hLength : length < 2 ^ 63) (h : s ∈ bulkSpans start length) :
    s.Fits start length := by
  obtain ⟨group, hGroup, rfl⟩ := (mem_bulkSpans_iff hLength).mp h
  exact (fits_bulkSpan hGroup).1

theorem fits_of_mem_boundarySpans (h : s ∈ boundarySpans start length) :
    s.Fits start length := by
  obtain ⟨hSome, ⟨hInside, rfl⟩ | ⟨hTail, rfl⟩⟩ := mem_boundarySpans_iff.mp h
  · exact (fits_headSpan hSome hInside).1
  · exact fits_tailSpan hTail

theorem fits_of_mem_chunkSpans (hLength : length < 2 ^ 63) (h : s ∈ chunkSpans start length) :
    s.Fits start length := by
  rcases List.mem_append.mp h with hBulk | hBoundary
  · exact fits_of_mem_bulkSpans hLength hBulk
  · exact fits_of_mem_boundarySpans hBoundary

/-- Every element of a chunk is read by a span. -/
theorem exists_mem_reads (start : Nat) (hLength : length < 2 ^ 63) {i : Nat} (hi : i < length) :
    ∃ s ∈ chunkSpans start length, i ∈ s.reads := by
  have hParts := head_add_bulk_add_tail start length
  have hSome : length ≠ 0 := by omega
  by_cases hHead : i < headLength start
  · have hInside : start % 8 ≠ 0 := by
      unfold headLength at hHead
      omega
    refine ⟨headSpan start length, List.mem_append_right _ ?_, Span.mem_reads.mpr ?_⟩
    · exact mem_boundarySpans_iff.mpr ⟨hSome, .inl ⟨hInside, rfl⟩⟩
    · unfold headLength at hHead
      unfold headSpan
      simp only
      omega
  · by_cases hTail : length - tailLength start length ≤ i
    · have hNonempty : tailLength start length ≠ 0 := by omega
      refine ⟨tailSpan start length, List.mem_append_right _ ?_, Span.mem_reads.mpr ?_⟩
      · exact mem_boundarySpans_iff.mpr ⟨hSome, .inr ⟨hNonempty, rfl⟩⟩
      · unfold tailSpan
        simp only
        omega
    · -- The element lies in the whole bytes, in the group that its distance to the head says.
      refine ⟨bulkSpan start ((i - headLength start) / 8), List.mem_append_left _ ?_,
        Span.mem_reads.mpr ?_⟩
      · exact (mem_bulkSpans_iff hLength).mpr ⟨_, by omega, rfl⟩
      · unfold bulkSpan
        simp only
        omega

/-- The bulk spans of a chunk go to different bytes. -/
theorem nodup_index_bulkSpans (start length : Nat) :
    ((bulkSpans start length).map Span.index).Nodup := by
  rw [bulkSpans, List.map_map]
  refine List.Nodup.map ?_ List.nodup_range
  intro group other hSame
  simpa [bulkSpan] using hSame

/-- A boundary span of a chunk does not go to a byte of its bulk pass. -/
theorem index_ne_of_mem_boundarySpans (hLength : length < 2 ^ 63) {s' : Span}
    (h : s ∈ bulkSpans start length) (h' : s' ∈ boundarySpans start length) :
    s.index ≠ s'.index := by
  obtain ⟨group, hGroup, rfl⟩ := (mem_bulkSpans_iff hLength).mp h
  obtain ⟨hFits, hLower, hUpper⟩ := fits_bulkSpan hGroup
  have hRow := hFits.row_eq
  obtain ⟨hSome, ⟨hInside, rfl⟩ | ⟨hTail, rfl⟩⟩ := mem_boundarySpans_iff.mp h'
  · obtain ⟨hHead, hFront⟩ := fits_headSpan hSome hInside
    have hHeadRow := hHead.row_eq
    have hHeadCount := hHead.count_pos
    simp only [bulkSpan] at hRow hLower hUpper ⊢
    omega
  · have hTailFits := fits_tailSpan hTail
    have hTailRow := hTailFits.row_eq
    have hTailCount := hTailFits.count_pos
    have hTailBit := hTailFits.bit_add_count_le
    simp only [bulkSpan, tailSpan] at hRow hLower hUpper hTailRow hTailBit ⊢
    omega

end Spans

/-- The masks of some spans over a chunk. -/
def masks (c : Condition) (chunk : Chunk) (spans : List Span) : List ByteMask :=
  spans.map fun s => s.mask c (s.reads.map chunk.word)

variable {k : Program} {chunk : Chunk}

/-- A chunk that is not refused has elements of fixed width, those of the field. -/
theorem checkChunk_eq_ok_iff (k : Program) (chunk : Chunk) :
    k.checkChunk chunk = .ok () ↔
      chunk.type.isFixedWidth = true ∧ chunk.type = k.field.type := by
  unfold checkChunk
  by_cases hFixed : chunk.type.isFixedWidth = true
  · by_cases hType : chunk.type = k.field.type <;> simp [hFixed, hType]
  · simp [hFixed]

/-- The chunks that a program is run over are of the type of its field, which has a
fixed width. -/
theorem checkChunk_ok (hType : chunk.type = k.field.type)
    (hFixed : k.field.type.isFixedWidth = true) : k.checkChunk chunk = .ok () :=
  (checkChunk_eq_ok_iff k chunk).mpr ⟨hType ▸ hFixed, hType⟩

theorem bulkMasks_eq_masks (c : Condition) (chunk : Chunk) (start : Nat) :
    c.bulkMasks chunk (start / 8) (headLength start) =
      masks c chunk (bulkSpans start chunk.length) := by
  rw [Condition.bulkMasks, masks, bulkSpans, List.map_map]
  refine List.map_congr_left fun group _ => ?_
  rw [Function.comp, Span.mask_eq_boundaryKeep]
  refine congrArg (ByteMask.mk _) (Byte.pack_congr fun j hj => ?_)
  have hPlace : (bulkSpan start group).bit ≤ j ∧
      j < (bulkSpan start group).bit + (bulkSpan start group).count :=
    ⟨Nat.zero_le j, by simp only [bulkSpan]; omega⟩
  rw [if_pos hPlace]
  simp only [bulkSpan, Nat.sub_zero]

/-- The bulk pass over a chunk of the type of the field is not refused. -/
theorem bulkOf_eq_ok_masks (hCheck : k.checkChunk chunk = .ok ()) (start : Nat) :
    k.bulkOf start chunk = .ok (masks k.condition chunk (bulkSpans start chunk.length)) := by
  rw [← bulkMasks_eq_masks]
  simp [bulkOf, hCheck, bind, Except.bind, pure, Except.pure]

/-- A boundary pass that stays inside one byte is not refused. -/
theorem boundary_ok (hCheck : k.checkChunk chunk = .ok ()) {element bit count : Nat}
    (hCount : boundaryCount chunk.length element bit = count) (hFit : bit + count ≤ 8) :
    k.boundary chunk element bit = .ok (k.condition.boundaryKeep chunk element bit count) := by
  subst hCount
  rw [Nat.add_comm] at hFit
  simp [boundary, hCheck, bind, Except.bind, pure, Except.pure, Nat.not_lt.mpr hFit]

/-- At element zero a boundary pass covers the head, which is what its span says. -/
theorem boundary_head (hCheck : k.checkChunk chunk = .ok ()) (start : Nat) :
    k.boundary chunk 0 (start % 8) = .ok (k.condition.boundaryKeep chunk 0 (start % 8)
      (min (8 - start % 8) chunk.length)) :=
  boundary_ok hCheck (if_pos rfl) (by omega)

/-- At the first element of the tail a boundary pass covers the tail, also when the tail is
the whole chunk. -/
theorem boundary_tail (hCheck : k.checkChunk chunk = .ok ()) (start : Nat) :
    k.boundary chunk (chunk.length - tailLength start chunk.length) 0 =
      .ok (k.condition.boundaryKeep chunk (chunk.length - tailLength start chunk.length) 0
        (tailLength start chunk.length)) := by
  refine boundary_ok hCheck ?_ ?_
  · unfold boundaryCount tailLength
    split <;> omega
  · unfold tailLength
    omega

/-- The boundary passes over a chunk of the type of the field are not refused. -/
theorem boundariesOf_eq_ok_masks (hCheck : k.checkChunk chunk = .ok ()) {start : Nat}
    (hFit : start + chunk.length < 2 ^ 64) :
    k.boundariesOf start chunk =
      .ok (masks k.condition chunk (boundarySpans start chunk.length)) := by
  by_cases hEmpty : chunk.length = 0
  · simp [boundariesOf, boundarySpans, masks, hEmpty, pure, Except.pure]
  · have hTail := @boundary_tail k chunk hCheck start
    simp only [boundariesOf, boundarySpans, masks, List.map_append, hEmpty, if_false,
      wordAdd_eq_add hFit, boundary_head hCheck, pure, Except.pure, bind, Except.bind]
    -- Each boundary pass is there or not, whatever the other one does.
    by_cases hAligned : start % 8 = 0 <;> by_cases hNone : tailLength start chunk.length = 0
    · simp [hAligned, hNone, ← tailLength.eq_def]
    · simp [hAligned, hNone, ← tailLength.eq_def, hTail, Span.mask_eq_boundaryKeep,
        tailSpan]
    · simp [hAligned, hNone, ← tailLength.eq_def, Span.mask_eq_boundaryKeep, headSpan]
    · simp [hAligned, hNone, ← tailLength.eq_def, hTail, Span.mask_eq_boundaryKeep,
        headSpan, tailSpan]

end Program

end Columnar
