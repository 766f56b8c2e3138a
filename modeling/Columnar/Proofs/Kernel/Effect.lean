import Columnar.Proofs.Chunk.Construction
import Columnar.Proofs.Kernel.Buffer
import Columnar.Proofs.Kernel.Sequence

/-!
# The effect of a kernel call

A call of a kernel is refused before it has written anything, or it clears exactly the bits
of the elements that fail, each at its place, and leaves every other bit alone.  It does so
for every chunk, buffer and offset, and it reads no element that the chunk does not have.

* `Kernel.decides` -- what the predicate of a kernel says about a word, by the row evaluator.
* `Kernel.Refused` -- why a chunk is refused.
* `Kernel.BulkOutcome`, `Kernel.BoundaryOutcome` -- the ways in which a call ends.
* `Kernel.calls_take_exact_effect` -- every call ends in one of these ways, and sets no bit.
-/

namespace Columnar

namespace Kernel

variable {k : Kernel} {chunk : Chunk}

/-- A new kernel, or one that was compiled in some session. -/
def Obtainable (k : Kernel) : Prop :=
  (∃ field p, k = new field p) ∨ k.Compiled

/-- Whether a stored word satisfies the predicate of the kernel, as far as it is about the
field of the kernel: the row evaluator decides about the value of the word. -/
def decides (k : Kernel) (w : Nat) : Bool :=
  decide ((k.predicate.restrict k.field.name).evaluate
    (Row.ofCells [(k.field.name, k.field.type.scalar? w)]) = .ok true)

/-- The kernel is compiled, and the chunk has elements of its field. -/
def Takes (k : Kernel) (chunk : Chunk) : Prop :=
  k.isCompiled = true ∧ chunk.type = k.field.type

/-- Why a chunk is refused. -/
inductive Refused (k : Kernel) (chunk : Chunk) : Error → Prop
  | notCompiled (h : k.isCompiled = false) : Refused k chunk .kernelNotCompiled
  | variableLength (hCompiled : k.isCompiled = true) (h : chunk.type.isFixedWidth = false) :
      Refused k chunk (.notImplemented s!"filtering {chunk.type.name} columns")
  | wrongType (hCompiled : k.isCompiled = true) (hFixed : chunk.type.isFixedWidth = true)
      (h : chunk.type ≠ k.field.type) :
      Refused k chunk (.schema
        s!"kernel for '{k.field.name}' ({k.field.type.name}) given a {chunk.type.name} chunk")

/-- The program of a predicate decides about a word as the row evaluator decides about its
value. -/
theorem holds_eq_decides {program : Program}
    (h : Program.ofPredicate k.field k.predicate = .ok program) (w : Nat) :
    program.condition.holds w = k.decides w := by
  obtain ⟨c, hCondition, hMade⟩ := Result.bind_eq_ok_iff.mp h
  obtain rfl := Except.ok.inj hMade
  obtain ⟨lane, hLane, hLower⟩ := Condition.exists_lane_of_ofPredicate hCondition
  have hAdmits := (Condition.exists_ofPredicate_iff k.field k.predicate).mp ⟨c, hCondition⟩
  obtain ⟨s, hScalar⟩ :=
    DataType.exists_scalar? (DataType.isFixedWidth_of_isNumeric hAdmits.1) w
  have hRow : Row.ofCells [(k.field.name, k.field.type.scalar? w)] k.field.name =
      .ok (some s) := by
    simp [Row.ofCells, hScalar]
  rw [decides, Condition.evaluate_restrict hLane hAdmits hScalar hRow,
    ← Condition.holds_eq_eval_restrict hLower]
  simp

/-- What the program refuses, both calls refuse. -/
theorem error_of_checkChunk {program : Program} (hProgram : k.program = .ok program) {e : Error}
    (hCheck : program.checkChunk chunk = .error e) :
    (∀ bytes offset, k.execute chunk bytes offset = .error e) ∧
      ∀ byte element bit, k.executeRemaining chunk byte element bit = .error e := by
  constructor
  · intro bytes offset
    rw [execute, hProgram, Result.ok_bind, Program.runBulk, hCheck]
    rfl
  · intro byte element bit
    rw [executeRemaining, hProgram, Result.ok_bind, Program.boundary, hCheck]
    rfl

/-- A chunk is refused by both calls, or the program of the kernel takes it. -/
theorem refused_or_takes (h : k.Obtainable) (chunk : Chunk) :
    (∃ e, k.Refused chunk e ∧ (∀ bytes offset, k.execute chunk bytes offset = .error e) ∧
        ∀ byte element bit, k.executeRemaining chunk byte element bit = .error e) ∨
      k.Takes chunk ∧ ∃ program, k.program = .ok program ∧ program.checkChunk chunk = .ok () ∧
        ∀ w, program.condition.holds w = k.decides w := by
  rcases h with ⟨field, p, rfl⟩ | hCompiled
  · exact .inl ⟨_, .notCompiled rfl, fun _ _ => rfl, fun _ _ _ => rfl⟩
  · obtain ⟨linked, hLinked, hMade⟩ := program_of_compiled hCompiled
    obtain ⟨_, hSame, hField, -⟩ := fixed_of_compiled hCompiled
    obtain rfl := Option.some.inj (hLinked.symm.trans hSame)
    have hIs : k.isCompiled = true := by rw [isCompiled, hLinked, Option.isSome_some]
    have hProgram : k.program = .ok linked.program := by rw [program, hLinked]
    by_cases hFixed : chunk.type.isFixedWidth = true
    · by_cases hType : chunk.type = k.field.type
      · refine .inr ⟨⟨hIs, hType⟩, _, hProgram, ?_, holds_eq_decides hMade⟩
        exact (Program.checkChunk_eq_ok_iff _ _).mpr ⟨hFixed, by rw [hField, hType]⟩
      · refine .inl ⟨_, .wrongType hIs hFixed hType, error_of_checkChunk hProgram ?_⟩
        simp [Program.checkChunk, hFixed, hField, hType]
    · refine .inl ⟨_, .variableLength hIs (by simpa using hFixed),
        error_of_checkChunk hProgram ?_⟩
      simp [Program.checkChunk, hFixed]

/-- What a bulk pass leaves: at the bytes of whole groups the bits of the elements that the
kernel decides for, and every other byte as it was. -/
structure BulkEffect (k : Kernel) (chunk : Chunk) (offset : Nat) (bytes left : Array UInt8) :
    Prop where
  size_eq : left.size = bytes.size
  group : ∀ group < bulkGroups chunk.length offset,
    left[bulkSkip offset + group]? = bytes[bulkSkip offset + group]?.map
      (· &&& Byte.pack fun j => k.decides (chunk.word (offset + 8 * group + j)))
  other : ∀ i, (∀ group < bulkGroups chunk.length offset, i ≠ bulkSkip offset + group) →
    left[i]? = bytes[i]?

/-- What a boundary pass leaves: from position `bit` on the bits of the elements that the
kernel decides for, and every other bit as it was. -/
structure BoundaryEffect (k : Kernel) (chunk : Chunk) (element bit : Nat) (byte left : UInt8) :
    Prop where
  covered : ∀ i < boundaryCount chunk.length element bit,
    Byte.bit left (bit + i) = (Byte.bit byte (bit + i) && k.decides (chunk.word (element + i)))
  other : ∀ j < 8, j < bit ∨ bit + boundaryCount chunk.length element bit ≤ j →
    Byte.bit left j = Byte.bit byte j

/-- The ways in which a bulk pass ends, as its outcome and the contents of the buffer. -/
inductive BulkOutcome (k : Kernel) (chunk : Chunk) (offset : Nat) (bytes : Array UInt8) :
    Result Unit × Array UInt8 → Prop
  | refused {e : Error} (h : k.Refused chunk e) : BulkOutcome k chunk offset bytes (.error e, bytes)
  | tooSmall {groups skip : Nat} (hTakes : k.Takes chunk)
      (hGroups : bulkGroups chunk.length offset = groups) (hSkip : bulkSkip offset = skip)
      (hSome : groups ≠ 0) (hRoom : bytes.size < skip + groups) :
      BulkOutcome k chunk offset bytes (.error (.runtime
        s!"bitmap of {bytes.size} bytes cannot hold {groups} groups at skip {skip}"), bytes)
  | done {left : Array UInt8} (hTakes : k.Takes chunk)
      (hRoom : bulkGroups chunk.length offset ≠ 0 →
        bulkSkip offset + bulkGroups chunk.length offset ≤ bytes.size)
      (hEffect : k.BulkEffect chunk offset bytes left) :
      BulkOutcome k chunk offset bytes (.ok (), left)

/-- The ways in which a boundary pass ends, as its outcome and the contents of the byte. -/
inductive BoundaryOutcome (k : Kernel) (chunk : Chunk) (element bit : Nat) (byte : UInt8) :
    Result Unit × UInt8 → Prop
  | refused {e : Error} (h : k.Refused chunk e) :
      BoundaryOutcome k chunk element bit byte (.error e, byte)
  | overflow {count : Nat} (hTakes : k.Takes chunk)
      (hCount : boundaryCount chunk.length element bit = count) (hFit : 8 < count + bit) :
      BoundaryOutcome k chunk element bit byte
        (.error (.runtime s!"{count} values at bit offset {bit} overflow one byte"), byte)
  | done {left : UInt8} (hTakes : k.Takes chunk)
      (hFit : boundaryCount chunk.length element bit + bit ≤ 8)
      (hEffect : k.BoundaryEffect chunk element bit byte left) :
      BoundaryOutcome k chunk element bit byte (.ok (), left)

theorem bulkEffect_of_decides {c : Condition} (hDecides : ∀ w, c.holds w = k.decides w)
    (hLength : chunk.length < 2 ^ 63) (bytes : Array UInt8) (offset : Nat) :
    k.BulkEffect chunk offset bytes (ByteMask.applyAll bytes (c.bulkMasks chunk 0 offset)) := by
  have hByte := ByteMask.getElem?_applyAll_range (bulkSkip offset)
    (bulkGroups chunk.length offset)
    (fun group => Byte.pack fun j => k.decides (chunk.word (offset + 8 * group + j))) bytes
  simp only [Condition.bulkMasks, bulkReach_eq_bulkGroups hLength, Nat.zero_add, hDecides]
  refine ⟨ByteMask.size_applyAll _ _, fun group hGroup => ?_, fun i hOther => ?_⟩
  · rw [hByte, if_pos (by omega), Nat.add_sub_cancel_left]
  · refine (hByte i).trans (if_neg fun hInside => ?_)
    exact hOther (i - bulkSkip offset) (by omega) (by omega)

theorem boundaryEffect_of_decides {c : Condition} (hDecides : ∀ w, c.holds w = k.decides w)
    {element bit count : Nat} (hCount : boundaryCount chunk.length element bit = count)
    (hFit : count + bit ≤ 8) (byte : UInt8) :
    k.BoundaryEffect chunk element bit byte
      (byte &&& c.boundaryKeep chunk element bit count) := by
  subst hCount
  refine ⟨fun i hi => ?_, fun j hj hOther => ?_⟩
  · rw [Byte.bit_and, Condition.boundaryKeep, Byte.bit_pack, Nat.mod_eq_of_lt (by omega),
      if_pos (by omega), Nat.add_sub_cancel_left, hDecides]
  · rw [Byte.bit_and, Condition.boundaryKeep, Byte.bit_pack, Nat.mod_eq_of_lt hj,
      if_neg (by omega), Bool.and_true]

theorem bulkOutcome (hKernel : k.Obtainable) (hChunk : chunk.WellFormed) (bytes : Array UInt8)
    (offset : Nat) :
    k.BulkOutcome chunk offset bytes ((k.executeIn chunk offset).run.run bytes) := by
  rw [run_executeIn hChunk]
  obtain ⟨e, hRefused, hError, -⟩ | ⟨hTakes, program, hProgram, hCheck, hDecides⟩ :=
    refused_or_takes hKernel chunk
  · rw [hError]
    exact .refused hRefused
  · rw [execute, hProgram, Result.ok_bind, Program.runBulk, hCheck, Result.ok_bind]
    by_cases hSmall : bulkGroups chunk.length offset ≠ 0 ∧
        bytes.size < bulkSkip offset + bulkGroups chunk.length offset
    · simp only [if_pos hSmall]
      exact .tooSmall hTakes rfl rfl hSmall.1 hSmall.2
    · simp only [if_neg hSmall]
      exact .done hTakes (fun hSome => Nat.le_of_not_lt fun hRoom => hSmall ⟨hSome, hRoom⟩)
        (bulkEffect_of_decides hDecides hChunk.length_lt bytes offset)

theorem boundaryOutcome (hKernel : k.Obtainable) (hChunk : chunk.WellFormed) (byte : UInt8)
    (element bit : Nat) :
    k.BoundaryOutcome chunk element bit byte
      ((k.executeRemainingIn chunk element bit).run.run byte) := by
  rw [run_executeRemainingIn hChunk]
  obtain ⟨e, hRefused, -, hError⟩ | ⟨hTakes, program, hProgram, hCheck, hDecides⟩ :=
    refused_or_takes hKernel chunk
  · rw [hError]
    exact .refused hRefused
  · rw [executeRemaining, hProgram, Result.ok_bind, Program.boundary, hCheck, Result.ok_bind]
    by_cases hFit : 8 < boundaryCount chunk.length element bit + bit
    · simp only [if_pos hFit]
      exact .overflow hTakes rfl hFit
    · simp only [if_neg hFit]
      exact .done hTakes (Nat.le_of_not_lt hFit)
        (boundaryEffect_of_decides hDecides rfl (Nat.le_of_not_lt hFit) byte)

/-- No bulk pass sets a bit. -/
theorem BulkOutcome.bit_of_bit {offset : Nat} {bytes : Array UInt8}
    {outcome : Result Unit × Array UInt8} (h : k.BulkOutcome chunk offset bytes outcome) (i : Nat)
    (hBit : Byte.bit (outcome.2[i / 8]?.getD 0) i = true) :
    Byte.bit (bytes[i / 8]?.getD 0) i = true := by
  cases h with
  | refused => exact hBit
  | tooSmall => exact hBit
  | done _ _ hEffect =>
      by_cases hInside : ∃ group < bulkGroups chunk.length offset,
          i / 8 = bulkSkip offset + group
      · obtain ⟨group, hGroup, hIndex⟩ := hInside
        rw [hIndex] at hBit ⊢
        simp only [hEffect.group group hGroup] at hBit
        cases hByte : bytes[bulkSkip offset + group]? with
        | none => simp [hByte] at hBit
        | some byte =>
            rw [hByte, Option.map_some, Option.getD_some, Byte.bit_and, Bool.and_eq_true] at hBit
            exact hBit.1
      · rwa [hEffect.other _ fun group hGroup hSame => hInside ⟨group, hGroup, hSame⟩] at hBit

/-- No boundary pass sets a bit. -/
theorem BoundaryOutcome.bit_of_bit {element bit : Nat} {byte : UInt8}
    {outcome : Result Unit × UInt8} (h : k.BoundaryOutcome chunk element bit byte outcome) {j : Nat}
    (hj : j < 8) (hBit : Byte.bit outcome.2 j = true) : Byte.bit byte j = true := by
  cases h with
  | refused => exact hBit
  | overflow => exact hBit
  | done _ _ hEffect =>
      by_cases hInside : bit ≤ j ∧ j < bit + boundaryCount chunk.length element bit
      · have hPlace : bit + (j - bit) = j := by omega
        have hSame := hEffect.covered (j - bit) (by omega)
        rw [hPlace] at hSame
        rw [hSame, Bool.and_eq_true] at hBit
        exact hBit.1
      · rwa [hEffect.other j hj (by omega)] at hBit

/-- Nothing that a chunk is refused for is a missing element. -/
theorem Refused.ne_unreachable {e : Error} (h : k.Refused chunk e) (reason : String) :
    e ≠ .unreachable reason := by
  cases h <;> simp

/-- No bulk pass misses an element or a byte. -/
theorem BulkOutcome.ne_unreachable {offset : Nat} {bytes : Array UInt8}
    {outcome : Result Unit × Array UInt8} (h : k.BulkOutcome chunk offset bytes outcome)
    (reason : String) : outcome.1 ≠ .error (.unreachable reason) := by
  cases h with
  | refused hRefused => simpa using hRefused.ne_unreachable reason
  | tooSmall => simp
  | done => simp

/-- No boundary pass misses an element. -/
theorem BoundaryOutcome.ne_unreachable {element bit : Nat} {byte : UInt8}
    {outcome : Result Unit × UInt8} (h : k.BoundaryOutcome chunk element bit byte outcome)
    (reason : String) : outcome.1 ≠ .error (.unreachable reason) := by
  cases h with
  | refused hRefused => simpa using hRefused.ne_unreachable reason
  | overflow => simp
  | done => simp

/-- For every kernel, compiled or not, every chunk that is well formed, every buffer and every
offset: each of the two calls is refused for one of the reasons given, and then the buffer is
as it was, or it clears exactly the bits of the elements that the kernel decides against.
Neither call looks for an element outside the chunk or a byte outside the buffer, and neither
sets a bit. -/
theorem calls_take_exact_effect (hKernel : k.Obtainable) (hChunk : chunk.WellFormed) :
    (∀ bytes offset,
        k.BulkOutcome chunk offset bytes ((k.executeIn chunk offset).run.run bytes) ∧
        (∀ reason, ((k.executeIn chunk offset).run.run bytes).1 ≠ .error (.unreachable reason)) ∧
        ∀ i, Byte.bit (((k.executeIn chunk offset).run.run bytes).2[i / 8]?.getD 0) i = true →
          Byte.bit (bytes[i / 8]?.getD 0) i = true) ∧
      ∀ byte element bit,
        k.BoundaryOutcome chunk element bit byte
          ((k.executeRemainingIn chunk element bit).run.run byte) ∧
        (∀ reason, ((k.executeRemainingIn chunk element bit).run.run byte).1 ≠
          .error (.unreachable reason)) ∧
        ∀ j < 8, Byte.bit ((k.executeRemainingIn chunk element bit).run.run byte).2 j = true →
          Byte.bit byte j = true := by
  constructor
  · intro bytes offset
    have hOutcome := bulkOutcome hKernel hChunk bytes offset
    exact ⟨hOutcome, hOutcome.ne_unreachable, hOutcome.bit_of_bit⟩
  · intro byte element bit
    have hOutcome := boundaryOutcome hKernel hChunk byte element bit
    exact ⟨hOutcome, hOutcome.ne_unreachable, fun _ => hOutcome.bit_of_bit⟩

/-- Eleven numbers, of which the third, the first, the seventh and the last are below three. -/
def mixed : Chunk :=
  .ofValues .uint8 [1#8, 9#8, 2#8, 8#8, 3#8, 7#8, 0#8, 6#8, 4#8, 5#8, 2#8]

/-- The chunk begins with the last three rows of a byte: the boundary pass decides these in the
first byte, and the bulk pass the next eight in the second one. -/
theorem calls_take_exact_effect_mixed :
    fromThree.Obtainable ∧ mixed.WellFormed ∧
      fromThree.BulkOutcome mixed 3 #[0xff, 0xff, 0xff] (.ok (), #[0xff, 0xee, 0xff]) ∧
      fromThree.BoundaryOutcome mixed 0 5 0xff (.ok (), 0xfa) := by
  have hKernel : fromThree.Obtainable :=
    .inr ⟨fromThree.field, fromThree.predicate, .fresh, rfl⟩
  have hChunk : mixed.WellFormed := Chunk.wellFormed_ofValues (by decide) (by decide)
  have hBulk : (fromThree.executeIn mixed 3).run.run #[0xff, 0xff, 0xff] =
      (.ok (), #[0xff, 0xee, 0xff]) := by rfl
  have hBoundary : (fromThree.executeRemainingIn mixed 0 5).run.run 0xff = (.ok (), 0xfa) := by
    rfl
  obtain ⟨hBulkCalls, hBoundaryCalls⟩ := calls_take_exact_effect hKernel hChunk
  exact ⟨hKernel, hChunk, hBulk ▸ (hBulkCalls _ 3).1, hBoundary ▸ (hBoundaryCalls _ 0 5).1⟩

end Kernel

end Columnar
