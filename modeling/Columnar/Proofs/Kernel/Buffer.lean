import Columnar.Kernel.Buffer
import Columnar.Proofs.Kernel.Mask
import Columnar.Proofs.Kernel.Span

/-!
# Kernels on a buffer apply their masks

On a buffer a kernel reads one element after the other, shifts bits into place and stores one
byte after the other.  On a well formed chunk it never misses an element or a byte, and what
it leaves is what its masks leave, all at once.  A call that is refused is refused before it
stores anything.

* `Byte.foldl_shiftLeft_eq_pack`, `Byte.foldl_clear_eq_pack` -- bits that are shifted into
  place, or cleared one by one, make up the byte that a mask keeps.
* `Kernel.run_executeIn`, `Kernel.run_executeRemainingIn` -- a call on a buffer leaves what
  the call without a buffer gives.
-/

namespace Columnar

namespace InBuffer

variable {σ α β : Type} {x : InBuffer σ α} {f : α → InBuffer σ β} {s s' : σ}

theorem run_bind_ok {a : α} (h : x.run.run s = (.ok a, s')) :
    (x >>= f).run.run s = (f a).run.run s' := by
  rw [ExceptT.run_bind, StateT.run_bind, h]
  rfl

/-- What does not concern the buffer leaves it alone. -/
theorem run_lift (r : Result α) (s : σ) : (liftM r : InBuffer σ α).run.run s = (r, s) := rfl

theorem run_get (s : σ) : (get : InBuffer σ σ).run.run s = (.ok s, s) := rfl

/-- A call as a whole: it leaves new contents, or is refused and leaves the old ones. -/
def settle (s : σ) : Result σ → Result Unit × σ
  | .ok s' => (.ok (), s')
  | .error e => (.error e, s)

/-- A call that is refused before it has looked at the buffer leaves it alone. -/
theorem run_lift_bind_eq_settle {r : Result α} {call : α → InBuffer σ Unit}
    {made : α → Result σ} (h : ∀ a, r = .ok a → (call a).run.run s = settle s (made a)) :
    ((liftM r : InBuffer σ α) >>= call).run.run s = settle s (r >>= made) := by
  cases r with
  | error e => rfl
  | ok a =>
      rw [run_bind_ok (run_lift _ s)]
      exact h a rfl

theorem run_maskByte {bytes : Array UInt8} {m : ByteMask} (h : m.index < bytes.size) :
    (maskByte m.index m.keep).run.run bytes = (.ok (), ByteMask.apply bytes m) := by
  have hByte := Array.getElem?_eq_getElem h
  rw [← ByteMask.setIfInBounds_eq_apply hByte, maskByte, run_bind_ok (run_get bytes), hByte]
  rfl

/-- Steps that apply one mask each apply all of them. -/
theorem run_forM_masks {steps : List α} {step : α → InBuffer (Array UInt8) Unit}
    {mask : α → ByteMask} {bytes : Array UInt8}
    (h : ∀ a ∈ steps, ∀ held : Array UInt8, held.size = bytes.size →
      (step a).run.run held = (.ok (), ByteMask.apply held (mask a))) :
    (steps.forM step).run.run bytes = (.ok (), ByteMask.applyAll bytes (steps.map mask)) := by
  induction steps generalizing bytes with
  | nil => rfl
  | cons a rest ih =>
      obtain ⟨hHead, hRest⟩ := List.forall_mem_cons.mp h
      show (step a >>= fun _ => rest.forM step).run.run bytes = _
      rw [run_bind_ok (hHead bytes rfl), ih fun b hb held hSize =>
        hRest b hb held (hSize.trans (ByteMask.size_apply bytes (mask a)))]
      rfl

end InBuffer

namespace ByteMask

/-- Masks on bytes side by side change these bytes and no other. -/
theorem getElem?_applyAll_range (first n : Nat) (keep : Nat → UInt8) (bytes : Array UInt8)
    (i : Nat) :
    (applyAll bytes ((List.range n).map fun group => ⟨first + group, keep group⟩))[i]? =
      if first ≤ i ∧ i < first + n then bytes[i]?.map (· &&& keep (i - first))
      else bytes[i]? := by
  induction n with
  | zero =>
      rw [if_neg (by omega)]
      rfl
  | succ n ih =>
      rw [List.range_succ, List.map_append, applyAll_append]
      show (apply _ ⟨first + n, keep n⟩)[i]? = _
      rw [getElem?_apply, ih]
      by_cases hLast : first + n = i
      · subst hLast
        simp
      · rw [if_neg hLast]
        refine if_congr ?_ rfl rfl
        omega

end ByteMask

namespace Byte

theorem one_shiftLeft_eq_bitMask : ∀ j < 8, (1 : UInt8) <<< UInt8.ofNat (7 - j) = bitMask j := by
  decide

/-- Bits that are shifted into place one after the other make up a byte. -/
theorem foldl_shiftLeft_eq_pack (f : Nat → Bool) :
    (List.range 8).foldl (fun packed j => packed ||| ((f j).toUInt8 <<< UInt8.ofNat (7 - j))) 0 =
      pack f := by
  refine List.foldl_ext _ _ _ fun packed j hj => ?_
  cases hBit : f j with
  | true =>
      rw [if_pos rfl, ← one_shiftLeft_eq_bitMask j (List.mem_range.mp hj)]
      rfl
  | false => simp [Bool.toUInt8]

/-- A distance that was computed as a signed number shifts to the same place. -/
theorem one_shiftLeft_ofInt_eq_bitMask {i bit : Nat} (h : i + bit < 8) :
    (1 : UInt8) <<< UInt8.ofInt (7 - i - bit) = bitMask (bit + i) := by
  have hDistance : (7 : Int) - i - bit = (7 - (bit + i) : Nat) := by omega
  rw [hDistance, UInt8.ofInt, Int.emod_eq_of_lt (by omega) (by omega), Int.toNat_natCast]
  exact one_shiftLeft_eq_bitMask (bit + i) (by omega)

/-- The bit that is cleared for an element: none when it passes. -/
theorem bit_shiftLeft_fail (passes : Bool) {i bit j : Nat} (h : i + bit < 8) (hj : j < 8) :
    Byte.bit ((passes.toUInt8 ^^^ 1) <<< UInt8.ofInt (7 - i - bit)) j =
      (!passes && decide (bit + i = j)) := by
  cases passes with
  | true =>
      have hNone : (true.toUInt8 ^^^ 1 : UInt8) = 0 := rfl
      rw [hNone, UInt8.zero_shiftLeft, bit_zero]
      rfl
  | false =>
      show Byte.bit ((1 : UInt8) <<< UInt8.ofInt (7 - i - bit)) j = _
      rw [one_shiftLeft_ofInt_eq_bitMask h, bit_bitMask, Nat.mod_eq_of_lt hj,
        Nat.mod_eq_of_lt (by omega)]
      rfl

/-- Clearing the bits of the elements that fail, one after the other from position `bit` on,
leaves the bits of those that pass and of all other positions. -/
theorem foldl_clear_eq_pack (f : Nat → Bool) {bit count : Nat} (hFit : count + bit ≤ 8) :
    (List.range count).foldl (fun keep i =>
        keep &&& ~~~(((f i).toUInt8 ^^^ 1) <<< UInt8.ofInt (7 - i - bit))) 0xff =
      pack fun j => if bit ≤ j ∧ j < bit + count then f (j - bit) else true := by
  refine Byte.ext fun j hj => ?_
  rw [bit_pack, Nat.mod_eq_of_lt hj]
  induction count with
  | zero =>
      rw [if_neg (by omega)]
      exact bit_ones j
  | succ count ih =>
      rw [List.range_succ, List.foldl_append, List.foldl_cons, List.foldl_nil, bit_and,
        ih (by omega), bit_not, bit_shiftLeft_fail (f count) (by omega) hj]
      -- Of the positions so far only that of the last element is decided by it.
      by_cases hLast : bit + count = j
      · subst hLast
        simp
      · have hSame : (bit ≤ j ∧ j < bit + (count + 1)) ↔ bit ≤ j ∧ j < bit + count := by omega
        simp [hLast, hSame]

end Byte

/-- Every element of a well formed chunk of fixed width can be read. -/
theorem Chunk.readWord_eq_ok {c : Chunk} (h : c.WellFormed) (hFixed : c.type.isFixedWidth = true)
    {i : Nat} (hi : i < c.length) : c.readWord i = .ok (c.word i) := by
  rw [readWord, if_neg (by omega), checkElement_eq_ok h hFixed hi]
  rfl

/-- A boundary pass over no elements keeps every bit. -/
theorem Condition.boundaryKeep_zero (c : Condition) (chunk : Chunk) (element bit : Nat) :
    c.boundaryKeep chunk element bit 0 = 0xff := by
  refine Byte.ext fun j hj => ?_
  rw [boundaryKeep, Byte.bit_pack, if_neg (by omega), Byte.bit_ones]

namespace Program

variable {k : Program} {chunk : Chunk}

theorem readBit_eq_ok (h : chunk.WellFormed) (hFixed : chunk.type.isFixedWidth = true) {i : Nat}
    (hi : i < chunk.length) :
    k.readBit chunk i = .ok (k.condition.holds (chunk.word i)).toUInt8 := by
  rw [readBit, Chunk.readWord_eq_ok h hFixed hi]
  rfl

/-- A group inside the chunk is packed. -/
theorem packGroup_eq_ok (h : chunk.WellFormed) (hFixed : chunk.type.isFixedWidth = true)
    {first : Nat} (hEnd : first + 8 ≤ chunk.length) :
    k.packGroup chunk first =
      .ok (Byte.pack fun j => k.condition.holds (chunk.word (first + j))) := by
  rw [← Byte.foldl_shiftLeft_eq_pack]
  refine (Result.foldlM_eq_ok_foldl (fun _ => True) (fun packed j hj _ => ⟨?_, trivial⟩)
    trivial).1
  have hElement : first + j < chunk.length := by
    have := List.mem_range.mp hj
    omega
  rw [readBit_eq_ok h hFixed hElement]
  rfl

/-- The elements of a boundary pass inside the chunk leave the bits that the pass keeps. -/
theorem keptBits_eq_ok (h : chunk.WellFormed) (hFixed : chunk.type.isFixedWidth = true)
    {element bit count : Nat} (hEnd : element + count ≤ chunk.length) (hFit : count + bit ≤ 8) :
    k.keptBits chunk element bit count =
      .ok (k.condition.boundaryKeep chunk element bit count) := by
  rw [Condition.boundaryKeep,
    ← Byte.foldl_clear_eq_pack (fun i => k.condition.holds (chunk.word (element + i))) hFit]
  refine (Result.foldlM_eq_ok_foldl (fun _ => True) (fun keep i hi _ => ⟨?_, trivial⟩)
    trivial).1
  have hElement : element + i < chunk.length := by
    have := List.mem_range.mp hi
    omega
  rw [readBit_eq_ok h hFixed hElement]
  rfl

/-- Byte by byte the bulk pass applies its masks, when the bytes are there. -/
theorem run_bulkRaw (h : chunk.WellFormed) (hCheck : k.checkChunk chunk = .ok ())
    {bytes : Array UInt8} {offset : Nat}
    (hRoom : bulkGroups chunk.length offset ≠ 0 →
      bulkSkip offset + bulkGroups chunk.length offset ≤ bytes.size) :
    (k.bulkRaw chunk offset).run.run bytes =
      (.ok (), ByteMask.applyAll bytes (k.condition.bulkMasks chunk 0 offset)) := by
  have hFixed := ((checkChunk_eq_ok_iff k chunk).mp hCheck).1
  have hReach : bulkReach chunk.length offset = bulkGroups chunk.length offset :=
    bulkReach_eq_bulkGroups h.length_lt
  rw [bulkRaw, hCheck, InBuffer.run_bind_ok (InBuffer.run_lift _ bytes), Condition.bulkMasks]
  by_cases hNone : bulkGroups chunk.length offset = 0
  · rw [if_pos hNone, hReach, hNone]
    rfl
  · rw [if_neg hNone]
    refine InBuffer.run_forM_masks fun group hGroup held hSize => ?_
    rw [List.mem_range, hReach] at hGroup
    have hEnd : offset + 8 * group + 8 ≤ chunk.length := by
      unfold bulkGroups at hGroup
      omega
    rw [packGroup_eq_ok h hFixed hEnd, InBuffer.run_bind_ok (InBuffer.run_lift _ held),
      Nat.zero_add]
    refine InBuffer.run_maskByte (m := ⟨bulkSkip offset + group, _⟩) ?_
    have hBytes := hRoom hNone
    simp only
    omega

/-- The bulk pass either does nothing, or applies all of its masks. -/
theorem run_bulkIn (h : chunk.WellFormed) (bytes : Array UInt8) (offset : Nat) :
    (k.bulkIn chunk offset).run.run bytes =
      InBuffer.settle bytes (k.runBulk chunk bytes offset) := by
  refine InBuffer.run_lift_bind_eq_settle fun _ hCheck => ?_
  by_cases hNone : bulkGroups chunk.length offset = 0
  · have hMasks : k.condition.bulkMasks chunk 0 offset = [] := by
      rw [Condition.bulkMasks, bulkReach_eq_bulkGroups h.length_lt, hNone]
      rfl
    simp only [hNone, hMasks, if_true, ne_eq, not_true_eq_false, false_and, if_false]
    rfl
  · -- The buffer is measured before the first byte is stored.
    by_cases hRoom : bytes.size < bulkSkip offset + bulkGroups chunk.length offset
    · simp only [hNone, hRoom, if_false, ne_eq, not_false_eq_true, and_true, if_true]
      rw [InBuffer.run_bind_ok (InBuffer.run_get bytes), if_pos hRoom]
      rfl
    · simp only [hNone, hRoom, if_false, ne_eq, not_false_eq_true, and_false]
      rw [InBuffer.run_bind_ok (InBuffer.run_get bytes), if_neg hRoom]
      exact run_bulkRaw h hCheck fun _ => Nat.le_of_not_lt hRoom

/-- The boundary pass either does nothing, or clears all the bits that it does not keep. -/
theorem run_boundaryIn (h : chunk.WellFormed) (byte : UInt8) (element bit : Nat) :
    (k.boundaryIn chunk element bit).run.run byte =
      InBuffer.settle byte (do return byte &&& (← k.boundary chunk element bit)) := by
  rw [boundary, bind_assoc]
  refine InBuffer.run_lift_bind_eq_settle fun _ hCheck => ?_
  have hFixed := ((checkChunk_eq_ok_iff k chunk).mp hCheck).1
  generalize hCount : boundaryCount chunk.length element bit = count
  by_cases hFit : 8 < count + bit
  · simp only [hFit, if_true]
    rfl
  · simp only [hFit, if_false]
    by_cases hNone : count = 0
    · subst hNone
      have hAll : byte &&& 0xff = byte := Byte.ext fun j _ => by simp
      rw [if_pos rfl, Condition.boundaryKeep_zero]
      show _ = (Except.ok (), byte &&& 0xff)
      rw [hAll]
      rfl
    · have hEnd : element + count ≤ chunk.length := by
        unfold boundaryCount at hCount
        split at hCount <;> omega
      rw [if_neg hNone, keptBits_eq_ok h hFixed hEnd (by omega),
        InBuffer.run_bind_ok (InBuffer.run_lift _ byte)]
      rfl

end Program

namespace Kernel

variable {k : Kernel} {chunk : Chunk}

/-- A call on a buffer is the call that gives the new contents; when that is refused, nothing
has been written. -/
theorem run_executeIn (h : chunk.WellFormed) (k : Kernel) (bytes : Array UInt8) (offset : Nat) :
    (k.executeIn chunk offset).run.run bytes =
      InBuffer.settle bytes (k.execute chunk bytes offset) :=
  InBuffer.run_lift_bind_eq_settle fun _ _ => Program.run_bulkIn h bytes offset

theorem run_executeRemainingIn (h : chunk.WellFormed) (k : Kernel) (byte : UInt8)
    (element bit : Nat) :
    (k.executeRemainingIn chunk element bit).run.run byte =
      InBuffer.settle byte (k.executeRemaining chunk byte element bit) :=
  InBuffer.run_lift_bind_eq_settle fun _ _ => Program.run_boundaryIn h byte element bit

end Kernel

end Columnar
