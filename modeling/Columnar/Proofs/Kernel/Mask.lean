import Columnar.Kernel.Pass
import Mathlib.Data.List.Perm.Basic

/-!
# Masks on a bitmap

A mask clears bits of one byte.  What masks leave of a bitmap is said in two ways: by the
rows that they keep, and by the fact that their order does not matter.

* `bit_applyAll_iff` -- a bit is left when it was set and every mask keeps it.
* `applyAll_perm` -- masks may be applied in any order.
-/

namespace Columnar

namespace ByteMask

/-- No mask clears the bit of row `i`. -/
def Keeps (masks : List ByteMask) (i : Nat) : Prop :=
  ∀ m ∈ masks, m.index = i / 8 → Byte.bit m.keep i = true

theorem keeps_append_iff (masks others : List ByteMask) (i : Nat) :
    Keeps (masks ++ others) i ↔ Keeps masks i ∧ Keeps others i := by
  simp only [Keeps, List.mem_append, or_imp, forall_and]

theorem keeps_flatten_iff (groups : List (List ByteMask)) (i : Nat) :
    Keeps groups.flatten i ↔ ∀ masks ∈ groups, Keeps masks i := by
  simp only [Keeps, List.mem_flatten]
  constructor
  · exact fun h masks hMasks m hm => h m ⟨masks, hMasks, hm⟩
  · rintro h m ⟨masks, hMasks, hm⟩
    exact h masks hMasks m hm

theorem getElem?_apply (bytes : Array UInt8) (m : ByteMask) (i : Nat) :
    (apply bytes m)[i]? = if m.index = i then bytes[i]?.map (· &&& m.keep) else bytes[i]? :=
  Array.getElem?_modify

theorem bit_apply_iff (bytes : Array UInt8) (m : ByteMask) (i : Nat) :
    Byte.bit ((apply bytes m)[i / 8]?.getD 0) i = true ↔
      Byte.bit (bytes[i / 8]?.getD 0) i = true ∧
        (m.index = i / 8 → Byte.bit m.keep i = true) := by
  by_cases hIndex : m.index = i / 8
  · cases hByte : bytes[i / 8]? with
    | none => simp [getElem?_apply, hIndex, hByte]
    | some byte => simp [getElem?_apply, hIndex, hByte]
  · simp [getElem?_apply, hIndex]

/-- Masks clear bits and never set one. -/
theorem bit_applyAll_iff (bytes : Array UInt8) (masks : List ByteMask) (i : Nat) :
    Byte.bit ((applyAll bytes masks)[i / 8]?.getD 0) i = true ↔
      Byte.bit (bytes[i / 8]?.getD 0) i = true ∧ Keeps masks i := by
  induction masks generalizing bytes with
  | nil => simp [applyAll, Keeps]
  | cons m rest ih =>
      have hRest := ih (apply bytes m)
      rw [bit_apply_iff] at hRest
      have hSplit : Keeps (m :: rest) i ↔
          (m.index = i / 8 → Byte.bit m.keep i = true) ∧ Keeps rest i := by
        simp [Keeps]
      rw [hSplit, ← and_assoc, ← hRest]
      rfl

/-- Masks clear bits, so the order of two masks does not matter. -/
theorem apply_right_comm (bytes : Array UInt8) (m other : ByteMask) :
    apply (apply bytes m) other = apply (apply bytes other) m := by
  refine Array.ext_getElem? fun i => ?_
  simp only [getElem?_apply]
  by_cases hFirst : m.index = i <;> by_cases hSecond : other.index = i <;>
    simp [hFirst, hSecond]
  cases bytes[i]? with
  | none => rfl
  | some byte =>
      simp only [Option.map_some, Option.some.injEq, Function.comp]
      rw [UInt8.and_assoc, UInt8.and_comm m.keep, UInt8.and_assoc]

instance : RightCommutative apply :=
  ⟨apply_right_comm⟩

/-- The order of masks does not matter. -/
theorem applyAll_perm {masks others : List ByteMask} (h : masks.Perm others)
    (bytes : Array UInt8) : applyAll bytes masks = applyAll bytes others :=
  h.foldl_eq bytes

theorem applyAll_append (bytes : Array UInt8) (masks others : List ByteMask) :
    applyAll bytes (masks ++ others) = applyAll (applyAll bytes masks) others :=
  List.foldl_append

/-- Storing what a mask keeps of the byte that is there applies the mask. -/
theorem setIfInBounds_eq_apply {bytes : Array UInt8} {m : ByteMask} {byte : UInt8}
    (h : bytes[m.index]? = some byte) :
    bytes.setIfInBounds m.index (byte &&& m.keep) = apply bytes m := by
  obtain ⟨hi, hByte⟩ := Array.getElem?_eq_some_iff.mp h
  refine Array.ext_getElem? fun i => ?_
  rw [getElem?_apply, Array.getElem?_setIfInBounds]
  by_cases hIndex : m.index = i
  · subst hIndex
    simp [hi, hByte]
  · simp [hIndex]

end ByteMask

namespace Bitmap

theorem size_applyAll_bytes (b : Bitmap) (masks : List ByteMask) :
    (ByteMask.applyAll b.bytes masks).size = b.bytes.size :=
  ByteMask.size_applyAll b.bytes masks

/-- A bitmap behind some masks. -/
def masked (b : Bitmap) (masks : List ByteMask) : Bitmap :=
  b.withBytes (ByteMask.applyAll b.bytes masks) (b.size_applyAll_bytes masks)

@[simp]
theorem length_masked (b : Bitmap) (masks : List ByteMask) :
    (b.masked masks).length = b.length := rfl

theorem get_masked_iff (b : Bitmap) (masks : List ByteMask) (i : Nat) :
    (b.masked masks).get i = true ↔ b.get i = true ∧ ByteMask.Keeps masks i :=
  ByteMask.bit_applyAll_iff b.bytes masks i

theorem masked_append (b : Bitmap) (masks others : List ByteMask) :
    b.masked (masks ++ others) = (b.masked masks).masked others := by
  simp only [masked, withBytes, ByteMask.applyAll_append]

theorem masked_perm (b : Bitmap) {masks others : List ByteMask} (h : masks.Perm others) :
    b.masked masks = b.masked others := by
  simp only [masked, withBytes, ByteMask.applyAll_perm h]

end Bitmap

end Columnar
