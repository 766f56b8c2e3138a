import Columnar.Proofs.Bitmap.Count

/-!
# A bitmap as a list of booleans

`Bitmap.toList` reads the bits of the rows and leaves the padding out.  It is the view through
which every operation on packed bytes is an operation on lists.

* `toList_set`, `toList_and` and the like -- each operation through the view.
* `toList_eq_iff` -- bitmaps with the same view differ in their padding at most.
* `count_eq_of_toList_eq`, `setIndices_eq_of_toList_eq` -- what depends on the view alone.
-/

namespace Columnar.Bitmap

variable {b b' other : Bitmap}

@[simp]
theorem getElem_toList (b : Bitmap) {i : Nat} (h : i < b.toList.length) :
    b.toList[i] = b.get i := by
  simp [toList]

theorem toList_eq_of_get {bits : List Bool} (hLength : b.length = bits.length)
    (hBits : ∀ i (h : i < bits.length), b.get i = bits[i]) : b.toList = bits := by
  refine List.ext_getElem (by rw [length_toList, hLength]) fun i hLeft hRight => ?_
  rw [getElem_toList, hBits i hRight]

theorem toList_eq_iff :
    b.toList = b'.toList ↔ b.length = b'.length ∧ ∀ i < b.length, b.get i = b'.get i := by
  constructor
  · intro h
    refine ⟨by rw [← b.length_toList, h, length_toList], fun i hi => ?_⟩
    have hLeft : i < b.toList.length := by rwa [length_toList]
    rw [← getElem_toList b hLeft, ← getElem_toList b' (h ▸ hLeft)]
    simp only [h]
  · rintro ⟨hLength, hBits⟩
    refine toList_eq_of_get (by rw [length_toList, hLength]) fun i hi => ?_
    rw [getElem_toList]
    exact hBits i (by rwa [length_toList, ← hLength] at hi)

theorem toList_allSet (length : Nat) : (allSet length).toList = List.replicate length true := by
  refine toList_eq_of_get List.length_replicate.symm fun i hi => ?_
  rw [List.getElem_replicate]
  exact get_allSet (by simpa using hi)

theorem toList_allClear (length : Nat) :
    (allClear length).toList = List.replicate length false := by
  refine toList_eq_of_get List.length_replicate.symm fun i hi => ?_
  rw [List.getElem_replicate, get_allClear]

theorem toList_ofBools (bits : List Bool) : (ofBools bits).toList = bits :=
  toList_eq_of_get rfl fun _ hi => get_ofBools hi

theorem get_ofBytes (bytes : Array UInt8) {length i : Nat} (h : i < length) :
    (ofBytes bytes length).get i = Byte.bit (bytes[i / 8]?.getD 0xff) i := by
  simp [get, ofBytes, div_lt_bytesFor h]

theorem toList_ofBytes (bytes : Array UInt8) (length : Nat) :
    (ofBytes bytes length).toList =
      (List.range length).map fun i => Byte.bit (bytes[i / 8]?.getD 0xff) i :=
  List.map_congr_left fun _ hi => get_ofBytes bytes (List.mem_range.mp hi)

theorem toList_set {i : Nat} (h : i < b.length) (value : Bool) :
    (b.set i value).toList = b.toList.set i value := by
  refine toList_eq_of_get (by simp) fun j hj => ?_
  rw [get_set j value h, List.getElem_set, getElem_toList]
  simp only [eq_comm]

@[simp]
theorem length_setByte (b : Bitmap) (index : Nat) (byte : UInt8) :
    (b.setByte index byte).length = b.length := rfl

/-- A byte that is replaced gives its bits to the eight rows that it holds. -/
theorem get_setByte {index : Nat} (h : index < b.bytes.size) (byte : UInt8) (i : Nat) :
    (b.setByte index byte).get i = if i / 8 = index then Byte.bit byte i else b.get i := by
  by_cases hHere : i / 8 = index
  · subst hHere
    simp [get, setByte, withBytes, h]
  · have hOther : index ≠ i / 8 := fun hSame => hHere hSame.symm
    simp [get, setByte, withBytes, hHere, hOther]

theorem toList_setByte {index : Nat} (h : index < b.bytes.size) (byte : UInt8) :
    (b.setByte index byte).toList =
      b.toList.mapIdx fun i bit => if i / 8 = index then Byte.bit byte i else bit := by
  refine toList_eq_of_get (by simp) fun i hi => ?_
  rw [get_setByte h, List.getElem_mapIdx, getElem_toList]

theorem toList_and (h : b.length = other.length) :
    (b.and other).toList = List.zipWith (· && ·) b.toList other.toList := by
  refine toList_eq_of_get (by simp [h]) fun i hi => ?_
  have hi : i < b.length := by simpa [h] using hi
  rw [get_and hi (h ▸ hi), List.getElem_zipWith, getElem_toList, getElem_toList]

theorem toList_or (h : b.length = other.length) :
    (b.or other).toList = List.zipWith (· || ·) b.toList other.toList := by
  refine toList_eq_of_get (by simp [h]) fun i hi => ?_
  have hi : i < b.length := by simpa [h] using hi
  rw [get_or hi (h ▸ hi), List.getElem_zipWith, getElem_toList, getElem_toList]

theorem length_setIndices (b : Bitmap) : b.setIndices.length = b.count := by
  rw [count_eq_countP, setIndices, List.countP_eq_length_filter]

theorem mem_setIndices (b : Bitmap) (i : Nat) :
    i ∈ b.setIndices ↔ i < b.length ∧ b.get i = true := by
  rw [setIndices, List.mem_filter, List.mem_range]

theorem pairwise_setIndices (b : Bitmap) : b.setIndices.Pairwise (· < ·) :=
  List.pairwise_lt_range.filter _

/-- The set rows are those of the view. -/
theorem setIndices_eq_of_toList_eq (h : b.toList = b'.toList) : b.setIndices = b'.setIndices := by
  obtain ⟨hLength, hBits⟩ := toList_eq_iff.mp h
  rw [setIndices, setIndices, ← hLength]
  exact List.filter_congr fun i hi => hBits i (List.mem_range.mp hi)

theorem count_eq_countP_toList (b : Bitmap) : b.count = b.toList.countP id := by
  rw [count_eq_countP, toList, List.countP_map, Function.id_comp]

theorem count_eq_of_toList_eq (h : b.toList = b'.toList) : b.count = b'.count := by
  rw [← length_setIndices, ← length_setIndices, setIndices_eq_of_toList_eq h]

end Columnar.Bitmap
