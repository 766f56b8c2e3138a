import Columnar.Chunk.Reading
import Columnar.Proofs.Bitmap.View
import Columnar.Proofs.Column.Validity
import Columnar.Proofs.Compaction.Chunk
import Columnar.Proofs.Compaction.Column

/-!
# Readers agree

An element of fixed width can be read at its position, on the way through all value bytes, or
decoded.  On a well formed chunk no reader misses a place, and all of them find the same word.

* `stretches_eq` -- going through bytes finds them at the multiples of the width.
* `Chunk.iterate_eq_filterMap_words` -- the elements on the way are those at the positions.
* `Chunk.valueAt_eq_ok` -- so is the element at one position.
* `Chunk.readScalar_eq_scalarAt` -- the decoded element is that of the word.
-/

namespace Columnar

/-- The stretches of bytes lie at the multiples of the width. -/
theorem stretches_eq {width : Nat} (hPos : 0 < width) (bytes : List UInt8) :
    stretches width bytes = (List.range (bytes.length / width)).map fun i =>
      (bytes.drop (i * width)).take width := by
  induction bytes using stretches.induct width with
  | case1 bytes hSome ih =>
      have hCount : bytes.length / width = (bytes.drop width).length / width + 1 := by
        rw [List.length_drop, Nat.div_eq_sub_div hPos hSome.2]
      rw [stretches, if_pos hSome, ih, hCount, List.range_succ_eq_map, List.map_cons,
        List.map_map]
      refine congrArg₂ _ (by simp) (List.map_congr_left fun i _ => ?_)
      rw [List.drop_drop, Function.comp_apply, Nat.succ_mul, Nat.add_comm]
  | case2 bytes hNone =>
      have hShort : bytes.length / width = 0 := Nat.div_eq_of_lt (by omega)
      rw [stretches, if_neg hNone, hShort]
      rfl

namespace Native

variable {t : DataType}

/-- Every word is the word of an element of fixed width. -/
theorem isSome_ofWord? (hFixed : t.isFixedWidth = true) (w : Nat) :
    (ofWord? t w).isSome = true := by
  cases t with
  | utf8 | list | struct => exact absurd hFixed (by decide)
  | _ => rfl

/-- The element whose bits are all zero. -/
def zero (hFixed : t.isFixedWidth = true) : Native t :=
  (ofWord? t 0).get (isSome_ofWord? hFixed 0)

theorem ofWord?_zero (hFixed : t.isFixedWidth = true) : ofWord? t 0 = some (zero hFixed) :=
  (Option.some_get _).symm

/-- The bytes of its type are enough for the word of an element. -/
theorem toWord_lt (v : Native t) : toWord t v < 256 ^ t.width := by
  cases t with
  | utf8 | list | struct => exact v.elim
  | bool => cases v <;> decide
  | int8 | int16 | int32 | int64 | uint8 | uint16 | uint32 | uint64 | decimal128 =>
      exact BitVec.isLt v
  | half | float | double => exact v.bits.isLt

/-- An element is the element of its word. -/
theorem ofWord?_toWord (v : Native t) : ofWord? t (toWord t v) = some v := by
  cases t with
  | utf8 | list | struct => exact v.elim
  | bool => cases v <;> rfl
  | int8 | int16 | int32 | int64 | uint8 | uint16 | uint32 | uint64 | decimal128 =>
      exact congrArg some ((BitVec.ofNat_toNat _ v).trans (BitVec.setWidth_eq v))
  | half | float | double => exact congrArg some (Binary.ofNat_toNat v)

end Native

namespace Chunk

variable {c : Chunk} {t : DataType}

/-- On the way through the bytes are the elements that lie at the positions. -/
theorem iterate_eq_filterMap_words (hType : c.type = t) (hFixed : t.isFixedWidth = true)
    (hBytes : c.bytes.size < 2 ^ 64) : c.iterate t = c.words.filterMap (Native.ofWord? t) := by
  subst hType
  have hPos := (DataType.width_pos_iff c.type).mpr hFixed
  rw [iterate, words, slotCount, stretches_eq hPos, Array.length_toList,
    List.filterMap_map, List.filterMap_map]
  refine List.filterMap_congr fun i hi => ?_
  have hNext : (i + 1) * c.type.width ≤ c.bytes.size :=
    (Nat.le_div_iff_mul_le hPos).mp (List.mem_range.mp hi)
  rw [Nat.succ_mul] at hNext
  rw [Function.comp_apply, Function.comp_apply, word, slot, wordMul_eq_mul (by omega),
    Array.toList_extract, List.extract_eq_take_drop, Nat.add_sub_cancel_left]

/-- The element at a position of a well formed chunk is there, and it is that of the word. -/
theorem valueAt_eq_ok (hType : c.type = t) (hFixed : t.isFixedWidth = true) (h : c.WellFormed)
    {i : Nat} (hi : i < c.length) {v : Native t} (hWord : Native.ofWord? t (c.word i) = some v) :
    c.valueAt t i = .ok v := by
  subst hType
  obtain ⟨hPlace, hEnd⟩ := wordMul_add_width_le h hFixed hi
  rw [word, slot, hPlace] at hWord
  simp only [valueAt, hPlace, if_pos hEnd, hWord]

/-- A well formed chunk of fixed width decodes without a missing place. -/
theorem readScalar_eq_scalarAt (h : c.WellFormed) (hFixed : c.type.isFixedWidth = true) {i : Nat}
    (hi : i < c.length) : c.readScalar i = c.scalarAt i := by
  obtain ⟨s, hs⟩ := DataType.exists_scalar? hFixed (c.word i)
  have hCell := scalarAt_eq_scalar? hFixed i
  rw [readScalar, readValid_eq_ok h hi, Result.ok_bind, hCell, Cell.scalar?, cell,
    elementBytes_eq_slot hFixed, ← word, hs]
  cases c.isValid i with
  | false => rfl
  | true =>
      rw [if_pos rfl, if_neg (ne_utf8_of_isFixedWidth hFixed),
        checkElement_eq_ok h hFixed hi]
      rfl

end Chunk

/-- Elements from which a chunk is made: without nulls, or each of them optional. -/
inductive Batch (t : DataType) where
  | dense (values : List (Native t))
  | sparse (values : List (Option (Native t)))

namespace Batch

variable {t : DataType}

/-- The elements, the absent ones among them. -/
def options : Batch t → List (Option (Native t))
  | dense values => values.map some
  | sparse values => values

/-- The chunk of the elements. -/
def chunk : Batch t → Chunk
  | dense values => .ofValues t values
  | sparse values => .ofOptions t values

@[simp]
theorem type_chunk (b : Batch t) : b.chunk.type = t := by
  cases b <;> rfl

@[simp]
theorem length_chunk (b : Batch t) : b.chunk.length = b.options.length := by
  cases b <;> simp [chunk, options, Chunk.ofValues, Chunk.ofOptions]

theorem bytes_chunk (b : Batch t) :
    b.chunk.bytes = Chunk.encode t.width (b.options.map (Chunk.optionWord t)) := by
  cases b with
  | dense values => simp [chunk, options, Chunk.ofValues, Chunk.optionWord, Function.comp_def]
  | sparse values => rfl

theorem wellFormed_chunk (hFixed : t.isFixedWidth = true) {b : Batch t}
    (hBytes : b.options.length * t.width < 2 ^ 63) : b.chunk.WellFormed := by
  cases b with
  | dense values =>
      exact Chunk.wellFormed_ofValues hFixed (by rwa [options, List.length_map] at hBytes)
  | sparse values => exact Chunk.wellFormed_ofOptions hFixed hBytes

end Batch

namespace Chunk

variable {t : DataType}

/-- The rows of absent elements. -/
def absentRows {α : Type} (values : List (Option α)) : List Nat :=
  (values.zipIdx.filter fun e => e.1.isNone).map Prod.snd

theorem mem_absentRows {α : Type} {values : List (Option α)} {i : Nat} :
    i ∈ absentRows values ↔ values[i]? = some none := by
  simp [absentRows, List.mem_zipIdx_iff_getElem?]

theorem foldl_absent_eq {α : Type} (values : List (Option α)) (v : Bitmap) :
    values.zipIdx.foldl (fun v (value, i) => if value.isSome then v else v.set i false) v =
      (absentRows values).foldl (fun mask row => mask.set row false) v := by
  rw [absentRows, List.foldl_map, List.foldl_filter]
  refine List.foldl_ext _ _ _ fun v e _ => ?_
  obtain ⟨value, i⟩ := e
  cases value <;> rfl

/-- The validity bitmap of optional elements has the bits of those that are present. -/
theorem get_foldl_absent {α : Type} {values : List (Option α)} {i : Nat} (hi : i < values.length) :
    (values.zipIdx.foldl (fun v (value, i) => if value.isSome then v else v.set i false)
      (Bitmap.allSet values.length)).get i = values[i].isSome := by
  have hRows : ∀ row ∈ absentRows values, row < (Bitmap.allSet values.length).length := by
    intro row hRow
    exact (List.getElem?_eq_some_iff.mp (mem_absentRows.mp hRow)).1
  have hClear := get_foldl_clear_iff hRows i
  rw [← foldl_absent_eq, mem_absentRows, Bitmap.get_allSet hi,
    List.getElem?_eq_getElem hi] at hClear
  cases hValue : values[i] <;> simp_all

/-- The validity bitmap of optional elements lists which of them are present. -/
theorem toList_validity_ofOptions {values : List (Option (Native t))} {v : Bitmap}
    (hv : (ofOptions t values).validity = some v) : v.toList = values.map Option.isSome := by
  obtain rfl := Option.some.inj hv
  refine Bitmap.toList_eq_of_get (by simp [length_foldl_absent, Bitmap.allSet]) fun i hi => ?_
  rw [List.getElem_map]
  exact get_foldl_absent (by simpa using hi)

/-- The cell in which an optional element is stored. -/
def optionCell (t : DataType) (x : Option (Native t)) : Cell where
  bytes := wordBytes t.width (optionWord t x)
  valid := x.isSome

theorem optionWord_lt (x : Option (Native t)) : optionWord t x < 256 ^ t.width := by
  cases x with
  | none => exact Nat.pow_pos (by decide)
  | some v => exact Native.toWord_lt v

/-- The cell of an optional element holds its word. -/
theorem littleEndian_optionCell (x : Option (Native t)) :
    littleEndian (optionCell t x).bytes = optionWord t x := by
  rw [optionCell, littleEndian_wordBytes, Nat.mod_eq_of_lt (optionWord_lt x)]

/-- The word of an optional element is the word of the element, or zero. -/
theorem ofWord?_optionWord (hFixed : t.isFixedWidth = true) (x : Option (Native t)) :
    Native.ofWord? t (optionWord t x) = some (x.getD (Native.zero hFixed)) := by
  cases x with
  | none => exact Native.ofWord?_zero hFixed
  | some v => exact Native.ofWord?_toWord v

/-- The cell of an optional element decodes to the element. -/
theorem scalar?_optionCell (x : Option (Native t)) :
    (optionCell t x).scalar? t = x.map (Native.toScalar t) := by
  cases x with
  | none => rfl
  | some v =>
      rw [Cell.scalar?, littleEndian_optionCell, DataType.scalar?, optionWord,
        Native.ofWord?_toWord]
      rfl

end Chunk

namespace Batch

variable {t : DataType} {b : Batch t}

theorem isValid_chunk {i : Nat} (hi : i < b.options.length) :
    b.chunk.isValid i = b.options[i].isSome := by
  cases b with
  | dense values =>
      simp [chunk, options, Chunk.isValid, Chunk.ofValues]
  | sparse values => exact Chunk.get_foldl_absent hi

theorem slot_chunk (hBytes : b.options.length * t.width < 2 ^ 63) {i : Nat}
    (hi : i < b.options.length) :
    b.chunk.slot i = wordBytes t.width (Chunk.optionWord t b.options[i]) := by
  have hFits : ∀ cell ∈ b.options.map (Chunk.optionCell t), cell.Fits t := by
    intro cell hMem
    obtain ⟨x, -, rfl⟩ := List.mem_map.mp hMem
    exact length_wordBytes _ _
  have hSame : b.chunk.slot i =
      (Chunk.ofCells t false (b.options.map (Chunk.optionCell t))).slot i := by
    simp [Chunk.slot, bytes_chunk, Chunk.ofCells, Chunk.encode, Chunk.optionCell, List.flatMap_map]
  rw [hSame, Chunk.slot_ofCells hFits (by simpa using hBytes) (by simpa using hi),
    List.getElem_map, Chunk.optionCell]

theorem word_chunk (hBytes : b.options.length * t.width < 2 ^ 63) {i : Nat}
    (hi : i < b.options.length) : b.chunk.word i = Chunk.optionWord t b.options[i] := by
  rw [Chunk.word, slot_chunk hBytes hi, littleEndian_wordBytes,
    Nat.mod_eq_of_lt (Chunk.optionWord_lt _)]

theorem validities_chunk (b : Batch t) : b.chunk.validities = b.options.map Option.isSome := by
  refine List.ext_getElem (by simp) fun i hLeft hRight => ?_
  have hi : i < b.options.length := by simpa using hRight
  simp [Chunk.validities, isValid_chunk hi]

section Read

variable (hFixed : t.isFixedWidth = true) (hBytes : b.options.length * t.width < 2 ^ 63)
include hFixed hBytes

theorem cell_chunk {i : Nat} (hi : i < b.options.length) :
    b.chunk.cell i = Chunk.optionCell t b.options[i] := by
  rw [Chunk.cell, Chunk.elementBytes_eq_slot (by rwa [type_chunk]), slot_chunk hBytes hi,
    isValid_chunk hi, Chunk.optionCell]

/-- The elements of a chunk are those from which it was made, with zero for the absent ones. -/
theorem iterate_chunk : b.chunk.iterate t = b.options.map (·.getD (Native.zero hFixed)) := by
  have hChunk := wellFormed_chunk hFixed hBytes
  have hSlots : b.chunk.slotCount = b.options.length := by
    rw [Chunk.slotCount_eq_length hChunk (by rwa [type_chunk]), length_chunk]
  have hWords : b.chunk.words = b.options.map (Chunk.optionWord t) := by
    refine List.ext_getElem (by simpa using hSlots) fun i hLeft hRight => ?_
    have hi : i < b.options.length := by simpa using hRight
    simp [Chunk.words, word_chunk hBytes hi]
  have hElement : Native.ofWord? t ∘ Chunk.optionWord t =
      some ∘ fun x => x.getD (Native.zero hFixed) :=
    funext (Chunk.ofWord?_optionWord hFixed)
  rw [Chunk.iterate_eq_filterMap_words b.type_chunk hFixed
    (Nat.lt_trans hChunk.bytes_lt (by decide)), hWords, List.filterMap_map, hElement,
    List.filterMap_eq_map]

theorem valueAt_chunk {i : Nat} (hi : i < b.options.length) :
    b.chunk.valueAt t i = .ok (b.options[i].getD (Native.zero hFixed)) := by
  refine Chunk.valueAt_eq_ok b.type_chunk hFixed (wellFormed_chunk hFixed hBytes)
    (by rwa [length_chunk]) ?_
  rw [word_chunk hBytes hi, Chunk.ofWord?_optionWord hFixed]

/-- A decoded element is the element itself, widened to its family. -/
theorem readScalar_chunk {i : Nat} (hi : i < b.options.length) :
    b.chunk.readScalar i = .ok (b.options[i].map (Native.toScalar t)) := by
  have hType : b.chunk.type.isFixedWidth = true := by rwa [type_chunk]
  rw [Chunk.readScalar_eq_scalarAt (wellFormed_chunk hFixed hBytes) hType (by rwa [length_chunk]),
    Chunk.scalarAt_eq_scalar? hType, cell_chunk hFixed hBytes hi, type_chunk,
    Chunk.scalar?_optionCell]

end Read

theorem nullCount_chunk (b : Batch t) : b.chunk.nullCount = b.options.countP Option.isNone := by
  cases b with
  | dense values =>
      have hNone : values.countP (Option.isNone ∘ some) = 0 :=
        List.countP_eq_zero.mpr fun _ _ => Bool.false_ne_true
      rw [options, List.countP_map, hNone]
      rfl
  | sparse values =>
      have hBits := @Chunk.toList_validity_ofOptions t values _ rfl
      have hSplit := List.length_eq_countP_add_countP Option.isSome (l := values)
      have hAbsent : values.countP (fun x => decide ¬x.isSome = true) =
          values.countP Option.isNone :=
        List.countP_congr fun x _ => by cases x <;> simp
      rw [chunk, Chunk.nullCount, Chunk.ofOptions]
      simp only [Bitmap.count_eq_countP_toList, hBits, List.countP_map, Function.id_comp, options]
      omega

theorem chunk_eq (b : Batch t) :
    b.chunk = { type := t, length := b.chunk.length, bytes := b.chunk.bytes, offsets := #[],
                validity := b.chunk.validity } := by
  cases b <;> rfl

/-- Raw construction makes the same chunk again from its parts. -/
theorem ofRaw_chunk (hFixed : t.isFixedWidth = true)
    (hBytes : b.options.length * t.width < 2 ^ 63) :
    Chunk.ofRaw t b.chunk.length b.chunk.bytes b.chunk.validity = .ok b.chunk := by
  have hChunk := wellFormed_chunk hFixed hBytes
  have hSize : b.chunk.bytes.size = wordMul b.chunk.length t.width := by
    rw [bytes_chunk, Chunk.size_encode, List.length_map, length_chunk, wordMul_eq_mul (by omega)]
  rw [Chunk.ofRaw_ok hFixed hSize hChunk.validity_length, ← chunk_eq]

end Batch

/-- Every way of reading a chunk gives back the same elements: one at a position, all of them on
the way through the bytes, decoded, counted, and made into a chunk again. -/
structure Chunk.ReadsBack {t : DataType} (hFixed : t.isFixedWidth = true) (c : Chunk)
    (options : List (Option (Native t))) : Prop where
  length_eq : c.length = options.length
  valueAt_eq : ∀ i (h : i < options.length),
    c.valueAt t i = .ok (options[i].getD (Native.zero hFixed))
  iterate_eq : c.iterate t = options.map (·.getD (Native.zero hFixed))
  readScalar_eq : ∀ i (h : i < options.length),
    c.readScalar i = .ok (options[i].map (Native.toScalar t))
  nullCount_eq : c.nullCount = options.countP Option.isNone
  ofRaw_eq : ofRaw t c.length c.bytes c.validity = .ok c

/-- A chunk whose bytes fit into memory reads back as what it was made from. -/
theorem Batch.readsBack {t : DataType} {b : Batch t} (hFixed : t.isFixedWidth = true)
    (hBytes : b.options.length * t.width < 2 ^ 63) : b.chunk.ReadsBack hFixed b.options where
  length_eq := b.length_chunk
  valueAt_eq _ := valueAt_chunk hFixed hBytes
  iterate_eq := iterate_chunk hFixed hBytes
  readScalar_eq _ := readScalar_chunk hFixed hBytes
  nullCount_eq := b.nullCount_chunk
  ofRaw_eq := ofRaw_chunk hFixed hBytes

end Columnar
