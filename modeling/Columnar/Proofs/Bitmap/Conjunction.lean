import Columnar.Checked
import Columnar.Proofs.Bitmap.Reduction
import Columnar.Proofs.Result

/-!
# The conjunction of many bitmaps, byte by byte

A conjunction of bitmaps of one length is known by its bytes, padding included: a bit is set
where every bitmap has it.  There is one bitmap of which this holds, so all ways to get at it
agree.  The bitmaps may be applied region by region or one after the other, and in any order.

* `Conjoins.unique` -- there is one conjunction.
* `andReduceChecked_eq_ok` -- the regions that are applied lie in the bytes of every bitmap.
* `andReduceChecked_folds` -- the conjunction that is taken region by region is the fold.
-/

namespace Columnar

/-- The same bitmaps are left, the last one first. -/
theorem perm_refill {α : Type} (others : List α) : (refill others).Perm others := by
  cases others with
  | nil => exact .nil
  | cons first rest =>
      have hSome : first :: rest ≠ [] := List.cons_ne_nil first rest
      rw [refill, List.getLast?_eq_some_getLast hSome, Option.toList_some]
      exact List.perm_append_comm.trans (.of_eq (List.dropLast_concat_getLast hSome))

/-- A region of a buffer lies in every source that is no shorter than the buffer. -/
theorem checkRegion_eq_ok {source : Array UInt8} {size region : Nat} (hSize : size ≤ source.size)
    (hRegion : region < (size + regionSize - 1) / regionSize) :
    checkRegion source size region = .ok () := by
  -- The region starts inside of the buffer, and its end is cut to the buffer.
  have hStart := (Nat.le_div_iff_mul_le (by decide)).mp hRegion
  rw [Nat.succ_mul] at hStart
  refine if_pos ?_
  omega

/-- A bit is left in a conjunction of bytes exactly when every byte has it. -/
theorem Byte.bit_foldl_and_iff (bytes : List UInt8) (start : UInt8) (i : Nat) :
    bit (bytes.foldl (· &&& ·) start) i = true ↔
      bit start i = true ∧ ∀ byte ∈ bytes, bit byte i = true := by
  induction bytes generalizing start with
  | nil => simp
  | cons byte rest ih =>
      rw [List.foldl_cons, ih, bit_and, Bool.and_eq_true, List.forall_mem_cons, and_assoc]

namespace Bitmap

variable {bitmaps others : List Bitmap} {n j : Nat} {b b' first : Bitmap}

theorem lt_size_of_lt_bytesFor (hLength : b.length = n) (hj : j < bytesFor n) :
    j < b.bytes.size := by
  rwa [b.size_eq, hLength]

/-- A byte of the rows is there, whatever stands for a missing one. -/
theorem getD_of_lt_bytesFor (hLength : b.length = n) (hj : j < bytesFor n) (missing : UInt8) :
    b.bytes[j]? = some (b.bytes[j]?.getD missing) := by
  rw [Array.getElem?_eq_getElem (lt_size_of_lt_bytesFor hLength hj), Option.getD_some]

/-- A bitmap of `n` bits whose bytes have the bits that the bytes of all the bitmaps have. -/
structure Conjoins (bitmaps : List Bitmap) (n : Nat) (b : Bitmap) : Prop where
  length_eq : b.length = n
  bit_iff : ∀ j < bytesFor n, ∀ i, Byte.bit (b.bytes[j]?.getD 0) i = true ↔
    ∀ source ∈ bitmaps, Byte.bit (source.bytes[j]?.getD 0) i = true

namespace Conjoins

/-- There is one conjunction. -/
theorem unique (h : Conjoins bitmaps n b) (h' : Conjoins bitmaps n b') : b = b' := by
  refine eq_of_bits (h.length_eq.trans h'.length_eq.symm) fun j hj i _ => ?_
  rw [b.size_eq, h.length_eq] at hj
  exact Bool.eq_iff_iff.mpr ((h.bit_iff j hj i).trans (h'.bit_iff j hj i).symm)

/-- The order of the bitmaps does not matter. -/
theorem of_perm (h : Conjoins bitmaps n b) (hPerm : others.Perm bitmaps) :
    Conjoins others n b where
  length_eq := h.length_eq
  bit_iff j hj i := (h.bit_iff j hj i).trans
    ⟨fun hAll source hMem => hAll source (hPerm.subset hMem),
      fun hAll source hMem => hAll source (hPerm.symm.subset hMem)⟩

/-- Each byte is the conjunction of the bytes at its place. -/
theorem byte_eq (h : Conjoins bitmaps n b) (hLengths : ∀ source ∈ bitmaps, source.length = n)
    (hj : j < bytesFor n) :
    ∃ bytes : List UInt8, bitmaps.map (·.bytes[j]?) = bytes.map some ∧
      b.bytes[j]? = some (bytes.foldl (· &&& ·) 0xff) := by
  refine ⟨bitmaps.map fun source => source.bytes[j]?.getD 0, ?_, ?_⟩
  · rw [List.map_map]
    exact List.map_congr_left fun source hMem =>
      getD_of_lt_bytesFor (hLengths source hMem) hj 0
  · rw [getD_of_lt_bytesFor h.length_eq hj 0]
    refine congrArg some (Byte.ext fun i _ => Bool.eq_iff_iff.mpr ?_)
    rw [h.bit_iff j hj, Byte.bit_foldl_and_iff, Byte.bit_ones, List.forall_mem_map]
    simp

end Conjoins

/-- Applying a bitmap of the same length adds it to the conjunction. -/
theorem Conjoins.and (h : Conjoins bitmaps n b) (hLength : first.length = n) :
    Conjoins (first :: bitmaps) n (b.and first) where
  length_eq := h.length_eq
  bit_iff j hj i := by
    have hSize := lt_size_of_lt_bytesFor h.length_eq hj
    have hSize' := lt_size_of_lt_bytesFor hLength hj
    have hByte : (b.and first).bytes[j]?.getD 0 =
        b.bytes[j]?.getD 0 &&& first.bytes[j]?.getD 0 := by
      simp [Bitmap.and, withBytes, hSize, hSize']
    rw [hByte, Byte.bit_and, Bool.and_eq_true, h.bit_iff j hj, List.forall_mem_cons, and_comm]

theorem Conjoins.foldl (h : Conjoins bitmaps n b) (hOthers : ∀ b ∈ others, b.length = n) :
    Conjoins (bitmaps ++ others) n (others.foldl Bitmap.and b) := by
  induction others generalizing bitmaps b with
  | nil => rwa [List.append_nil]
  | cons first rest ih =>
      obtain ⟨hFirst, hRest⟩ := List.forall_mem_cons.mp hOthers
      exact (ih (h.and hFirst) hRest).of_perm List.perm_middle

/-- A bitmap is the conjunction of itself. -/
theorem conjoins_singleton (hLength : b.length = n) : Conjoins [b] n b :=
  ⟨hLength, fun j _ i => by rw [List.forall_mem_singleton]⟩

/-- What is left when bitmaps are applied region by region, in any order, is their conjunction. -/
theorem conjoins_andRegions {sources : List Bitmap} (hFirst : first.length = n)
    (hSources : sources.Perm others) (hOthers : ∀ b ∈ others, b.length = n) :
    Conjoins (first :: others) n
      (first.withBytes (andRegions (sources.map Bitmap.bytes) first.bytes)
        (size_andRegions ..)) where
  length_eq := (length_withBytes ..).trans hFirst
  bit_iff j hj i := by
    have hThere : ∀ b ∈ others, b.bytes[j]?.getD 0xff = b.bytes[j]?.getD 0 := fun b hMem =>
      Option.some.inj ((getD_of_lt_bytesFor (hOthers b hMem) hj 0xff).symm.trans
        (getD_of_lt_bytesFor (hOthers b hMem) hj 0))
    rw [bytes_withBytes, bit_andRegions_iff _ (lt_size_of_lt_bytesFor hFirst hj),
      List.forall_mem_cons, List.forall_mem_map]
    refine and_congr_right fun _ => ⟨fun h b hMem => ?_, fun h b hMem => ?_⟩
    · rw [← hThere b hMem]
      exact h b (hSources.symm.subset hMem)
    · rw [hThere b (hSources.subset hMem)]
      exact h b (hSources.subset hMem)

theorem andReduce?_eq_none_iff : andReduce? bitmaps = none ↔ bitmaps = [] := by
  cases bitmaps <;> simp [andReduce?]

theorem andReduceChecked_eq_ok_none_iff : andReduceChecked bitmaps = .ok none ↔ bitmaps = [] := by
  cases bitmaps with
  | nil => simp [andReduceChecked]
  | cons first others =>
      refine ⟨fun h => ?_, fun h => absurd h (List.cons_ne_nil first others)⟩
      rw [andReduceChecked, Result.bind_eq_ok_iff] at h
      obtain ⟨-, -, hSome⟩ := h
      cases hSome

/-- The sources of a conjunction of bitmaps of one length have the bytes of the first one. -/
theorem andReduceChecked_eq_ok (h : ∀ b ∈ bitmaps, b.length = n) :
    andReduceChecked bitmaps = .ok (andReduce? bitmaps) := by
  cases bitmaps with
  | nil => rfl
  | cons first others =>
      obtain ⟨hFirst, hOthers⟩ := List.forall_mem_cons.mp h
      have hRegions : ((List.range ((first.bytes.size + regionSize - 1) / regionSize)).forM
          fun region => ((refill others).map Bitmap.bytes).forM fun source =>
            checkRegion source first.bytes.size region) = .ok () := by
        refine Result.forM_eq_ok_iff.mpr fun region hRegion => Result.forM_eq_ok_iff.mpr ?_
        rw [List.forall_mem_map]
        intro b hMem
        refine checkRegion_eq_ok (Nat.le_of_eq ?_) (List.mem_range.mp hRegion)
        rw [first.size_eq, b.size_eq, hFirst, hOthers b ((perm_refill others).subset hMem)]
      rw [andReduceChecked, hRegions]
      refine congrArg (fun reduced => Except.ok (some reduced)) ?_
      exact (conjoins_andRegions hFirst (perm_refill others) hOthers).unique
        (conjoins_andRegions hFirst (.refl others) hOthers)

/-- The conjunction of bitmaps of `n` bits: taken region by region, with or without a look at
the bytes of the sources, or by a fold; bytes and length are those of all bitmaps at once. -/
structure ReducesTo (bitmaps : List Bitmap) (n : Nat) (reduced : Bitmap) : Prop where
  checked_eq : andReduceChecked bitmaps = .ok (some reduced)
  regions_eq : andReduce? bitmaps = some reduced
  foldl_eq : bitmaps.head?.map (bitmaps.tail.foldl Bitmap.and) = some reduced
  length_eq : reduced.length = n
  byte_eq : ∀ j < bytesFor n, ∃ bytes : List UInt8,
    bitmaps.map (·.bytes[j]?) = bytes.map some ∧
      reduced.bytes[j]? = some (bytes.foldl (· &&& ·) 0xff)

theorem Conjoins.reducesTo {reduced : Bitmap} (h : Conjoins bitmaps n reduced)
    (hSome : bitmaps ≠ []) (hLengths : ∀ b ∈ bitmaps, b.length = n) :
    ReducesTo bitmaps n reduced := by
  obtain ⟨first, others, rfl⟩ := List.exists_cons_of_ne_nil hSome
  obtain ⟨hFirst, hOthers⟩ := List.forall_mem_cons.mp hLengths
  have hRegions : andReduce? (first :: others) = some reduced :=
    congrArg some ((conjoins_andRegions hFirst (.refl others) hOthers).unique h)
  exact {
    checked_eq := (andReduceChecked_eq_ok hLengths).trans (congrArg Except.ok hRegions)
    regions_eq := hRegions
    foldl_eq := congrArg some (((conjoins_singleton hFirst).foldl hOthers).unique h)
    length_eq := h.length_eq
    byte_eq := fun _ => h.byte_eq hLengths }

/-- The conjunction of bitmaps of one length is the fold over them, whatever their order and
however many regions their bytes make.  Only the empty list has none. -/
theorem andReduceChecked_folds (bitmaps : List Bitmap) :
    (andReduceChecked bitmaps = .ok none ↔ bitmaps = []) ∧
      (andReduce? bitmaps = none ↔ bitmaps = []) ∧
      ∀ n, bitmaps ≠ [] → (∀ b ∈ bitmaps, b.length = n) →
        ∃ reduced, ∀ others : List Bitmap, others.Perm bitmaps → ReducesTo others n reduced := by
  refine ⟨andReduceChecked_eq_ok_none_iff, andReduce?_eq_none_iff, fun n hSome hLengths => ?_⟩
  obtain ⟨first, others, rfl⟩ := List.exists_cons_of_ne_nil hSome
  obtain ⟨hFirst, hOthers⟩ := List.forall_mem_cons.mp hLengths
  have hConjoins := (conjoins_singleton hFirst).foldl hOthers
  refine ⟨_, fun turned hPerm => (hConjoins.of_perm hPerm).reducesTo ?_ fun b hMem =>
    hLengths b (hPerm.subset hMem)⟩
  rintro rfl
  exact hSome hPerm.symm.eq_nil

/-- Three bitmaps of two regions, a full one and one of five bytes, in two orders. -/
theorem andReduceChecked_folds_twoRegions :
    [allSet 524324, allClear 524324, allSet 524324] ≠ [] ∧
      (∀ b ∈ [allSet 524324, allClear 524324, allSet 524324], b.length = 524324) ∧
      bytesFor 524324 = regionSize + 5 ∧
      ∃ reduced, ReducesTo [allSet 524324, allClear 524324, allSet 524324] 524324 reduced ∧
        ReducesTo [allClear 524324, allSet 524324, allSet 524324] 524324 reduced :=
  have hSome : [allSet 524324, allClear 524324, allSet 524324] ≠ [] := List.cons_ne_nil _ _
  have hLengths : ∀ n, ∀ b ∈ [allSet n, allClear n, allSet n], b.length = n := fun n => by
    simp [allSet, allClear]
  have ⟨reduced, hReduced⟩ :=
    (andReduceChecked_folds _).2.2 524324 hSome (hLengths 524324)
  ⟨hSome, hLengths 524324, rfl, reduced, hReduced _ (.refl _), hReduced _ (.swap ..)⟩

end Bitmap

end Columnar
