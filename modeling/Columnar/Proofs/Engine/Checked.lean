import Columnar.Checked
import Columnar.Proofs.Compaction.Column
import Columnar.Proofs.Context.Project
import Columnar.Proofs.Kernel.Isolation

/-!
# No access misses its place

The checked operations refuse a place that is not there.  On well formed columns none is
missed: positions of fields come from the schema that the columns agree with, a pass reads
elements of its own chunk and clears bits of bytes that the bitmap has, and a null mask has
the bits of all rows.  So a checked operation gives exactly what its total version gives.

* `Table.projectChecked_eq_project` -- projections find their fields and columns.
* `Program.runChecked_eq_run` -- a pass over a column stays inside chunks and bitmap.
* `Table.rejectNullsChecked_eq_rejectNulls` -- null masks are written inside their bytes.
-/

namespace Columnar

namespace Schema

/-- The field at the position of a name is the field of the name. -/
theorem fieldNamed_eq_find (s : Schema) (name : String) : s.fieldNamed name = s.find name := by
  cases hIndex : s.indexOf? name with
  | none =>
      have hNone : s.fields.find? (·.name == name) = none := by
        rw [List.find?_eq_bind_findIdx?_getElem?]
        exact congrArg (Option.bind · _) hIndex
      simp only [fieldNamed, locate, find, hIndex, hNone]
      rfl
  | some k =>
      obtain ⟨field, hField, -⟩ := field_of_indexOf? hIndex
      rw [find_eq_ok_iff.mpr ⟨k, hIndex, hField⟩, fieldNamed, locate_eq_ok_iff.mpr hIndex,
        Result.ok_bind, fieldAt, hField]

end Schema

namespace Table

variable (t : Table)

theorem columnNamed_eq_column (name : String) : t.columnNamed name = t.column name := by
  cases hIndex : t.schema.indexOf? name with
  | none =>
      simp only [columnNamed, column, Schema.locate, hIndex]
      rfl
  | some k =>
      obtain ⟨field, hField, -⟩ := Schema.field_of_indexOf? hIndex
      obtain ⟨column, hColumn, -⟩ := exists_column hField
      rw [column_eq_ok hIndex hColumn, columnNamed, Schema.locate_eq_ok_iff.mpr hIndex,
        Result.ok_bind, columnAt, hColumn]

theorem validateChecked_eq_validate (p : Predicate) : t.validateChecked p = t.validate p := by
  simp only [validateChecked, validate, Schema.fieldNamed_eq_find]

/-- Positions that were located are positions of fields and of columns. -/
theorem projectChecked_eq_project (names : List String) :
    t.projectChecked names = t.project names := by
  cases hLocate : names.mapM t.schema.locate with
  | error e =>
      simp only [projectChecked, project, Schema.project, hLocate]
      rfl
  | ok indices =>
      -- Every position has a field, and so it has a column too.
      have hField : ∀ k ∈ indices, ∃ field, t.schema.fields[k]? = some field := by
        intro k hk
        obtain ⟨name, -, hName⟩ := (Result.mem_of_mapM_eq_ok hLocate k).mp hk
        obtain ⟨field, hField, -⟩ := Schema.field_of_indexOf? (Schema.locate_eq_ok_iff.mp hName)
        exact ⟨field, hField⟩
      have hFields : indices.mapM t.schema.fieldAt =
          .ok (indices.filterMap t.schema.field?) :=
        Result.mapM_eq_ok_filterMap fun k hk => by
          obtain ⟨field, hAt⟩ := hField k hk
          exact ⟨field, by rw [Schema.fieldAt, hAt], hAt⟩
      have hColumns : indices.mapM t.columnAt = .ok (indices.filterMap (t.columns[·]?)) :=
        Result.mapM_eq_ok_filterMap fun k hk => by
          obtain ⟨field, hAt⟩ := hField k hk
          obtain ⟨column, hColumn, -⟩ := exists_column hAt
          exact ⟨column, by rw [columnAt, hColumn], hColumn⟩
      rw [projectChecked, project, Schema.project, hLocate, Result.ok_bind, Result.ok_bind,
        hFields, Result.ok_bind, hColumns]
      cases Schema.ofFields (indices.filterMap t.schema.field?) <;> rfl

end Table

theorem Context.projectChecked_eq_project (ctx : Context) (names : List String) :
    ctx.projectChecked names = ctx.project names := by
  rw [projectChecked, project, Table.projectChecked_eq_project]

namespace Program

section Chunk

variable {k : Program} {chunk : Chunk}

/-- The bulk pass reads whole bytes behind the head, which end inside the chunk. -/
theorem bulkChecked_eq_bulkOf (hLength : chunk.length < 2 ^ 63)
    (hElements : ∀ i < chunk.length, chunk.checkElement i = .ok ()) (start : Nat) :
    k.bulkChecked start chunk = k.bulkOf start chunk := by
  have hReads : (List.range' (headLength start)
      (8 * bulkReach chunk.length (headLength start))).forM chunk.checkElement = .ok () := by
    refine Result.forM_eq_ok_iff.mpr fun i hi => hElements i ?_
    rw [bulkReach_eq_bulkGroups hLength, List.mem_range'_1] at hi
    unfold bulkGroups at hi
    omega
  simp only [bulkChecked, hReads, Result.ok_bind]
  cases k.bulkOf start chunk <;> rfl

/-- A boundary pass reads no element past the end of its chunk. -/
theorem boundaryChecked_eq_boundary
    (hElements : ∀ i < chunk.length, chunk.checkElement i = .ok ()) {element : Nat}
    (hElement : element ≤ chunk.length) (bit : Nat) :
    k.boundaryChecked chunk element bit = k.boundary chunk element bit := by
  have hReads : (List.range' element (boundaryCount chunk.length element bit)).forM
      chunk.checkElement = .ok () := by
    refine Result.forM_eq_ok_iff.mpr fun i hi => hElements i ?_
    rw [List.mem_range'_1, boundaryCount] at hi
    split at hi <;> omega
  simp only [boundaryChecked, hReads, Result.ok_bind]
  cases k.boundary chunk element bit <;> rfl

theorem boundariesChecked_eq_boundariesOf
    (hElements : ∀ i < chunk.length, chunk.checkElement i = .ok ()) (start : Nat) :
    k.boundariesChecked start chunk = k.boundariesOf start chunk := by
  have hTail : ∀ tail, chunk.length - tail ≤ chunk.length := fun tail => Nat.sub_le _ _
  simp only [boundariesChecked, boundariesOf,
    boundaryChecked_eq_boundary hElements (Nat.zero_le _),
    boundaryChecked_eq_boundary hElements (hTail _)]

end Chunk

section Column

variable {k : Program} {column : Column}

/-- The bytes of every element of a filled column are there. -/
theorem checkElement_eq_ok (hColumn : column.Filled) {chunk : Chunk}
    (hMem : chunk ∈ column.chunks) {i : Nat} (hi : i < chunk.length) :
    chunk.checkElement i = .ok () := by
  obtain ⟨hPlace, hEnd⟩ := hColumn.wordMul_add_width_le hMem hi
  rw [Chunk.checkElement, column.chunks_type chunk hMem, hPlace]
  exact if_pos hEnd

/-- A mask of a column goes to a byte of every bitmap with a bit for each of its rows. -/
theorem index_lt_of_mem_passMasks (hColumn : column.Filled)
    (hFixed : column.type.isFixedWidth = true) {b : Bitmap} (hLength : b.length = column.length)
    {m : ByteMask} (hm : m ∈ k.passMasks column) : m.index < b.bytes.size := by
  -- A span that fits its chunk lies among the bytes of the column's rows.
  have hFits : ∀ e ∈ column.placed, ∀ s : Span, s.Fits e.1 e.2.length →
      s.index < b.bytes.size := fun e he s hFits => by
    rw [b.size_eq, hLength]
    exact hFits.index_lt (hColumn.bounds_of_mem_placed he).1
  rw [passMasks, List.mem_append, bulkPasses, boundaryPasses, ← List.flatMap_def,
    ← List.flatMap_def, List.mem_flatMap, List.mem_flatMap] at hm
  rcases hm with ⟨e, he, hMask⟩ | ⟨e, he, hMask⟩
  · obtain ⟨s, hs, rfl⟩ := List.mem_map.mp hMask
    have hSmall := hColumn.length_lt hFixed (hColumn.bounds_of_mem_placed he).2
    exact hFits e he s (fits_of_mem_bulkSpans hSmall hs)
  · obtain ⟨s, hs, rfl⟩ := List.mem_map.mp hMask
    exact hFits e he s (fits_of_mem_boundarySpans hs)

/-- Over a filled column of its type, and into a bitmap with a bit for each of its rows, a
program stays inside the chunks and inside the bitmap. -/
theorem runChecked_eq_run (hColumn : column.Filled) (hType : column.type = k.field.type)
    (hFixed : k.field.type.isFixedWidth = true) {b : Bitmap}
    (hLength : b.length = column.length) : k.runChecked column b = k.run column b := by
  have hWidth : column.type.isFixedWidth = true := hType ▸ hFixed
  have hElements : ∀ e ∈ column.placed, ∀ i < e.2.length, e.2.checkElement i = .ok () :=
    fun e he _ hi => checkElement_eq_ok hColumn (hColumn.bounds_of_mem_placed he).2 hi
  have hBulk : column.placed.mapM (fun e => k.bulkChecked e.1 e.2) =
      .ok (k.bulkPasses column) :=
    Result.mapM_eq_ok_map fun e he =>
      have hSmall := hColumn.length_lt hWidth (hColumn.bounds_of_mem_placed he).2
      (bulkChecked_eq_bulkOf hSmall (hElements e he) e.1).trans
        (passes_ok hColumn hType hFixed he).1
  have hBoundaries : column.placed.mapM (fun e => k.boundariesChecked e.1 e.2) =
      .ok (k.boundaryPasses column) :=
    Result.mapM_eq_ok_map fun e he =>
      (boundariesChecked_eq_boundariesOf (hElements e he) e.1).trans
        (passes_ok hColumn hType hFixed he).2
  have hBytes : (k.passMasks column).forM (fun m => b.checkByte m.index) = .ok () :=
    Result.forM_eq_ok_iff.mpr fun m hm =>
      if_pos (index_lt_of_mem_passMasks hColumn hWidth hLength hm)
  rw [runChecked, hBulk, Result.ok_bind, hBoundaries, Result.ok_bind,
    run_eq_ok_masked hColumn hType hFixed]
  show (k.passMasks column).forM (fun m => b.checkByte m.index) >>= _ = _
  rw [hBytes]
  rfl

end Column

end Program

theorem Bitmap.write_eq_ok {b : Bitmap} {i : Nat} (h : i < b.length) (value : Bool) :
    b.write i value = .ok (b.set i value) := by
  have hByte : b.checkByte (i / 8) = .ok () := if_pos (lt_size h)
  rw [write, hByte]
  rfl

/-- The bits of a chunk that lies inside a mask are cleared at its null positions. -/
theorem Chunk.clearNulls_eq_ok {c : Chunk} (h : c.WellFormed) {start : Nat}
    (hFit : start + c.length < 2 ^ 64) {mask : Bitmap} (hRoom : start + c.length ≤ mask.length) :
    c.clearNulls start mask =
      .ok ((c.nullPositions.map (wordAdd start)).foldl (fun mask row => mask.set row false)
        mask) := by
  cases hValidity : c.validity with
  | none => simp [clearNulls, nullPositions, hValidity]
  | some v =>
      -- The mask keeps its length, so there is room for the chunk at every element.
      have hRun := (Result.foldlM_eq_ok_foldl (fun mask => start + c.length ≤ mask.length)
        (l := List.range c.length)
        (f := fun (mask : Bitmap) i => do
          if ← c.readValid i then return mask
          else mask.write (wordAdd start i) false)
        (g := fun mask i => if c.isValid i then mask else mask.set (wordAdd start i) false)
        (fun mask i hi hInv => by
          rw [List.mem_range] at hi
          rw [readValid_eq_ok h hi, Result.ok_bind]
          cases c.isValid i with
          | true => exact ⟨rfl, hInv⟩
          | false =>
              refine ⟨Bitmap.write_eq_ok ?_ false, hInv⟩
              rw [wordAdd_eq_add (by omega)]
              omega) hRoom).1
      have hNulls : c.nullPositions = (List.range c.length).filter fun i => !c.isValid i := by
        simp [nullPositions, isValid, hValidity]
      rw [clearNulls, hValidity, hNulls, List.foldl_map, List.foldl_filter]
      refine hRun.trans (congrArg Except.ok ?_)
      refine List.foldl_ext _ _ _ fun mask i _ => ?_
      cases c.isValid i <;> rfl

namespace Column

variable {c : Column}

/-- A null mask is written inside its bytes, and is the mask of the null rows. -/
theorem validityMaskChecked_eq_ok (h : c.WellFormed) :
    c.validityMaskChecked = .ok c.validityMask := by
  have hRows : 0 + total (c.chunks.map Chunk.length) < 2 ^ 64 := by
    have := h.rows_lt
    omega
  have hRun := (Result.foldlM_eq_ok_foldl (fun mask => mask.length = c.length) (l := c.placed)
    (f := fun mask e => e.2.clearNulls e.1 mask)
    (g := fun mask e => (e.2.nullPositions.map (wordAdd e.1)).foldl
      (fun mask row => mask.set row false) mask)
    (fun mask e he hInv => by
      have hMem := mem_of_mem_placeChunks he
      obtain ⟨-, hEnd⟩ := bounds_of_mem_placeChunks hRows he
      have hLength := length_eq_total h
      exact ⟨Chunk.clearNulls_eq_ok (h.chunks_wellFormed _ hMem) (by omega) (by omega),
        (length_foldl_clear _ _).trans hInv⟩)
    (b := Bitmap.allSet c.length) rfl).1
  unfold validityMaskChecked validityMask
  split
  · rfl
  · rw [nullRows, List.foldl_flatMap, hRun]
    rfl

end Column

/-- Nulls are rejected through masks that have the bits of all rows. -/
theorem Table.rejectNullsChecked_eq_rejectNulls {t : Table} (h : t.WellFormed)
    (names : List String) (b : Bitmap) : t.rejectNullsChecked names b = t.rejectNulls names b := by
  refine Result.foldlM_congr (fun b name _ => ?_) b
  rw [columnNamed_eq_column]
  cases hColumn : t.column name with
  | error e => rfl
  | ok column =>
      rw [Result.ok_bind, Result.ok_bind,
        Column.validityMaskChecked_eq_ok (h column (mem_of_column hColumn))]
      rfl

end Columnar
