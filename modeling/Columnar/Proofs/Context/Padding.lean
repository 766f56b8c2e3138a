import Columnar.Proofs.Compaction.Padding
import Columnar.Proofs.Context.Layout
import Columnar.Proofs.Selection.Padding
import Columnar.Proofs.Table.Construction

/-!
# Padding never leaks

Selections and validity bitmaps have padding, which constructors fill in different ways and
operations carry along.  Nothing that can be asked of a context depends on it: two contexts that
differ in padding alone have the same number of selected rows and the same null counts, filters
of them are refused alike or select the same rows, and their compactions are equal to the last
byte.

* `Context.Agrees` -- contexts that are equal except for padding.
* `Context.filter_agrees`, `Context.materialize_trim` -- a filter and a compaction.
* `Part.Built.regular` -- what is built is regular, if its bytes have room.
* `Context.padding_never_leaks` -- any two runs on contexts that agree.
-/

namespace Columnar

/-- Two outcomes are the same refusal or are related. -/
def Result.Rel {α : Type} (R : α → α → Prop) : Result α → Result α → Prop
  | .ok a, .ok a' => R a a'
  | .error e, .error e' => e = e'
  | _, _ => False

namespace Table

variable {t t' : Table}

/-- Every column is regular. -/
def Regular (t : Table) : Prop :=
  ∀ c ∈ t.columns, c.Regular

theorem regular_trim_iff : t.trim.Regular ↔ t.Regular := by
  refine List.forall_mem_map.trans ?_
  exact forall₂_congr fun c _ => Column.regular_trim_iff

theorem Agrees.regular (h : t.Agrees t') (hRegular : t.Regular) : t'.Regular := by
  rw [← regular_trim_iff, ← h.trim_eq]
  exact regular_trim_iff.mpr hRegular

theorem sound_trim_iff : (Part.table t.trim).Sound ↔ (Part.table t).Sound := by
  refine List.forall_mem_map.trans (forall₂_congr fun c _ => ?_)
  exact List.forall_mem_map.trans (forall₂_congr fun chunk _ => Chunk.sound_trim_iff)

theorem Agrees.sound (h : t.Agrees t') (hSound : (Part.table t).Sound) :
    (Part.table t').Sound := by
  rw [← sound_trim_iff, ← h.trim_eq]
  exact sound_trim_iff.mpr hSound

/-- A table without rows has nothing to trim. -/
theorem Regular.trim_eq_self (h : t.Regular) (hRows : t.rowCount = 0) : t.trim = t := by
  refine eq_of_columns t.schema_trim ?_
  refine (List.map_congr_left fun c hMem => ?_).trans (List.map_id _)
  exact (h c hMem).trim_eq_self ((length_of_mem hMem).trans hRows)

/-- The compacted columns of a table are those with trimmed bitmaps. -/
theorem Regular.mapM_compact_trim (h : t.Regular) {selection : Bitmap}
    (hLength : selection.length = t.rowCount)
    (hFixed : ∀ c ∈ t.columns, c.type.isFixedWidth = true) (chunkSize : Nat) :
    (t.trim.columns.mapM fun c => c.compact selection.trim chunkSize) =
      t.columns.mapM fun c => c.compact selection chunkSize := by
  refine Result.mapM_eq_of_map_eq ?_
  rw [columns_trim, List.map_map]
  refine List.map_congr_left fun c hMem => (h c hMem).compact_trim (hFixed c hMem) ?_ chunkSize
  rw [hLength, length_of_mem hMem]

end Table

namespace Context

variable {ctx ctx' : Context} {p : Predicate} {b : Bitmap}

/-- Two contexts are equal except for padding, in the selection and in any validity. -/
structure Agrees (ctx ctx' : Context) : Prop where
  table : ctx.table.Agrees ctx'.table
  selection : Option.Rel Bitmap.Agrees ctx.selection ctx'.selection

/-- The same rows and elements, with clear padding. -/
def trim (ctx : Context) : Context where
  table := ctx.table.trim
  selection := ctx.selection.map Bitmap.trim

theorem Agrees.trim_eq (h : ctx.Agrees ctx') : ctx.trim = ctx'.trim := by
  rw [trim, trim, h.table.trim_eq, Bitmap.map_trim_eq h.selection]

theorem agrees_refl (ctx : Context) : ctx.Agrees ctx :=
  ⟨ctx.table.agrees_refl, Bitmap.rel_agrees_refl _⟩

theorem agrees_trim (ctx : Context) : ctx.Agrees ctx.trim :=
  ⟨ctx.table.agrees_trim, Bitmap.rel_agrees_trim _⟩

@[simp]
theorem table_trim (ctx : Context) : ctx.trim.table = ctx.table.trim := rfl

@[simp]
theorem selection_trim (ctx : Context) : ctx.trim.selection = ctx.selection.map Bitmap.trim := rfl

theorem selectedRows_trim (ctx : Context) : ctx.trim.selectedRows = ctx.selectedRows := by
  cases hSelection : ctx.selection <;> simp [selectedRows, hSelection]

theorem checkSelection_trim (ctx : Context) : ctx.trim.checkSelection = ctx.checkSelection := by
  cases hSelection : ctx.selection <;> simp [checkSelection, hSelection]

/-- A selection that was not refused has one bit for each row. -/
theorem length_of_checkSelection (hCheck : ctx.checkSelection = .ok ())
    (hSelection : ctx.selection = some b) : b.length = ctx.table.rowCount :=
  (checkSelection_eq_ok_iff ctx).mp hCheck b hSelection

/-- The null counts of all chunks. -/
def nullCounts (ctx : Context) : List (List Nat) :=
  ctx.table.columns.map fun c => c.chunks.map Chunk.nullCount

theorem nullCounts_trim (ctx : Context) : ctx.trim.nullCounts = ctx.nullCounts := by
  simp [nullCounts, Function.comp_def]

/-- The rows that a filter asks for, whatever is selected already. -/
def rowsOf (ctx : Context) (p : Predicate) : Result Bitmap := do
  ctx.table.validate p
  ctx.table.rejectNulls p.columns (← ctx.table.selectValues p)

/-- The selection with only some rows left in it. -/
def restrictTo (ctx : Context) (b : Bitmap) : Context :=
  ctx.select (match ctx.selection with
    | some existing => b.and existing
    | none => b)

theorem filter_eq (ctx : Context) (p : Predicate) :
    ctx.filter p = ctx.checkSelection >>= fun _ =>
      if ctx.table.isChunkless then .ok ctx
      else ctx.rowsOf p >>= fun b => .ok (ctx.restrictTo b) := by
  obtain ⟨t, selection⟩ := ctx
  cases selection <;> simp only [filter, rowsOf, restrictTo, bind_assoc] <;> rfl

theorem rowsOf_trim (hSound : (Part.table ctx.table).Sound) (p : Predicate) :
    ctx.trim.rowsOf p = ctx.rowsOf p := by
  rw [rowsOf, rowsOf, table_trim, Table.selectValues_trim,
    funext (Table.rejectNulls_trim hSound p.columns)]
  rfl

theorem length_of_rowsOf (h : ctx.rowsOf p = .ok b) : b.length = ctx.table.rowCount := by
  obtain ⟨-, -, h⟩ := Result.bind_eq_ok_iff.mp h
  obtain ⟨values, hValues, h⟩ := Result.bind_eq_ok_iff.mp h
  rw [Table.length_of_rejectNulls h, Table.length_of_selectValues hValues]

theorem Agrees.restrictTo (h : ctx.Agrees ctx')
    (hFits : ∀ existing, ctx.selection = some existing → existing.length = b.length) :
    (ctx.restrictTo b).Agrees (ctx'.restrictTo b) := by
  obtain ⟨t, selection⟩ := ctx
  obtain ⟨t', selection'⟩ := ctx'
  have hRel : Option.Rel Bitmap.Agrees selection selection' := h.selection
  refine ⟨h.table, .some ?_⟩
  cases hRel with
  | none => exact b.agrees_refl
  | some hBits =>
      have hLength := hFits _ rfl
      rw [Bitmap.agrees_iff, Bitmap.toList_and hLength.symm,
        Bitmap.toList_and (hLength.symm.trans hBits.length_eq), Bitmap.agrees_iff.mp hBits]

/-- Filters of contexts that agree are refused alike, or select the same rows. -/
theorem filter_agrees (hSound : (Part.table ctx.table).Sound) (h : ctx.Agrees ctx')
    (p : Predicate) : Result.Rel Agrees (ctx.filter p) (ctx'.filter p) := by
  have hCheck : ctx.checkSelection = ctx'.checkSelection := by
    rw [← checkSelection_trim, h.trim_eq, checkSelection_trim]
  have hChunks : ctx.table.isChunkless = ctx'.table.isChunkless := by
    rw [← Table.isChunkless_trim, h.table.trim_eq, Table.isChunkless_trim]
  have hRows : ctx.rowsOf p = ctx'.rowsOf p := by
    rw [← rowsOf_trim hSound, h.trim_eq, rowsOf_trim (h.table.sound hSound)]
  rw [filter_eq, filter_eq, ← hCheck, ← hChunks, ← hRows]
  cases hFits : ctx.checkSelection with
  | error e => exact rfl
  | ok _ =>
      simp only [Result.ok_bind]
      split
      · exact h
      · cases hSelected : ctx.rowsOf p with
        | error e => exact rfl
        | ok b =>
            refine h.restrictTo fun existing hSelection => ?_
            rw [length_of_checkSelection hFits hSelection, length_of_rowsOf hSelected]

/-- A compaction is the one with trimmed bitmaps. -/
theorem materialize_trim (hRegular : ctx.table.Regular) (chunkSize : Nat) :
    ctx.trim.materialize chunkSize = ctx.materialize chunkSize := by
  unfold materialize
  rw [checkSelection_trim, table_trim, Table.isChunkless_trim, Table.schema_trim, selection_trim]
  cases hCheck : ctx.checkSelection with
  | error e => rfl
  | ok _ =>
      simp only [Result.ok_bind]
      split
      · next hChunks =>
          -- The table is handed on as it is, so there must not be any padding in it.
          have hTable := hRegular.trim_eq_self (Table.rowCount_of_isChunkless hChunks)
          rw [selectAll, selectAll, table_trim, hTable]
      · cases hSelection : ctx.selection with
        | none => simp only [Option.map_none]
        | some selection =>
            simp only [Option.map_some]
            split
            · rw [Result.throw_bind, Result.throw_bind]
            · next hFind =>
                have hNone := Option.eq_none_iff_forall_ne_some.mpr hFind
                have hFixed : ∀ field ∈ ctx.table.schema.fields,
                    field.type.isFixedWidth = true := by
                  simpa using List.find?_eq_none.mp hNone
                have hLength := length_of_checkSelection hCheck hSelection
                rw [hRegular.mapM_compact_trim hLength fun c => isFixedWidth_of_mem hFixed]

theorem materialize_agrees (hRegular : ctx.table.Regular) (h : ctx.Agrees ctx')
    (chunkSize : Nat) : ctx.materialize chunkSize = ctx'.materialize chunkSize := by
  rw [← materialize_trim hRegular, h.trim_eq, materialize_trim (h.table.regular hRegular)]

end Context

/-- Elements without a fixed width are never null. -/
def Chunk.TextValid (c : Chunk) : Prop :=
  c.type.isFixedWidth = false → c.validity = none

/-- Text can only be built without validity. -/
theorem Part.Built.textValid {part : Part} (h : part.Built) : part.All Chunk.TextValid := by
  have hFixed : ∀ {c : Chunk}, c.type.isFixedWidth = true → c.TextValid :=
    fun hTrue hFalse => nomatch hTrue.symm.trans hFalse
  refine h.all (fun _ _ _ => rfl) (fun hType _ => hFixed hType) (fun _ _ => rfl)
    (fun hRaw => ?_) (fun _ _ => rfl) (fun hCompact c hMem => ?_)
  · obtain ⟨hType, -, -, rfl⟩ := Chunk.ofRaw_eq_ok hRaw
    exact hFixed hType
  · refine hFixed ?_
    rw [Column.chunks_type _ c hMem]
    exact Column.isFixedWidth_of_compact hCompact

/-- A table that was built is regular if the bytes of its columns have room. -/
theorem Part.Built.regular {t : Table} (h : Part.Built (.table t))
    (hRoom : ∀ c ∈ t.columns, total (c.chunks.map fun chunk => chunk.bytes.size) < 2 ^ 64) :
    t.Regular := by
  intro c hMem
  refine ⟨h.sound c hMem, fun hType chunk hChunk => ?_, hRoom c hMem⟩
  exact h.textValid c hMem chunk hChunk (by rw [c.chunks_type chunk hChunk]; exact hType)

namespace Context

/-- Contexts that differ in padding alone have as many selected rows and nulls as each other.
Filters of them are refused alike or select the same rows, and as long as the bytes of a column
are counted by a machine word their compactions are refused alike or are equal to the last
byte. -/
theorem padding_never_leaks {ctx ctx' : Context} (hBuilt : Part.Built (.table ctx.table))
    (h : ctx.Agrees ctx') :
    ctx.selectedRows = ctx'.selectedRows ∧ ctx.nullCounts = ctx'.nullCounts ∧
      (∀ p, Result.Rel Agrees (ctx.filter p) (ctx'.filter p)) ∧
      ((∀ c ∈ ctx.table.columns,
          total (c.chunks.map fun chunk => chunk.bytes.size) < 2 ^ 64) →
        ∀ chunkSize, ctx.materialize chunkSize = ctx'.materialize chunkSize) := by
  refine ⟨?_, ?_, filter_agrees hBuilt.sound h, fun hRoom => ?_⟩
  · rw [← selectedRows_trim, h.trim_eq, selectedRows_trim]
  · rw [← nullCounts_trim, h.trim_eq, nullCounts_trim]
  · exact materialize_agrees (hBuilt.regular hRoom) h

/-- The sample, with bits set in the padding of its selection and of a validity. -/
def padded : Context :=
  (ofTable .sample).select fourOfFive

/-- The sample is another context without these bits, and nothing shows it. -/
theorem padding_never_leaks_padded :
    Part.Built (.table padded.table) ∧ padded.Agrees padded.trim ∧ padded ≠ padded.trim ∧
      padded.selectedRows = padded.trim.selectedRows ∧
      padded.nullCounts = padded.trim.nullCounts ∧
      (∀ p, Result.Rel Agrees (padded.filter p) (padded.trim.filter p)) ∧
      ∀ chunkSize, padded.materialize chunkSize = padded.trim.materialize chunkSize :=
  have hBuilt : Part.Built (.table padded.table) := by
    refine @Part.Built.make Table.sample.schema Table.sample.columns _ (fun column hMem => ?_)
      (by decide +kernel)
    rcases List.mem_pair.mp hMem with rfl | rfl
    · refine .ofChunks (fun c hChunk => ?_) (Column.ofChunks_eq_ok _)
      rcases List.mem_pair.mp hChunk with rfl | rfl
      · exact .ofOptions _ rfl
      · exact .ofValues _ rfl
    · exact .ofSlices _ rfl
  have hAgrees := padded.agrees_trim
  have ⟨hRows, hNulls, hFilter, hMaterialize⟩ := padding_never_leaks hBuilt hAgrees
  ⟨hBuilt, hAgrees, by decide +kernel, hRows, hNulls, hFilter, hMaterialize (by decide +kernel)⟩

end Context

end Columnar
