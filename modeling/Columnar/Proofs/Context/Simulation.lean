import Columnar.Plan.Execution
import Columnar.Proofs.Context.Materialize
import Columnar.Proofs.Context.Project

/-!
# Simulation between contexts

Two runs may reach contexts that hold different tables and yet lead to the same result:
one has compacted its selection, and the other has it pending over a longer table.
`Matches` relates the contexts of two runs, and every step that one run takes the other
can take as well.

* `Sound` -- the invariant of a run over a table whose columns all have chunks.
* `Sound.of_run` -- every step preserves it, as long as projections name a column.
* `Matches.of_run` -- a step that succeeds on a context succeeds on every context that
  matches it, and the results match.
-/

namespace Columnar

theorem Table.isChunkless_eq_false {t : Table} (hColumns : t.columns ≠ [])
    (hChunks : ∀ column ∈ t.columns, column.chunks ≠ []) : t.isChunkless = false := by
  obtain ⟨first, rest, hList⟩ := List.exists_cons_of_ne_nil hColumns
  have hFirst := hChunks first (by rw [hList]; exact List.mem_cons_self)
  rw [isChunkless, hList]
  simpa using hFirst

theorem Table.isChunkless_of_columns_nil {t : Table} (h : t.columns = []) :
    t.isChunkless = true := by
  rw [isChunkless, h]

/-- A projection names at least one column. -/
def Step.NamesColumns : Step → Prop
  | project names => names ≠ []
  | filter _ | materialize => True

namespace Context

variable {a b a' : Context} {settings : Settings} {step : Step}

/-- Every column has a chunk, and a selection is pending only where there are columns. -/
structure Sound (ctx : Context) : Prop where
  wellFormed : ctx.WellFormed
  chunks_ne_nil : ∀ column ∈ ctx.table.columns, column.chunks ≠ []
  selection_eq_none : ctx.table.columns = [] → ctx.selection = none

theorem sound_ofTable {t : Table} (hTable : t.WellFormed)
    (hChunks : ∀ column ∈ t.columns, column.chunks ≠ []) : (ofTable t).Sound :=
  ⟨wellFormed_ofTable hTable, hChunks, fun _ => rfl⟩

theorem Sound.isChunkless_eq_false (h : a.Sound) (hColumns : a.table.columns ≠ []) :
    a.table.isChunkless = false :=
  Table.isChunkless_eq_false hColumns h.chunks_ne_nil

/-- Without columns a filter does nothing. -/
theorem Sound.filter_of_columns_nil (h : a.Sound) (hColumns : a.table.columns = [])
    (p : Predicate) : a.filter p = .ok a := by
  rw [filter, h.wellFormed.checkSelection, Result.ok_bind,
    Table.isChunkless_of_columns_nil hColumns, if_pos rfl]
  rfl

/-- Without columns a compaction does nothing. -/
theorem Sound.materialize_of_columns_nil (h : a.Sound) (hColumns : a.table.columns = [])
    (chunkSize : Nat) : a.materialize chunkSize = .ok a := by
  rw [materialize_of_isChunkless h.wellFormed (Table.isChunkless_of_columns_nil hColumns),
    selectAll, ← h.selection_eq_none hColumns]

theorem columns_eq_nil_of_schema_eq (h : a.table.schema = b.table.schema)
    (hColumns : a.table.columns = []) : b.table.columns = [] := by
  have hLength := Table.length_columns a.table
  rw [hColumns, h, ← Table.length_columns] at hLength
  exact List.eq_nil_of_length_eq_zero hLength.symm

/-- Compaction over columns with chunks needs a pending selection, and leaves a context
alike. -/
theorem Sound.alike_of_materialize (h : a.Sound) (hColumns : a.table.columns ≠ [])
    {chunkSize : Nat} (hRun : a.materialize chunkSize = .ok a') :
    a.selection.isSome = true ∧ a'.Sound ∧ a'.table.columns ≠ [] ∧ a'.Alike a := by
  obtain ⟨hPending, t, rfl, hTable, hChunk, hAlike⟩ :=
    compacted_of_materialize h.wellFormed (h.isChunkless_eq_false hColumns) hRun
  exact ⟨hPending, sound_ofTable hTable hChunk,
    fun hNil => hColumns (columns_eq_nil_of_schema_eq hAlike.schema_eq hNil), hAlike⟩

theorem Sound.of_filter {p : Predicate} (h : a.Sound) (hRun : a.filter p = .ok a') :
    a'.Sound := by
  by_cases hColumns : a.table.columns = []
  · rw [h.filter_of_columns_nil hColumns] at hRun
    rwa [← Except.ok.inj hRun]
  · obtain ⟨hTable, -, hWellFormed, -⟩ :=
      records_of_filter h.wellFormed (h.isChunkless_eq_false hColumns) hRun
    exact ⟨hWellFormed, by rw [hTable]; exact h.chunks_ne_nil,
      fun hNil => absurd (by rw [← hTable, hNil]) hColumns⟩

theorem Sound.of_materialize (h : a.Sound) {chunkSize : Nat}
    (hRun : a.materialize chunkSize = .ok a') : a'.Sound := by
  by_cases hColumns : a.table.columns = []
  · rw [h.materialize_of_columns_nil hColumns] at hRun
    rwa [← Except.ok.inj hRun]
  · exact (h.alike_of_materialize hColumns hRun).2.1

theorem Sound.of_project {names : List String} (h : a.Sound) (hNames : names ≠ [])
    (hRun : a.project names = .ok a') : a'.Sound := by
  obtain ⟨indices, hProjected⟩ := projected_of_project hRun
  exact ⟨hProjected.wellFormed h.wellFormed hNames,
    fun column hMem => h.chunks_ne_nil column (hProjected.mem_columns hMem),
    fun hNil => absurd hNil (hProjected.columns_ne_nil hNames)⟩

/-- Every step keeps a run sound. -/
theorem Sound.of_run (h : a.Sound) (hNames : step.NamesColumns)
    (hRun : step.run settings a = .ok a') : a'.Sound := by
  cases step with
  | project names => exact h.of_project hNames hRun
  | filter p => exact h.of_filter hRun
  | materialize => exact h.of_materialize hRun

/-- Two contexts are equal, or both have a selection pending and stand for the same
records. -/
def Matches (a b : Context) : Prop :=
  a = b ∨ (a.selection.isSome = true ∧ b.selection.isSome = true ∧ a.Alike b)

namespace Matches

theorem refl (a : Context) : a.Matches a := Or.inl rfl

theorem trans {c : Context} (h : a.Matches b) (h' : b.Matches c) : a.Matches c := by
  rcases h with rfl | ⟨ha, hb, hAlike⟩
  · exact h'
  · rcases h' with rfl | ⟨-, hc, hAlike'⟩
    · exact Or.inr ⟨ha, hb, hAlike⟩
    · exact Or.inr ⟨ha, hc, hAlike.trans hAlike'⟩

/-- A pending selection is over columns. -/
theorem columns_ne_nil (h : a.Sound) (hPending : a.selection.isSome = true) :
    a.table.columns ≠ [] := fun hNil => by
  rw [h.selection_eq_none hNil] at hPending
  exact absurd hPending (by simp)

/-- A filter that succeeds on columns with chunks leaves a selection pending. -/
theorem of_filter_alike {p : Predicate} (h : a.Alike b) (ha : a.Sound) (hb : b.Sound)
    (hColumns : a.table.columns ≠ []) (hRun : a.filter p = .ok a') :
    ∃ b', b.filter p = .ok b' ∧ a'.Matches b' := by
  have hChunks := ha.isChunkless_eq_false hColumns
  have hChunks' := hb.isChunkless_eq_false fun hNil =>
    hColumns (columns_eq_nil_of_schema_eq h.schema_eq.symm hNil)
  obtain ⟨b', hRun', hAlike⟩ := h.filter ha.wellFormed hb.wellFormed hChunks hChunks' hRun
  exact ⟨b', hRun', Or.inr ⟨(records_of_filter ha.wellFormed hChunks hRun).2.1,
    (records_of_filter hb.wellFormed hChunks' hRun').2.1, hAlike⟩⟩

/-- A step that succeeds on a context succeeds on every context that matches it, and the
results match. -/
theorem of_run (h : a.Matches b) (ha : a.Sound) (hb : b.Sound) (hNames : step.NamesColumns)
    (hRun : step.run settings a = .ok a') :
    ∃ b', step.run settings b = .ok b' ∧ a'.Matches b' := by
  rcases h with rfl | ⟨hPending, hPending', hAlike⟩
  · exact ⟨a', hRun, refl a'⟩
  · have hColumns := columns_ne_nil ha hPending
    have hColumns' := columns_ne_nil hb hPending'
    cases step with
    | filter p => exact of_filter_alike hAlike ha hb hColumns hRun
    | materialize =>
        -- Here the two runs meet: both compact to one and the same table.
        refine ⟨a', ?_, refl a'⟩
        rw [Step.run, ← hAlike.materialize_eq ha.wellFormed hb.wellFormed
          (ha.isChunkless_eq_false hColumns) (hb.isChunkless_eq_false hColumns') hPending
          hPending']
        exact hRun
    | project names =>
        obtain ⟨b', hRun', hAlike'⟩ := hAlike.project hNames hRun
        obtain ⟨_, hLeft⟩ := projected_of_project hRun
        obtain ⟨_, hRight⟩ := projected_of_project hRun'
        refine ⟨b', hRun', Or.inr ⟨?_, ?_, hAlike'⟩⟩
        · rw [hLeft.selection_eq]
          exact hPending
        · rw [hRight.selection_eq]
          exact hPending'

end Matches

end Context

end Columnar
