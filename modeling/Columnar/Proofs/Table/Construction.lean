import Columnar.Plan.Execution
import Columnar.Proofs.Chunk.Sound
import Columnar.Proofs.Context.Project

/-!
# Built tables

Chunks, columns and tables are built by a handful of operations, and some of these put the parts
together without a check.  Filters, compactions and projections make tables of tables.  Whatever
is built that way, and taken apart and built again, has lengths that agree at every level: a
chunk with its bytes, its offsets and its validity, a column with its chunks, and a table with
its columns.

Lengths are machine words, and as for chunks they agree as numbers as long as no product and no
sum of them wraps.

* `Column.sound_of_compact` -- the chunks of a compacted column are sound.
* `Part.Built` -- what the operations build.
* `Part.Built.all` -- a property of all its chunks needs to be shown for each way to make one.
* `Part.Built.table_sound` -- every built table has names, types and lengths that agree.
-/

namespace Columnar

/-- A column of given chunks has these chunks. -/
theorem Column.chunks_of_ofChunks {t : DataType} {chunks : List Chunk} {column : Column}
    (h : ofChunks t chunks = .ok column) : column.chunks = chunks := by
  unfold ofChunks at h
  split at h
  · rw [← Except.ok.inj h]
  · cases h

theorem Column.type_of_ofChunks {t : DataType} {chunks : List Chunk} {column : Column}
    (h : ofChunks t chunks = .ok column) : column.type = t := by
  unfold ofChunks at h
  split at h
  · rw [← Except.ok.inj h]
  · cases h

namespace ChunkBuilder

variable {b b' : ChunkBuilder}

/-- The chunks that are complete are sound. -/
def Collects (b : ChunkBuilder) : Prop :=
  ∀ c ∈ b.done, c.Sound

theorem Collects.flush (h : b.Collects) (hFlush : b.flush = .ok b') : b'.Collects := by
  obtain ⟨chunk, hRaw, hDone⟩ := Result.bind_eq_ok_iff.mp hFlush
  obtain rfl := Except.ok.inj hDone
  intro c hMem
  rcases Array.mem_push.mp hMem with hBefore | rfl
  · exact h c hBefore
  · exact Chunk.sound_ofRaw hRaw

/-- Writing an element changes the buffers and nothing else. -/
theorem exists_of_write {slot : List UInt8} {valid : Bool} (h : b.write slot valid = .ok b') :
    ∃ bytes flags, b' = { b with bytes := bytes, valid := flags } := by
  unfold write at h
  dsimp only at h
  split at h
  · cases h
  · split at h
    · cases h
    · split at h
      · split at h
        · cases h
        · exact ⟨_, _, (Except.ok.inj h).symm⟩
      · exact ⟨_, b.valid, (Except.ok.inj h).symm⟩

/-- Writing an element completes no chunk. -/
theorem done_of_write {slot : List UInt8} {valid : Bool} (h : b.write slot valid = .ok b') :
    b'.done = b.done := by
  obtain ⟨_, _, rfl⟩ := exists_of_write h
  rfl

theorem Collects.push (h : b.Collects) {slot : List UInt8} {valid keep : Bool}
    (hPush : b.push slot valid keep = .ok b') : b'.Collects := by
  obtain ⟨written, hWrite, hRest⟩ := Result.bind_eq_ok_iff.mp hPush
  have hWritten : Collects { written with cursor := written.cursor + keep.toNat } :=
    fun c hMem => h c (done_of_write hWrite ▸ hMem)
  dsimp only at hRest
  split at hRest
  · exact hWritten.flush hRest
  · obtain rfl := Except.ok.inj hRest
    exact hWritten

theorem Collects.absorb (h : b.Collects) {selection : Bitmap} {start : Nat} {chunk : Chunk}
    (hAbsorb : b.absorb selection start chunk = .ok b') : b'.Collects := by
  refine Result.foldlM_eq_ok_induction Collects (fun b i _ b' hBefore hStep => ?_) h hAbsorb
  obtain ⟨valid, -, hRest⟩ := Result.bind_eq_ok_iff.mp hStep
  obtain ⟨keep, -, hPush⟩ := Result.bind_eq_ok_iff.mp hRest
  exact hBefore.push hPush

theorem collects_new {t : DataType} {size selected : Nat} {tracks : Bool}
    (h : new t size selected tracks = .ok b) : b.Collects := by
  unfold new at h
  split at h
  · obtain rfl := Except.ok.inj h
    exact fun c hMem => absurd hMem (Array.not_mem_empty c)
  · cases h

theorem finish_eq (b : ChunkBuilder) :
    b.finish = (if 0 < b.cursor then b.flush else .ok b) >>= fun last =>
      Column.ofChunks last.type
        (if last.done.isEmpty then [Chunk.empty last.type] else last.done.toList) := by
  have hLast : ∀ last : ChunkBuilder,
      (if last.done.isEmpty then Column.ofChunks last.type [Chunk.empty last.type]
        else Column.ofChunks last.type last.done.toList) =
      Column.ofChunks last.type
        (if last.done.isEmpty then [Chunk.empty last.type] else last.done.toList) := by
    intro last
    split <;> rfl
  simp only [← hLast]
  unfold finish
  split <;> rfl

/-- The chunks of the finished column are those collected, or a single empty one. -/
theorem Collects.finish (h : b.Collects) {column : Column} (hFinish : b.finish = .ok column) :
    ∀ c ∈ column.chunks, c.Sound := by
  rw [finish_eq] at hFinish
  obtain ⟨last, hLast, hColumn⟩ := Result.bind_eq_ok_iff.mp hFinish
  have hCollects : last.Collects := by
    split at hLast
    · exact h.flush hLast
    · obtain rfl := Except.ok.inj hLast
      exact h
  rw [Column.chunks_of_ofChunks hColumn]
  split
  · exact List.forall_mem_singleton.mpr (Chunk.sound_empty _)
  · exact fun c hMem => hCollects c (Array.mem_toList_iff.mp hMem)

theorem type_of_flush (h : b.flush = .ok b') : b'.type = b.type := by
  obtain ⟨chunk, -, hDone⟩ := Result.bind_eq_ok_iff.mp h
  rw [← Except.ok.inj hDone]
  rfl

theorem type_of_push {slot : List UInt8} {valid keep : Bool}
    (h : b.push slot valid keep = .ok b') : b'.type = b.type := by
  obtain ⟨written, hWrite, hRest⟩ := Result.bind_eq_ok_iff.mp h
  obtain ⟨_, _, rfl⟩ := exists_of_write hWrite
  dsimp only at hRest
  split at hRest
  · have hFlush := type_of_flush hRest
    exact hFlush
  · rw [← Except.ok.inj hRest]

theorem type_of_absorb {selection : Bitmap} {start : Nat} {chunk : Chunk}
    (h : b.absorb selection start chunk = .ok b') : b'.type = b.type := by
  refine Result.foldlM_eq_ok_induction (fun current => current.type = b.type)
    (fun current i _ next hBefore hStep => ?_) rfl h
  obtain ⟨valid, -, hRest⟩ := Result.bind_eq_ok_iff.mp hStep
  obtain ⟨keep, -, hPush⟩ := Result.bind_eq_ok_iff.mp hRest
  rw [type_of_push hPush, hBefore]

theorem type_of_finish {column : Column} (h : b.finish = .ok column) : column.type = b.type := by
  rw [finish_eq] at h
  obtain ⟨last, hLast, hColumn⟩ := Result.bind_eq_ok_iff.mp h
  rw [Column.type_of_ofChunks hColumn]
  split at hLast
  · exact type_of_flush hLast
  · rw [← Except.ok.inj hLast]

end ChunkBuilder

/-- Whatever the chunks of a column are like, those of a compacted one are sound. -/
theorem Column.sound_of_compact {column compacted : Column} {selection : Bitmap} {size : Nat}
    (h : column.compact selection size = .ok compacted) : ∀ c ∈ compacted.chunks, c.Sound := by
  obtain ⟨start, hNew, hRest⟩ := Result.bind_eq_ok_iff.mp h
  obtain ⟨filled, hFilled, hFinish⟩ := Result.bind_eq_ok_iff.mp hRest
  refine ChunkBuilder.Collects.finish ?_ hFinish
  exact Result.foldlM_eq_ok_induction ChunkBuilder.Collects
    (fun b entry _ b' hBefore => hBefore.absorb) (ChunkBuilder.collects_new hNew) hFilled

/-- Only a column of fixed width is compacted, and a compacted column has the type of it. -/
theorem Column.isFixedWidth_of_compact {column compacted : Column} {selection : Bitmap}
    {size : Nat} (h : column.compact selection size = .ok compacted) :
    compacted.type.isFixedWidth = true := by
  obtain ⟨start, hNew, hRest⟩ := Result.bind_eq_ok_iff.mp h
  obtain ⟨filled, hFilled, hFinish⟩ := Result.bind_eq_ok_iff.mp hRest
  have hType : filled.type = start.type :=
    Result.foldlM_eq_ok_induction (fun current => current.type = start.type)
      (fun current entry _ next hBefore hStep =>
        (ChunkBuilder.type_of_absorb hStep).trans hBefore) rfl hFilled
  rw [ChunkBuilder.type_of_finish hFinish, hType]
  unfold ChunkBuilder.new at hNew
  split at hNew
  · next hFixed =>
      rw [← Except.ok.inj hNew]
      exact hFixed
  · cases hNew

/-- A chunk, a column or a table. -/
inductive Part where
  | chunk (c : Chunk)
  | column (c : Column)
  | table (t : Table)

/-- What can be built.  Every step of a plan is run on a table that was built, with any
selection, and parts that were built can be taken out and built into others. -/
inductive Part.Built : Part → Prop
  | ofValues {t : DataType} (values : List (Native t)) : t.isFixedWidth = true →
      Built (.chunk (.ofValues t values))
  | ofOptions {t : DataType} (values : List (Option (Native t))) : t.isFixedWidth = true →
      Built (.chunk (.ofOptions t values))
  | ofStrings (values : List String) : Built (.chunk (.ofStrings values))
  | ofRaw {t : DataType} {n : Nat} {bytes : Array UInt8} {validity : Option Bitmap} {c : Chunk} :
      Chunk.ofRaw t n bytes validity = .ok c → Built (.chunk c)
  | emptyChunk (t : DataType) : Built (.chunk (.empty t))
  | ofChunks {t : DataType} {chunks : List Chunk} {column : Column} :
      (∀ c ∈ chunks, Built (.chunk c)) → Column.ofChunks t chunks = .ok column →
      Built (.column column)
  | ofChunk {c : Chunk} : Built (.chunk c) → Built (.column (.ofChunk c))
  | ofSlices {t : DataType} (slices : List (List (Native t))) : t.isFixedWidth = true →
      Built (.column (.ofSlices t slices))
  | make {schema : Schema} {columns : List Column} {t : Table} :
      (∀ column ∈ columns, Built (.column column)) → Table.make schema columns = .ok t →
      Built (.table t)
  | ofColumns {columns : List (String × Column)} {t : Table} :
      (∀ e ∈ columns, Built (.column e.2)) → Table.ofColumns columns = .ok t → Built (.table t)
  | emptyTable : Built (.table .empty)
  | step {settings : Settings} {step : Step} {ctx ctx' : Context} : Built (.table ctx.table) →
      step.run settings ctx = .ok ctx' → Built (.table ctx'.table)
  | chunkOf {column : Column} {c : Chunk} : Built (.column column) → c ∈ column.chunks →
      Built (.chunk c)
  | columnOf {t : Table} {column : Column} : Built (.table t) → column ∈ t.columns →
      Built (.column column)

/-- All chunks of a part have a property. -/
def Part.All (P : Chunk → Prop) : Part → Prop
  | chunk c => P c
  | column source => ∀ c ∈ source.chunks, P c
  | table t => ∀ source ∈ t.columns, ∀ c ∈ source.chunks, P c

/-- All chunks of a part are sound. -/
def Part.Sound : Part → Prop :=
  Part.All Chunk.Sound

theorem Context.table_of_filter {ctx ctx' : Context} {p : Predicate}
    (h : ctx.filter p = .ok ctx') : ctx'.table = ctx.table := by
  obtain ⟨-, -, hRest⟩ := Result.bind_eq_ok_iff.mp h
  split at hRest
  · rw [← Except.ok.inj hRest]
  · obtain ⟨-, -, hRest⟩ := Result.bind_eq_ok_iff.mp hRest
    obtain ⟨values, -, hRest⟩ := Result.bind_eq_ok_iff.mp hRest
    obtain ⟨b, -, hRest⟩ := Result.bind_eq_ok_iff.mp hRest
    split at hRest
    · rw [← Except.ok.inj hRest]
      rfl
    · rw [← Except.ok.inj hRest]
      rfl

/-- A compaction leaves the table alone or compacts its columns. -/
theorem Context.columns_of_materialize {ctx ctx' : Context} {size : Nat}
    (h : ctx.materialize size = .ok ctx') : ctx'.table = ctx.table ∨
      ∃ selection, ∀ column ∈ ctx'.table.columns, ∃ source ∈ ctx.table.columns,
        source.compact selection size = .ok column := by
  obtain ⟨-, -, hRest⟩ := Result.bind_eq_ok_iff.mp h
  split at hRest
  · rw [← Except.ok.inj hRest]
    exact .inl rfl
  · cases hSelection : ctx.selection with
    | none =>
        rw [hSelection] at hRest
        exact (Result.throw_ne_ok _ _ hRest).elim
    | some selection =>
        rw [hSelection] at hRest
        dsimp only at hRest
        split at hRest
        · exact (Result.throw_ne_ok _ _ hRest).elim
        · obtain ⟨columns, hColumns, hRest⟩ := Result.bind_eq_ok_iff.mp hRest
          obtain ⟨made, hMade, hRest⟩ := Result.bind_eq_ok_iff.mp hRest
          rw [← Except.ok.inj hRest]
          refine .inr ⟨selection, fun column hMem => ?_⟩
          have hMem : column ∈ made.columns := hMem
          rw [(Table.make_eq_ok_iff.mp hMade).2.2.2] at hMem
          exact (Result.mem_of_mapM_eq_ok hColumns column).mp hMem

/-- What holds of every chunk that is made, and of those of a compacted column, holds of every
chunk of a part that is built. -/
theorem Part.Built.all {P : Chunk → Prop} {part : Part} (h : part.Built)
    (hValues : ∀ {t : DataType}, t.isFixedWidth = true → ∀ values, P (.ofValues t values))
    (hOptions : ∀ {t : DataType}, t.isFixedWidth = true → ∀ values, P (.ofOptions t values))
    (hStrings : ∀ values, P (.ofStrings values))
    (hRaw : ∀ {t n bytes validity c}, Chunk.ofRaw t n bytes validity = .ok c → P c)
    (hEmpty : ∀ t, P (.empty t))
    (hCompact : ∀ {column compacted : Column} {selection : Bitmap} {size : Nat},
      column.compact selection size = .ok compacted → ∀ c ∈ compacted.chunks, P c) :
    part.All P := by
  induction h with
  | ofValues values hFixed => exact hValues hFixed values
  | ofOptions values hFixed => exact hOptions hFixed values
  | ofStrings values => exact hStrings values
  | ofRaw hMade => exact hRaw hMade
  | emptyChunk t => exact hEmpty t
  | ofChunks _ hColumn ih =>
      intro c hMem
      rw [Column.chunks_of_ofChunks hColumn] at hMem
      exact ih c hMem
  | ofChunk _ ih => exact List.forall_mem_singleton.mpr ih
  | ofSlices slices hFixed =>
      exact List.forall_mem_map.mpr fun values _ => hValues hFixed values
  | make _ hTable ih =>
      intro column hMem
      rw [(Table.make_eq_ok_iff.mp hTable).2.2.2] at hMem
      exact ih column hMem
  | ofColumns _ hTable ih =>
      obtain ⟨schema, -, hMade⟩ := Result.bind_eq_ok_iff.mp hTable
      intro column hMem
      rw [(Table.make_eq_ok_iff.mp hMade).2.2.2] at hMem
      obtain ⟨e, hEntry, rfl⟩ := List.mem_map.mp hMem
      exact ih e hEntry
  | emptyTable => exact fun column hMem => absurd hMem List.not_mem_nil
  | @step settings step ctx ctx' _ hRun ih =>
      cases step with
      | project names =>
          obtain ⟨indices, hProjected⟩ := Context.projected_of_project hRun
          exact fun column hMem => ih column (hProjected.mem_columns hMem)
      | filter p =>
          rw [Context.table_of_filter hRun]
          exact ih
      | materialize =>
          obtain hSame | ⟨selection, hCompacted⟩ := Context.columns_of_materialize hRun
          · rw [hSame]
            exact ih
          · intro column hMem
            obtain ⟨source, -, hSource⟩ := hCompacted column hMem
            exact hCompact hSource
  | chunkOf _ hMem ih => exact ih _ hMem
  | columnOf _ hMem ih => exact ih _ hMem

theorem Part.Built.sound {part : Part} (h : part.Built) : part.Sound :=
  h.all Chunk.sound_ofValues Chunk.sound_ofOptions Chunk.sound_ofStrings Chunk.sound_ofRaw
    Chunk.sound_empty Column.sound_of_compact

/-- The table that a plan leaves of a built one is built. -/
theorem Part.Built.execute {settings : Settings} {plan : Plan} {t : Table} {ctx : Context}
    (h : Part.Built (.table t)) (hRun : plan.execute settings t = .ok ctx) :
    Part.Built (.table ctx.table) := by
  induction plan generalizing ctx with
  | nil =>
      rw [← Except.ok.inj hRun]
      exact h
  | cons step input ih =>
      rw [Plan.execute_cons] at hRun
      obtain ⟨below, hBelow, hStep⟩ := Result.bind_eq_ok_iff.mp hRun
      exact .step (ih hBelow) hStep

/-- A table is well put together: names are told apart and found, columns have the types of
their fields and as many rows as the table, and their chunks have their type and lengths that
agree with what they hold. -/
structure Table.Sound (t : Table) : Prop where
  names_nodup : (t.schema.fields.map Field.name).Nodup
  indexOf?_iff : ∀ name i, t.schema.indexOf? name = some i ↔
    ∃ field, t.schema.field? i = some field ∧ field.name = name
  length_columns : t.columns.length = t.schema.length
  types_eq : ∀ i column field, t.columns[i]? = some column → t.schema.field? i = some field →
    column.type = field.type
  chunks_type : ∀ column ∈ t.columns, ∀ c ∈ column.chunks, c.type = column.type
  rows_eq : ∀ column ∈ t.columns, column.length = t.rowCount
  length_word : ∀ column ∈ t.columns, column.length = wordSum (column.chunks.map Chunk.length)
  length_eq : ∀ column ∈ t.columns, total (column.chunks.map Chunk.length) < 2 ^ 64 →
    column.length = total (column.chunks.map Chunk.length)
  chunks_sound : ∀ column ∈ t.columns, ∀ c ∈ column.chunks, c.Sound

/-- Every table that is built, filtered, compacted and projected in any way is well put
together. -/
theorem Part.Built.table_sound {t : Table} (h : Part.Built (.table t)) : t.Sound where
  names_nodup := t.schema.nodup
  indexOf?_iff name i := by
    constructor
    · intro hIndex
      exact Schema.field_of_indexOf? hIndex
    · rintro ⟨field, hField, rfl⟩
      exact Schema.indexOf?_of_getElem? hField
  length_columns := Table.length_columns t
  types_eq i column field hColumn hField := by
    have hFound : t.schema.fields[i]? = some field := hField
    have hTypes := congrArg (·[i]?) t.types_eq
    simpa [List.getElem?_map, hColumn, hFound] using hTypes
  chunks_type column _ := column.chunks_type
  rows_eq column hMem := Table.length_of_mem hMem
  length_word column _ := column.length_eq
  length_eq column _ hWord := column.length_eq.trans (wordSum_eq_total hWord)
  chunks_sound := h.sound

/-- Three people, with their ages in two chunks. -/
def Table.people : Table where
  schema := ⟨[{ name := "name", type := .utf8 }, { name := "age", type := .uint8 }], by decide⟩
  columns := [.ofChunk (.ofStrings ["ab", "", "c"]), .ofSlices .uint8 [[30#8], [40#8, 50#8]]]
  types_eq := rfl
  rows_eq := by decide

/-- The ages of two of them. -/
def Table.ages : Table where
  schema := ⟨[{ name := "age", type := .uint8 }], by decide⟩
  columns := [.ofSlices .uint8 [[40#8, 50#8]]]
  types_eq := rfl
  rows_eq := by decide

/-- The ages above thirty: the table is made, filtered, projected and compacted. -/
theorem Part.built_ages_sound :
    Part.Built (.table .people) ∧ Part.Built (.table .ages) ∧ Table.people.Sound ∧
      Table.ages.Sound :=
  have hPeople : Part.Built (.table .people) := by
    refine @Part.Built.make Table.people.schema Table.people.columns _ (fun column hMem => ?_)
      (by decide +kernel)
    rcases List.mem_pair.mp hMem with rfl | rfl
    · exact .ofChunk (.ofStrings _)
    · exact .ofSlices _ rfl
  have hRun : Plan.execute {} (.ofScan [.filter (.compare "age" .gt (.integer 30)),
      .project ["age"], .materialize]) .people = .ok (.ofTable .ages) := by
    decide +kernel
  have hAges : Part.Built (.table .ages) := hPeople.execute hRun
  ⟨hPeople, hAges, hPeople.table_sound, hAges.table_sound⟩

end Columnar
