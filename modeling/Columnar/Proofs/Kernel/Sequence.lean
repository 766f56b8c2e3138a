import Columnar.Kernel.Basic
import Columnar.Proofs.Kernel.Compilation
import Columnar.Proofs.Kernel.Interleaving
import Columnar.Proofs.Kernel.Restriction
import Columnar.Proofs.Kernel.Run

/-!
# Running compiled kernels over columns

A compiled kernel is run over a column of its type and narrows a bitmap to the rows whose
words it accepts, whichever pass decides a row and wherever the chunks are cut.  Kernels that
are run one after the other leave the conjunction of what they accept, in every order.

* `Kernel.fixed_of_compiled` -- a compiled kernel has a program for a field of fixed width.
* `Kernel.runAll_eq_ok_masked` -- running kernels over filled columns applies all their masks.
* `Kernel.runAll_narrows` -- what is left of the bitmap, row by row.
* `Kernel.run_wrapped` -- over a chunk that does not hold the elements which it announces a
  kernel need not decide anything.
-/

namespace Columnar

namespace Kernel

/-- The kernels that compiling makes, in any session. -/
def Compiled (k : Kernel) : Prop :=
  ∃ field p s, ((new field p).compile s).2 = .ok k

/-- Whether the program of a kernel accepts a word. -/
def accepts (k : Kernel) (w : Nat) : Bool :=
  k.linked.any fun linked => linked.program.condition.holds w

/-- Runs a kernel over a column. -/
def run (k : Kernel) (column : Column) (b : Bitmap) : Result Bitmap := do
  (← k.program).run column b

/-- Runs kernels one after the other on one bitmap, each over its column. -/
def runAll (jobs : List (Kernel × Column)) (b : Bitmap) : Result Bitmap :=
  jobs.foldlM (fun b job => job.1.run job.2 b) b

/-- `b'` is `b` narrowed to the rows whose words all kernels accept, and its padding is that
of `b`. -/
structure Narrows (jobs : List (Kernel × Column)) (b b' : Bitmap) : Prop where
  length_eq : b'.length = b.length
  get_row : ∀ i < b.length,
    b'.get i = (b.get i && jobs.all fun job => (job.2.word? i).any job.1.accepts)
  get_padding : ∀ i, b.length ≤ i → b'.get i = b.get i

/-- A compiled kernel has the program of its predicate for its field. -/
theorem program_of_compiled {k : Kernel} (h : k.Compiled) :
    ∃ linked, k.linked = some linked ∧
      Program.ofPredicate k.field k.predicate = .ok linked.program := by
  obtain ⟨field, p, s, hCompile⟩ := h
  obtain ⟨linked, rfl, -, hProgram, -⟩ := compile_ok (Prod.ext rfl hCompile)
  exact ⟨linked, rfl, hProgram⟩

/-- A compiled kernel has a program for its field, which has a fixed width. -/
theorem fixed_of_compiled {k : Kernel} (h : k.Compiled) :
    ∃ linked, k.linked = some linked ∧ linked.program.field = k.field ∧
      k.field.type.isFixedWidth = true := by
  obtain ⟨linked, hLinked, hProgram⟩ := program_of_compiled h
  obtain ⟨c, hCondition, hMake⟩ := Result.bind_eq_ok_iff.mp hProgram
  have hMade : { field := k.field, condition := c } = linked.program := Except.ok.inj hMake
  have hAdmits := (Condition.exists_ofPredicate_iff k.field k.predicate).mp ⟨c, hCondition⟩
  exact ⟨linked, hLinked, by rw [← hMade], DataType.isFixedWidth_of_isNumeric hAdmits.1⟩

/-- The masks of a kernel over a column; one that is not compiled has none. -/
def passMasks (k : Kernel) (column : Column) : List ByteMask :=
  match k.linked with
  | some linked => linked.program.passMasks column
  | none => []

/-- A compiled kernel may be run over a filled column of its type that has the rows of the
bitmap. -/
structure Fits (k : Kernel) (column : Column) (b : Bitmap) : Prop where
  compiled : k.Compiled
  filled : column.Filled
  type_eq : column.type = k.field.type
  length_eq : column.length = b.length

variable {k : Kernel} {column : Column} {b : Bitmap} {jobs : List (Kernel × Column)}

theorem run_eq_ok_masked (h : k.Fits column b) (b' : Bitmap) :
    k.run column b' = .ok (b'.masked (k.passMasks column)) := by
  obtain ⟨linked, hLinked, hField, hFixed⟩ := fixed_of_compiled h.compiled
  rw [← hField] at hFixed
  have hRun := Program.run_eq_ok_masked h.filled (h.type_eq.trans (by rw [hField])) hFixed b'
  rw [run, program, hLinked, passMasks, hLinked, ← hRun]
  rfl

/-- Of the rows of a column a kernel keeps those whose word it accepts. -/
theorem keeps_passMasks_iff (h : k.Fits column b) (i : Nat) :
    ByteMask.Keeps (k.passMasks column) i ↔
      ∀ w, column.word? i = some w → k.accepts w = true := by
  obtain ⟨linked, hLinked, hField, hFixed⟩ := fixed_of_compiled h.compiled
  have hAccepts : k.accepts = linked.program.condition.holds := by
    funext w
    simp [accepts, hLinked]
  rw [passMasks, hLinked, hAccepts]
  exact Program.keeps_passMasks_iff h.filled (h.type_eq ▸ hFixed) i

/-- Every row of the bitmap has a word in the column. -/
theorem Fits.exists_word? (h : k.Fits column b) {i : Nat} (hi : i < b.length) :
    ∃ w, column.word? i = some w :=
  h.filled.exists_word? (by rw [h.length_eq]; exact hi)

theorem runAll_cons (job : Kernel × Column) (jobs : List (Kernel × Column)) (b : Bitmap) :
    runAll (job :: jobs) b = job.1.run job.2 b >>= runAll jobs :=
  List.foldlM_cons

/-- Kernels that are run one after the other apply their masks one after the other. -/
theorem runAll_eq_ok_masked (h : ∀ job ∈ jobs, job.1.Fits job.2 b) (b' : Bitmap) :
    runAll jobs b' = .ok (b'.masked (jobs.flatMap fun job => job.1.passMasks job.2)) := by
  induction jobs generalizing b' with
  | nil => rfl
  | cons job rest ih =>
      rw [runAll_cons, run_eq_ok_masked (h job List.mem_cons_self), Result.ok_bind,
        ih fun other hOther => h other (List.mem_cons_of_mem _ hOther), List.flatMap_cons,
        ← Bitmap.masked_append]

/-- Kernels narrow a bitmap to the rows that all of them accept. -/
theorem narrows_masked (h : ∀ job ∈ jobs, job.1.Fits job.2 b) :
    Narrows jobs b (b.masked (jobs.flatMap fun job => job.1.passMasks job.2)) := by
  have hKeeps : ∀ i, ByteMask.Keeps (jobs.flatMap fun job => job.1.passMasks job.2) i ↔
      ∀ job ∈ jobs, ∀ w, job.2.word? i = some w → job.1.accepts w = true := fun i => by
    rw [List.flatMap_def, ByteMask.keeps_flatten_iff, List.forall_mem_map]
    exact forall₂_congr fun job hJob => keeps_passMasks_iff (h job hJob) i
  constructor
  case length_eq => exact b.length_masked _
  case get_row =>
    intro i hi
    rw [Bool.eq_iff_iff, Bitmap.get_masked_iff, hKeeps, Bool.and_eq_true, List.all_eq_true]
    refine and_congr_right fun _ => forall₂_congr fun job hJob => ?_
    obtain ⟨w, hWord⟩ := (h job hJob).exists_word? hi
    simp [hWord]
  case get_padding =>
    -- Past the last row no column has a word.
    intro i hi
    rw [Bool.eq_iff_iff, Bitmap.get_masked_iff, hKeeps]
    refine and_iff_left fun job hJob w hWord => ?_
    have hNone := ((h job hJob).filled.word?_eq_none_iff i).mpr
      (by rw [(h job hJob).length_eq]; exact hi)
    exact absurd (hNone.symm.trans hWord) (by simp)

/-- Every compiled kernel runs over every filled column of its type, and leaves the rows of
the bitmap whose word it accepts.  Kernels that are run over columns one after the other
leave, in every order, the rows that all of them accept; every row of the columns has a
word. -/
theorem runAll_narrows (h : ∀ job ∈ jobs, job.1.Fits job.2 b) :
    (∀ job ∈ jobs, ∃ b', job.1.run job.2 b = .ok b' ∧ Narrows [job] b b') ∧
      (∃ b', (∀ order, order.Perm jobs → runAll order b = .ok b') ∧ Narrows jobs b b') ∧
      ∀ job ∈ jobs, ∀ i < b.length, (job.2.word? i).isSome = true := by
  refine ⟨fun job hJob => ⟨_, run_eq_ok_masked (h job hJob) b, ?_⟩,
    ⟨_, fun order hOrder => ?_, narrows_masked h⟩, fun job hJob i hi => ?_⟩
  · have hFits : ∀ other ∈ [job], other.1.Fits other.2 b := fun other hOther => by
      obtain rfl := List.mem_singleton.mp hOther
      exact h _ hJob
    have hOne := narrows_masked hFits
    rwa [List.flatMap_cons, List.flatMap_nil, List.append_nil] at hOne
  · rw [runAll_eq_ok_masked (b := b) fun job hJob => h job (hOrder.mem_iff.mp hJob),
      Bitmap.masked_perm b (hOrder.flatMap_right _)]
  · exact Option.isSome_iff_exists.mpr ((h job hJob).exists_word? hi)

/-- The kernel of one comparison, compiled in a fresh session. -/
def comparing (field : Field) (op : Comparison) (l : Literal) (test : Test) : Kernel where
  field := field
  predicate := .compare field.name op l
  linked := some { handle := ⟨1⟩, program := { field, condition := .test test } }

/-- `3 <= v`. -/
def fromThree : Kernel :=
  comparing { name := "v", type := .uint8 } .ge (.integer 3) (.integer false 8 .ge 3#8)

/-- `v < 30`. -/
def belowThirty : Kernel :=
  comparing { name := "v", type := .uint8 } .lt (.integer 30) (.integer false 8 .lt 30#8)

/-- Both kernels over the numbers below 37, one after the other. -/
theorem runAll_uneven_narrows :
    ∃ b', (∀ order, order.Perm [(fromThree, .uneven), (belowThirty, .uneven)] →
        runAll order (.allSet 37) = .ok b') ∧
      Narrows [(fromThree, .uneven), (belowThirty, .uneven)] (.allSet 37) b' := by
  have hLength : Column.uneven.length = 37 := by decide +kernel
  have hFits : ∀ job ∈ [(fromThree, Column.uneven), (belowThirty, Column.uneven)],
      job.1.Fits job.2 (.allSet 37) := by
    intro job hJob
    rcases List.mem_pair.mp hJob with rfl | rfl
    · exact ⟨⟨fromThree.field, fromThree.predicate, .fresh, rfl⟩, Column.filled_uneven, rfl,
        hLength⟩
    · exact ⟨⟨belowThirty.field, belowThirty.predicate, .fresh, rfl⟩, Column.filled_uneven, rfl,
        hLength⟩
  exact (runAll_narrows hFits).2.1

/-- `4 < a`. -/
def aboveFour : Kernel :=
  comparing { name := "a", type := .int16 } .gt (.integer 4) (.integer true 16 .gt 4#16)

end Kernel

/-- The numbers from one to eight in a chunk that announces `2 ^ 63` elements more, and a
chunk without bytes that announces as many.  Both are accepted, as the products of their
lengths with the width wrap. -/
def Column.wrapped : Column where
  type := .int16
  chunks := [⟨.int16, 2 ^ 63 + 8, #[1, 0, 2, 0, 3, 0, 4, 0, 5, 0, 6, 0, 7, 0, 8, 0], #[], none⟩,
    ⟨.int16, 2 ^ 63, #[], #[], none⟩]
  chunks_type := by simp

/-- A column need not be filled to be accepted, and then a kernel over it need not decide its
rows: here it leaves all eight, and the first four are not above four. -/
theorem Kernel.run_wrapped :
    aboveFour.Compiled ∧ Column.wrapped.type = aboveFour.field.type ∧
      (∀ c ∈ Column.wrapped.chunks,
        Chunk.ofRaw c.type c.length c.bytes c.validity = .ok c) ∧
      Column.wrapped.length = (Bitmap.allSet 8).length ∧
      aboveFour.run .wrapped (.allSet 8) = .ok (.allSet 8) ∧
      ¬ Narrows [(aboveFour, .wrapped)] (.allSet 8) (.allSet 8) := by
  refine ⟨⟨aboveFour.field, aboveFour.predicate, .fresh, rfl⟩, rfl, by decide +kernel,
    by decide +kernel, by rfl, fun h => ?_⟩
  exact absurd (h.get_row 0 (by decide)) (by decide +kernel)

end Columnar
