import Columnar.Engine
import Columnar.Proofs.Bitmap.Conjunction
import Columnar.Proofs.Context.Failures
import Columnar.Proofs.Engine.Checked
import Columnar.Proofs.Session.Linking

/-!
# Working in a session gives the same answers

In a session, with kernels compiled and dropped and with every access checked, a filter, a
plan and a query give the answers that they have by themselves, and refuse what they refuse by
themselves, as long as kernels can be linked.  Afterwards kernels can still be linked, since
every kernel that was compiled has been dropped.

* `InSession.Answers` -- an operation has a given outcome in every session where kernels can
  be linked, and leaves such a session.
* `Context.filterIn_answers`, `Plan.toTableIn_answers` -- filters and plans on well formed
  tables.
* `Context.filterIn_of_refused` -- a predicate that is refused leaves every session alone.
-/

namespace Columnar

namespace InSession

variable {α β γ : Type}

/-- The operation has the outcome `r` wherever kernels can be linked, and they can still be
linked afterwards. -/
def Answers (x : InSession α) (r : Result α) : Prop :=
  ∀ s : Session, s.Linkable → ∃ s', x.run.run s = (r, s') ∧ s'.Linkable

/-- An operation that does not need the session. -/
theorem answers_lift (r : Result α) : Answers (liftM r) r :=
  fun s h => ⟨s, rfl, h⟩

theorem answers_pure (a : α) : Answers (pure a) (.ok a) :=
  fun s h => ⟨s, rfl, h⟩

theorem answers_throw (e : Error) : Answers (throw e : InSession α) (.error e) :=
  fun s h => ⟨s, rfl, h⟩

namespace Answers

variable {x : InSession α} {r : Result α}

/-- What comes next only matters for the answers that there are. -/
theorem bind {f : α → InSession β} {g : α → Result β} (h : Answers x r)
    (hNext : ∀ a, r = .ok a → Answers (f a) (g a)) : Answers (x >>= f) (r >>= g) := by
  intro s hLinkable
  obtain ⟨s', hRun, hLinkable'⟩ := h s hLinkable
  rw [ExceptT.run_bind, StateT.run_bind, hRun]
  cases r with
  | error e => exact ⟨s', rfl, hLinkable'⟩
  | ok a => exact hNext a rfl s' hLinkable'

/-- When two things are done, the refusal of the first one comes first. -/
theorem both {y : InSession β} {q : Result β} {f : α × β → InSession γ} {g : α → β → Result γ}
    (h : Answers x r) (h' : Answers y q) (hNext : ∀ a b, Answers (f (a, b)) (g a b)) :
    Answers (x.both y >>= f) (r >>= fun a => q >>= g a) := by
  have hBoth : Answers (x.both y) (do return (← r, ← q)) := by
    intro s hLinkable
    obtain ⟨s', hLeft, hLinkable'⟩ := h s hLinkable
    -- The right one starts in the session that the left one leaves, refused or not.
    obtain ⟨s'', hRight, hLinkable''⟩ := h' s' hLinkable'
    refine ⟨s'', ?_, hLinkable''⟩
    show (x.run >>= fun left => y.run >>= fun right => _).run s = _
    rw [StateT.run_bind, hLeft]
    show (y.run >>= fun right => _).run s' = _
    rw [StateT.run_bind, hRight]
    rfl
  have hPairs := hBoth.bind (g := fun answers => g answers.1 answers.2)
    fun answers _ => hNext answers.1 answers.2
  cases r <;> cases q <;> exact hPairs

theorem mapM {f : α → InSession β} {g : α → Result β} {l : List α}
    (h : ∀ a ∈ l, Answers (f a) (g a)) : Answers (l.mapM f) (l.mapM g) := by
  induction l with
  | nil => exact answers_pure []
  | cons a rest ih =>
      obtain ⟨hHead, hRest⟩ := List.forall_mem_cons.mp h
      rw [List.mapM_cons, List.mapM_cons]
      exact hHead.bind fun b _ => (ih hRest).bind fun bs _ => answers_pure (b :: bs)

/-- Steps that answer as long as an invariant holds, and keep it, make a run that answers. -/
theorem foldlM {f : β → α → InSession β} {g : β → α → Result β} (Inv : β → Prop) {l : List α}
    (hStep : ∀ b, ∀ a ∈ l, Inv b → Answers (f b a) (g b a) ∧ ∀ b', g b a = .ok b' → Inv b')
    {b : β} (hInv : Inv b) : Answers (l.foldlM f b) (l.foldlM g b) := by
  induction l generalizing b with
  | nil => exact answers_pure b
  | cons a rest ih =>
      obtain ⟨hHead, hKeep⟩ := hStep b a List.mem_cons_self hInv
      rw [List.foldlM_cons, List.foldlM_cons]
      exact hHead.bind fun b' hAnswer =>
        ih (fun b'' other hOther => hStep b'' other (List.mem_cons_of_mem _ hOther))
          (hKeep b' hAnswer)

end Answers

/-- Compiling a kernel, running it and dropping it gives what its program gives. -/
theorem withKernel_answers {field : Field} {p : Predicate} {body : Kernel → Result α}
    {run : Program → Result α}
    (h : ∀ k program, Program.ofPredicate field p = .ok program → k.program = .ok program →
      body k = run program) :
    Answers (withKernel field p body) (Program.ofPredicate field p >>= run) := by
  intro s hLinkable
  cases hProgram : Program.ofPredicate field p with
  | error e =>
      refine ⟨s, ?_, hLinkable⟩
      simp only [withKernel, ExceptT.run_mk, StateT.run, Kernel.compile_of_refused hProgram]
      rfl
  | ok program =>
      obtain ⟨linked, k, hCompile, hOwn, hDrop⟩ :=
        Kernel.compile_of_linkable hProgram hLinkable
      refine ⟨k.drop linked, ?_, hDrop⟩
      simp only [withKernel, ExceptT.run_mk, StateT.run, hCompile]
      rw [Result.ok_bind, h k program hProgram hOwn]

end InSession

open InSession

namespace Table

variable {t : Table} {p : Predicate}

theorem selectFieldIn_answers (hTable : t.WellFormed) (p : Predicate) (name : String) :
    Answers (t.selectFieldIn p name) (t.selectField p name) := by
  rw [selectFieldIn, selectField, Schema.fieldNamed_eq_find, columnNamed_eq_column]
  refine (answers_lift _).bind fun field hField => (answers_lift _).bind fun column hColumn => ?_
  refine withKernel_answers fun k program hProgram hOwn => ?_
  -- A field that has a program has a type of fixed width, which is the type of its column.
  obtain ⟨condition, hCondition, hSame⟩ := Result.bind_eq_ok_iff.mp hProgram
  obtain rfl := Except.ok.inj hSame
  have hNumeric := ((Condition.exists_ofPredicate_iff field p).mp ⟨condition, hCondition⟩).1
  have hFixed : field.type.isFixedWidth = true := DataType.isFixedWidth_of_isNumeric hNumeric
  have hMem := mem_of_column hColumn
  have hType : column.type = field.type := by
    obtain ⟨j, hIndex, hAt⟩ := Schema.find_eq_ok_iff.mp hField
    obtain ⟨same, hSame, hType⟩ := exists_column hAt
    rw [column_eq_ok hIndex hSame] at hColumn
    rw [← Except.ok.inj hColumn, hType]
  rw [Kernel.runChecked, hOwn, Result.ok_bind]
  exact Program.runChecked_eq_run ((hTable column hMem).filled (hType ▸ hFixed)) hType hFixed
    (length_of_mem hMem).symm

theorem selectSeparableIn_answers (hTable : t.WellFormed) (p : Predicate) :
    Answers (t.selectSeparableIn p) (t.selectSeparable p) := by
  refine (Answers.mapM fun name _ => selectFieldIn_answers hTable p name).bind
    fun answers hAnswers => ?_
  -- Bitmaps of all rows have the same number of bytes, so the reduction stays inside them.
  have hLengths : ∀ b ∈ answers, b.length = t.rowCount := fun b hb => by
    obtain ⟨name, -, hSelect⟩ := (Result.mem_of_mapM_eq_ok hAnswers b).mp hb
    exact length_of_selectField hSelect
  rw [Bitmap.andReduceChecked_eq_ok hLengths]
  cases Bitmap.andReduce? answers with
  | some b => exact answers_pure b
  | none => exact answers_throw _

/-- Both sides of a combination are run, and the combination refuses what its left side
refuses first. -/
theorem selectTreeIn_answers (hTable : t.WellFormed) (p : Predicate) :
    Answers (t.selectTreeIn p) (t.selectTree p) := by
  induction p with
  | compare column op literal => exact selectFieldIn_answers hTable _ column
  | constant value => exact answers_lift _
  | combine op lhs rhs ihl ihr =>
      rw [selectTreeIn, selectTree]
      cases (Predicate.combine op lhs rhs).columns with
      | nil => exact answers_lift _
      | cons name others =>
          cases others with
          | nil => exact selectFieldIn_answers hTable _ name
          | cons =>
              -- Several columns: the sides are run apart.
              refine ihl.both ihr fun left right => ?_
              cases op <;> exact answers_pure _

theorem selectValuesIn_answers (hTable : t.WellFormed) (p : Predicate) :
    Answers (t.selectValuesIn p) (t.selectValues p) := by
  unfold selectValuesIn selectValues
  split
  · exact answers_lift _
  · split
    · exact selectSeparableIn_answers hTable p
    · exact selectTreeIn_answers hTable p

end Table

namespace Context

variable {ctx : Context} {p : Predicate}

/-- In a session a filter gives what it gives by itself. -/
theorem filterIn_answers (hTable : ctx.table.WellFormed) (p : Predicate) :
    Answers (ctx.filterIn p) (ctx.filter p) := by
  rw [filterIn, filter, Table.validateChecked_eq_validate]
  refine (answers_lift _).bind fun _ _ => ?_
  split
  · exact answers_pure ctx
  · refine (answers_lift _).bind fun _ _ =>
      (Table.selectValuesIn_answers hTable p).bind fun values _ => ?_
    rw [Table.rejectNullsChecked_eq_rejectNulls hTable]
    refine (answers_lift _).bind fun b _ => ?_
    cases ctx.selection <;> exact answers_pure _

/-- A predicate that is refused leaves the session alone: no kernel has been compiled. -/
theorem filterIn_of_refused (hSelection : ctx.checkSelection = .ok ())
    (hChunks : ctx.table.isChunkless = false) {e : Error} (h : ctx.table.validate p = .error e)
    (s : Session) : (ctx.filterIn p).run.run s = (.error e, s) := by
  rw [filterIn, hSelection, hChunks, Table.validateChecked_eq_validate, h]
  rfl

end Context

variable {settings : Settings}

theorem Step.runIn_answers {ctx : Context} (hTable : ctx.table.WellFormed) (step : Step) :
    Answers (step.runIn settings ctx) (step.run settings ctx) := by
  cases step with
  | project names =>
      rw [runIn, Context.projectChecked_eq_project]
      exact answers_lift _
  | filter p => exact Context.filterIn_answers hTable p
  | materialize => exact answers_lift _

namespace Plan

variable {t : Table}

theorem executeIn_answers (hTable : t.WellFormed) (plan : Plan) :
    Answers (plan.executeIn settings t) (plan.execute settings t) :=
  Answers.foldlM (fun ctx => ctx.table.WellFormed)
    (fun _ step _ hInv =>
      ⟨step.runIn_answers hInv, fun _ hRun => Context.table_wellFormed_of_run hInv hRun⟩) hTable

/-- In a session a plan makes the table that it makes by itself. -/
theorem toTableIn_answers (hTable : t.WellFormed) (plan : Plan) :
    Answers (plan.toTableIn settings t) (plan.toTable settings t) := by
  refine (executeIn_answers hTable plan).bind fun ctx _ => ?_
  cases ctx.selection with
  | none => exact answers_pure ctx.table
  | some b => exact (answers_lift _).bind fun out _ => answers_pure out.table

end Plan

/-- In a session a query gives the table that it gives by itself. -/
theorem Query.executeIn_answers {q : Query} (hTable : q.table.WellFormed) :
    Answers q.executeIn q.execute :=
  Plan.toTableIn_answers hTable q.optimizedPlan

end Columnar
