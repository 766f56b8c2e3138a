import Columnar.Proofs.Kernel.Names
import Columnar.Proofs.Session.Symbols

/-!
# Compiling a kernel

Compiling a kernel ends in one of four ways: it was compiled before, its predicate is refused,
its module is refused, or its module is linked.  A number is taken in the last two only.  The
names of a module that is linked resolve, so that it is never unlinked again for want of them.

* `Kernel.resolve_of_addModule` -- the passes of a kernel are found once its module is linked.
* `Kernel.compiles` -- one of the four is what happens.
* `Kernel.compile_error`, `Kernel.compile_ok` -- what a failure leaves alone, and what a success
  links.
* `Kernel.compile_of_program` -- whether a new kernel of a program is compiled.
* `Kernel.nextKernel_compile` -- a new kernel of a program takes one number.
-/

namespace Columnar

namespace Kernel

theorem isCompiled_eq_false_iff {k : Kernel} : k.isCompiled = false ↔ k.linked = none := by
  rw [isCompiled, Option.isSome_eq_false_iff, Option.isNone_iff_eq_none]

/-- The bulk pass is what a kernel publishes under the first of its names. -/
theorem published?_bulkName (number : Nat) (field : String) :
    Session.published? (exports number field) (bulkName number field) = some (.bulk number) := by
  show List.lookup (bulkName number field)
    [(boundaryName number field, Routine.boundary number),
      (bulkName number field, Routine.bulk number)] = _
  rw [Session.lookup_cons_eq, if_neg bulkName_ne_boundaryName, Session.lookup_cons_eq, if_pos rfl]

/-- The boundary pass is what it publishes under the second one. -/
theorem published?_boundaryName (number : Nat) (field : String) :
    Session.published? (exports number field) (boundaryName number field) =
      some (.boundary number) := by
  show List.lookup (boundaryName number field)
    [(boundaryName number field, Routine.boundary number),
      (bulkName number field, Routine.bulk number)] = _
  rw [Session.lookup_cons_eq, if_pos rfl]

/-- Once the module of a kernel is linked both of its passes are found.  So a compilation never
comes to unlink the module. -/
theorem resolve_of_addModule {number : Nat} {field : String} {s linked : Session} {handle : Handle}
    (h : s.addModule (exports number field) = .ok (handle, linked)) :
    resolve number field linked = .ok (.bulk number, .boundary number) := by
  rw [resolve, Session.find_of_addModule h (published?_bulkName number field),
    Session.find_of_addModule h (published?_boundaryName number field)]
  rfl

/-- The two passes of a kernel are found under its names, and the module of a handle owns both. -/
structure Stands (number : Nat) (field : String) (handle : Handle) (s : Session) : Prop where
  find_bulk : s.find s!"filter_{number}_{field}" = .ok (.bulk number)
  find_boundary : s.find s!"filter_remaining_{number}_{field}" = .ok (.boundary number)
  owner?_bulk : s.owner? s!"filter_{number}_{field}" = some handle
  owner?_boundary : s.owner? s!"filter_remaining_{number}_{field}" = some handle

/-- Nothing is found under the names of a kernel. -/
def Gone (number : Nat) (field : String) (s : Session) : Prop :=
  ∀ name ∈ names number field, s.owner? name = none ∧
    s.find name = .error (.linkage s!"unresolved symbol '{name}'")

/-- The ways in which compiling a kernel ends. -/
inductive Compiles (k : Kernel) (s : Session) : Session × Result Kernel → Prop
  /-- It was compiled before. -/
  | again : k.isCompiled = true → k.Compiles s (s, .error .kernelAlreadyCompiled)
  /-- Its predicate is refused, and no number is taken. -/
  | refused (e : Error) : k.isCompiled = false →
      Program.ofPredicate k.field k.predicate = .error e → k.Compiles s (s, .error e)
  /-- A number is taken, and one of its names is not free. -/
  | taken (program : Program) (e : Error) : k.isCompiled = false →
      Program.ofPredicate k.field k.predicate = .ok program →
      s.takeKernelNumber.2.addModule (exports s.nextKernel k.field.name) = .error e →
      k.Compiles s (s.takeKernelNumber.2, .error e)
  /-- A number is taken, and its module is linked. -/
  | linked (program : Program) (handle : Handle) (linked : Session) : k.isCompiled = false →
      Program.ofPredicate k.field k.predicate = .ok program →
      s.takeKernelNumber.2.addModule (exports s.nextKernel k.field.name) = .ok (handle, linked) →
      k.Compiles s (linked, .ok { k with linked := some { handle, program } })

theorem compiles (k : Kernel) (s : Session) : k.Compiles s (k.compile s) := by
  unfold compile
  split
  · next hCompiled => exact .again hCompiled
  · next hCompiled =>
      have hNew := Bool.eq_false_iff.mpr hCompiled
      split
      · next e hProgram => exact .refused e hNew hProgram
      · next program hProgram =>
          dsimp only [Session.takeKernelNumber]
          split
          · next e hAdd => exact .taken program e hNew hProgram hAdd
          · next handle linked hAdd =>
              rw [resolve_of_addModule hAdd]
              exact .linked program handle linked hNew hProgram hAdd

/-- A compilation that fails leaves the modules, their names and the next handle. -/
theorem compile_error {k : Kernel} {s s' : Session} {e : Error}
    (h : k.compile s = (s', .error e)) :
    s'.modules = s.modules ∧ s'.symbols = s.symbols ∧ s'.nextHandle = s.nextHandle := by
  have hCompiles := k.compiles s
  rw [h] at hCompiles
  cases hCompiles with
  | again => exact ⟨rfl, rfl, rfl⟩
  | refused => exact ⟨rfl, rfl, rfl⟩
  | taken => exact ⟨rfl, rfl, rfl⟩

/-- A compilation that succeeds links the module of the number that it takes. -/
theorem compile_ok {k k' : Kernel} {s s' : Session} (h : k.compile s = (s', .ok k')) :
    ∃ linked, k' = { k with linked := some linked } ∧ k.isCompiled = false ∧
      Program.ofPredicate k.field k.predicate = .ok linked.program ∧
      s.takeKernelNumber.2.addModule (exports s.nextKernel k.field.name) =
        .ok (linked.handle, s') := by
  have hCompiles := k.compiles s
  rw [h] at hCompiles
  cases hCompiles with
  | linked program handle _ hNew hProgram hAdd =>
      exact ⟨⟨handle, program⟩, rfl, hNew, hProgram, hAdd⟩

/-- A new kernel of a program is compiled exactly when its module is linked. -/
theorem compile_of_program {k : Kernel} {s : Session} {program : Program}
    (hNew : k.isCompiled = false)
    (hProgram : Program.ofPredicate k.field k.predicate = .ok program) :
    (∃ e, s.takeKernelNumber.2.addModule (exports s.nextKernel k.field.name) = .error e ∧
      k.compile s = (s.takeKernelNumber.2, .error e)) ∨
    ∃ handle linked,
      s.takeKernelNumber.2.addModule (exports s.nextKernel k.field.name) = .ok (handle, linked) ∧
      k.compile s = (linked, .ok { k with linked := some { handle, program } }) := by
  have hCompiles := k.compiles s
  generalize k.compile s = outcome at hCompiles
  cases hCompiles with
  | again hCompiled => rw [hNew] at hCompiled; cases hCompiled
  | refused e _ hRefused => rw [hProgram] at hRefused; cases hRefused
  | taken _ e _ _ hAdd => exact .inl ⟨e, hAdd, rfl⟩
  | linked other handle linked _ hOther hAdd =>
      obtain rfl := Except.ok.inj (hProgram.symm.trans hOther)
      exact .inr ⟨handle, linked, hAdd, rfl⟩

theorem compile_of_addModule {k : Kernel} {s linked : Session} {program : Program} {handle : Handle}
    (hNew : k.isCompiled = false) (hProgram : Program.ofPredicate k.field k.predicate = .ok program)
    (hAdd : s.takeKernelNumber.2.addModule (exports s.nextKernel k.field.name) =
      .ok (handle, linked)) :
    k.compile s = (linked, .ok { k with linked := some { handle, program } }) := by
  obtain ⟨e, hRefused, -⟩ | ⟨handle', linked', hLinked, hCompile⟩ := compile_of_program hNew hProgram
  · rw [hAdd] at hRefused
    cases hRefused
  · obtain ⟨rfl, rfl⟩ := Prod.mk.inj (Except.ok.inj (hAdd.symm.trans hLinked))
    exact hCompile

/-- The compilation of a new kernel of a program fails exactly when its module is refused. -/
theorem exists_compile_eq_error_iff {k : Kernel} {s : Session} {program : Program}
    (hNew : k.isCompiled = false)
    (hProgram : Program.ofPredicate k.field k.predicate = .ok program) :
    (∃ e, (k.compile s).2 = .error e) ↔
      ∃ e, s.takeKernelNumber.2.addModule (exports s.nextKernel k.field.name) = .error e := by
  obtain ⟨e, hAdd, hCompile⟩ | ⟨handle, linked, hAdd, hCompile⟩ := compile_of_program hNew hProgram
  · exact iff_of_true ⟨e, by rw [hCompile]⟩ ⟨e, hAdd⟩
  · rw [hCompile, hAdd]
    exact iff_of_false nofun nofun

/-- A new kernel of a program takes one number, whether or not its module is linked. -/
theorem nextKernel_compile {k : Kernel} {s : Session} {program : Program}
    (hNew : k.isCompiled = false)
    (hProgram : Program.ofPredicate k.field k.predicate = .ok program) :
    (k.compile s).1.nextKernel = s.nextKernel + 1 := by
  obtain ⟨e, -, hCompile⟩ | ⟨handle, linked, hAdd, hCompile⟩ := compile_of_program hNew hProgram
  · rw [hCompile]
    rfl
  · rw [hCompile]
    exact (Session.links_of_addModule hAdd).2.2.nextKernel_eq

theorem nextKernel_le_compile (k : Kernel) (s : Session) :
    s.nextKernel ≤ (k.compile s).1.nextKernel := by
  have hCompiles := k.compiles s
  generalize k.compile s = outcome at hCompiles
  cases hCompiles with
  | again => exact Nat.le_refl _
  | refused => exact Nat.le_refl _
  | taken => exact Nat.le_succ _
  | linked program handle linked hNew hProgram hAdd =>
      rw [(Session.links_of_addModule hAdd).2.2.nextKernel_eq]
      exact Nat.le_succ _

end Kernel

end Columnar
