import Columnar.Proofs.Kernel.Compilation
import Columnar.Proofs.Session.Records
import Mathlib.Data.List.Induction

/-!
# Sessions in use

A session is used by those who link and unlink modules by hand, by those who take kernel
numbers, and by kernels, which link a module when they are compiled and unlink it when they are
dropped.  A workspace is a session with its kernels and with what was linked in it and not
unlinked since.

* `Workspace.run` -- what a sequence of operations makes of a fresh session.
* `Workspace.Consistent.step` -- every operation keeps the session in agreement with what is
  loaded.
* `Workspace.session_in_step` -- names, refusals, handles and removals after every sequence.
-/

namespace Columnar

/-- What is done in a session.  A module is linked by hand with a list of exports, a handle may be
of any module or of none, and kernels stand in slots. -/
inductive Operation where
  | add (exports : List (String × Routine))
  | remove (handle : Handle)
  | takeNumber
  | create (field : Field) (p : Predicate)
  | compile (slot : Nat)
  | drop (slot : Nat)

/-- A session in use. -/
structure Workspace where
  session : Session := .fresh
  /-- The kernels; the slot of one that was dropped stays empty. -/
  kernels : List (Option Kernel) := []
  /-- What was linked and not unlinked since, the last module first. -/
  loaded : List Publication := []
  /-- The handles that were given out, the last one last. -/
  issued : List Handle := []

namespace Workspace

/-- The kernel in a slot. -/
def kernel? (w : Workspace) (slot : Nat) : Option Kernel := w.kernels[slot]?.join

/-- Notes a module that was linked. -/
def publish (w : Workspace) (session : Session) (m : Publication) : Workspace :=
  { w with session, loaded := m :: w.loaded, issued := w.issued ++ [m.handle] }

/-- Notes that the module of a handle was unlinked. -/
def unload (w : Workspace) (session : Session) (handle : Handle) : Workspace :=
  { w with session, loaded := w.loaded.filter (·.handle != handle) }

/-- The module that a kernel has linked, which was compiled with the next number of the session. -/
def moduleOf (w : Workspace) (k : Kernel) (linked : Linked) : Publication where
  handle := linked.handle
  exports := Kernel.exports w.session.nextKernel k.field.name
  kernel := some w.session.nextKernel

/-- Compiles the kernel in a slot; one that is refused stays as it is. -/
def compile (w : Workspace) (slot : Nat) (k : Kernel) : Workspace :=
  match k.compile w.session with
  | (session, .error _) => { w with session }
  | (session, .ok k') =>
      let w' := { w with kernels := w.kernels.set slot (some k') }
      match k'.linked with
      | none => { w' with session }
      | some linked => w'.publish session (w.moduleOf k linked)

/-- Drops the kernel in a slot. -/
def drop (w : Workspace) (slot : Nat) (k : Kernel) : Workspace :=
  let w' := { w with kernels := w.kernels.set slot none }
  match k.linked with
  | none => { w' with session := k.drop w.session }
  | some linked => w'.unload (k.drop w.session) linked.handle

/-- What one operation makes of a workspace.  A slot without a kernel is left alone. -/
def step (w : Workspace) : Operation → Workspace
  | .add exports =>
      match w.session.addModule exports with
      | .error _ => w
      | .ok (handle, session) => w.publish session { handle, exports }
  | .remove handle => w.unload (w.session.removeModule handle) handle
  | .takeNumber => { w with session := w.session.takeKernelNumber.2 }
  | .create field p => { w with kernels := w.kernels ++ [some (.new field p)] }
  | .compile slot => (w.kernel? slot).elim w (w.compile slot)
  | .drop slot => (w.kernel? slot).elim w (w.drop slot)

/-- What operations make of a fresh session, one after the other. -/
def run (ops : List Operation) : Workspace := ops.foldl step {}

/-- A kernel whose compilation fails stays as it is.  One whose compilation succeeds is compiled
from then on, and its module is loaded. -/
theorem compile_cases (w : Workspace) (slot : Nat) (k : Kernel) :
    (∃ s e, k.compile w.session = (s, .error e) ∧ w.compile slot k = { w with session := s }) ∨
    ∃ s linked, k.isCompiled = false ∧
      k.compile w.session = (s, .ok { k with linked := some linked }) ∧
      w.session.takeKernelNumber.2.addModule (Kernel.exports w.session.nextKernel k.field.name) =
        .ok (linked.handle, s) ∧
      w.compile slot k =
        { session := s
          kernels := w.kernels.set slot (some { k with linked := some linked })
          loaded := w.moduleOf k linked :: w.loaded
          issued := w.issued ++ [linked.handle] } := by
  cases hCompile : k.compile w.session with
  | mk s outcome =>
      cases outcome with
      | error e => exact .inl ⟨s, e, rfl, by rw [compile, hCompile]⟩
      | ok k' =>
          obtain ⟨linked, rfl, hNew, -, hAdd⟩ := Kernel.compile_ok hCompile
          exact .inr ⟨s, linked, hNew, rfl, hAdd, by rw [compile, hCompile]; rfl⟩

/-- Dropping a kernel empties its slot and unloads what is loaded under its handle. -/
theorem drop_eq (w : Workspace) (slot : Nat) (k : Kernel) :
    w.drop slot k =
      { session := k.drop w.session
        kernels := w.kernels.set slot none
        loaded := k.linked.elim w.loaded fun linked =>
          w.loaded.filter (·.handle != linked.handle)
        issued := w.issued } := by
  unfold drop
  split
  · next hLinked => rw [hLinked]; rfl
  · next linked hLinked => rw [hLinked]; rfl

theorem run_snoc (ops : List Operation) (op : Operation) :
    run (ops ++ [op]) = (run ops).step op := by
  rw [run, List.foldl_append]
  rfl

variable {w : Workspace}

/-- The session of the workspace agrees with what is loaded and issued. -/
def Consistent (w : Workspace) : Prop := w.session.Records w.loaded w.issued

/-- What an operation can do to a workspace. -/
inductive Moves (w : Workspace) : Operation → Workspace → Prop
  /-- The module is refused, or the slot has no kernel. -/
  | idle (op : Operation) : Moves w op w
  | add (exports : List (String × Routine)) (handle : Handle) (s : Session) :
      w.session.addModule exports = .ok (handle, s) →
      Moves w (.add exports) (w.publish s { handle, exports })
  | remove (handle : Handle) :
      Moves w (.remove handle) (w.unload (w.session.removeModule handle) handle)
  | takeNumber : Moves w .takeNumber { w with session := w.session.takeKernelNumber.2 }
  | create (field : Field) (p : Predicate) :
      Moves w (.create field p) { w with kernels := w.kernels ++ [some (.new field p)] }
  | failed (slot : Nat) (k : Kernel) (s : Session) (e : Error) : w.kernel? slot = some k →
      k.compile w.session = (s, .error e) → Moves w (.compile slot) { w with session := s }
  | compiled (slot : Nat) (k : Kernel) (s : Session) (linked : Linked) :
      w.kernel? slot = some k → k.isCompiled = false →
      w.session.takeKernelNumber.2.addModule (Kernel.exports w.session.nextKernel k.field.name) =
        .ok (linked.handle, s) →
      Moves w (.compile slot)
        { session := s
          kernels := w.kernels.set slot (some { k with linked := some linked })
          loaded := w.moduleOf k linked :: w.loaded
          issued := w.issued ++ [linked.handle] }
  | dropped (slot : Nat) (k : Kernel) : w.kernel? slot = some k →
      Moves w (.drop slot)
        { session := k.drop w.session
          kernels := w.kernels.set slot none
          loaded := k.linked.elim w.loaded fun linked =>
            w.loaded.filter (·.handle != linked.handle)
          issued := w.issued }

theorem moves (w : Workspace) (op : Operation) : w.Moves op (w.step op) := by
  cases op with
  | add exports =>
      rw [step]
      split
      · exact .idle _
      · next handle s hAdd => exact .add exports handle s hAdd
  | remove handle => exact .remove handle
  | takeNumber => exact .takeNumber
  | create field p => exact .create field p
  | compile slot =>
      rw [step]
      cases hKernel : w.kernel? slot with
      | none => exact .idle _
      | some k =>
          rw [Option.elim_some]
          obtain ⟨s, e, hCompile, hSame⟩ | ⟨s, linked, hNew, -, hAdd, hMade⟩ :=
            w.compile_cases slot k
          · rw [hSame]
            exact .failed slot k s e hKernel hCompile
          · rw [hMade]
            exact .compiled slot k s linked hKernel hNew hAdd
  | drop slot =>
      rw [step]
      cases hKernel : w.kernel? slot with
      | none => exact .idle _
      | some k =>
          rw [Option.elim_some, drop_eq]
          exact .dropped slot k hKernel

/-- Every operation keeps the session in agreement with what is loaded. -/
theorem Consistent.step (h : w.Consistent) (op : Operation) : (w.step op).Consistent := by
  have hMoves := w.moves op
  generalize w.step op = w' at hMoves ⊢
  cases hMoves with
  | idle => exact h
  | add exports handle s hAdd => exact Session.Records.addModule h hAdd none
  | remove handle => exact Session.Records.removeModule h handle
  | takeNumber => exact Session.Records.takeKernelNumber h
  | create field p => exact h
  | failed slot k s e hKernel hCompile =>
      obtain ⟨hModules, hSymbols, hNext⟩ := Kernel.compile_error hCompile
      exact h.congr hModules hSymbols hNext
  | compiled slot k s linked hKernel hNew hAdd =>
      exact Session.Records.addModule (Session.Records.takeKernelNumber h) hAdd _
  | dropped slot k hKernel =>
      rw [Kernel.drop]
      cases k.linked with
      | none => exact h
      | some linked => exact Session.Records.removeModule h linked.handle

theorem consistent_run (ops : List Operation) : (run ops).Consistent := by
  induction ops using List.reverseRecOn with
  | nil => exact Session.records_fresh
  | append_singleton ops op ih =>
      rw [run_snoc]
      exact ih.step op

/-- The names that resolve are those of the loaded modules.  Each is the name of one of them, who
owns it, and stands for the last routine that this module lists under it. -/
structure Resolves (w : Workspace) : Prop where
  find_iff : ∀ name, (∃ routine, w.session.find name = .ok routine) ↔
    ∃ m ∈ w.loaded, name ∈ m.names
  owner?_iff : ∀ name, (∃ handle, w.session.owner? name = some handle) ↔
    ∃ m ∈ w.loaded, name ∈ m.names
  unique : ∀ m ∈ w.loaded, ∀ m' ∈ w.loaded, ∀ name, name ∈ m.names → name ∈ m'.names → m = m'
  owner?_eq : ∀ m ∈ w.loaded, ∀ name ∈ m.names, w.session.owner? name = some m.handle
  find_eq : ∀ m ∈ w.loaded, ∀ name ∈ m.names, ∃ routine,
    Session.published? m.exports name = some routine ∧ w.session.find name = .ok routine

/-- A module is refused exactly when one of its names resolves, and then nothing changes. -/
structure Refuses (w : Workspace) : Prop where
  error_iff : ∀ exports, (∃ e, w.session.addModule exports = .error e) ↔
    ∃ name ∈ exports.map Prod.fst, ∃ routine, w.session.find name = .ok routine
  unchanged : ∀ exports e, w.session.addModule exports = .error e → w.step (.add exports) = w

/-- Handles are given out as 1, 2, 3 and so on, each to one module. -/
structure Counts (w : Workspace) : Prop where
  issued_eq : w.issued = (List.range w.issued.length).map fun i => ⟨i + 1⟩
  issued_nodup : w.issued.Nodup
  next : ∀ exports handle session, w.session.addModule exports = .ok (handle, session) →
    handle = ⟨w.issued.length + 1⟩
  mem_issued : ∀ m ∈ w.loaded, m.handle ∈ w.issued
  handles_nodup : (w.loaded.map Publication.handle).Nodup

/-- A module that is removed takes its own names along and no others, a handle without a module
changes nothing, and what is loaded is counted. -/
structure Removes (w : Workspace) : Prop where
  own : ∀ m ∈ w.loaded, ∀ name ∈ m.names,
    (w.session.removeModule m.handle).owner? name = none ∧
      (w.session.removeModule m.handle).find name =
        .error (.linkage s!"unresolved symbol '{name}'")
  others : ∀ handle name, (∀ m ∈ w.loaded, m.handle = handle → name ∉ m.names) →
    (w.session.removeModule handle).owner? name = w.session.owner? name ∧
      (w.session.removeModule handle).find name = w.session.find name
  unknown : ∀ handle, (∀ m ∈ w.loaded, m.handle ≠ handle) →
    w.session.removeModule handle = w.session
  again : ∀ handle, (w.session.removeModule handle).removeModule handle =
    w.session.removeModule handle
  contains_iff : ∀ handle, w.session.contains handle = true ↔ ∃ m ∈ w.loaded, m.handle = handle
  moduleCount_eq : w.session.moduleCount = w.loaded.length

theorem Consistent.resolves (h : w.Consistent) : w.Resolves := by
  have hFind : ∀ m ∈ w.loaded, ∀ name ∈ m.names, ∃ routine,
      Session.published? m.exports name = some routine ∧ w.session.find name = .ok routine ∧
        w.session.owner? name = some m.handle := by
    intro m hMem name hName
    obtain ⟨entry, hEntry⟩ := Publication.exists_symbol?_of_mem_names hName
    obtain ⟨hOwner, hRoutine⟩ := Publication.symbol?_eq_some_iff.mp hEntry
    have hFound := (Session.Records.lookup?_of_mem h hMem hName).trans hEntry
    refine ⟨entry.routine, hRoutine, by rw [Session.find, hFound], ?_⟩
    rw [Session.owner?, hFound, Option.map_some, hOwner]
  have hNone : ∀ name, (¬ ∃ m ∈ w.loaded, name ∈ m.names) → w.session.lookup? name = none :=
    fun name hOther => Session.Records.lookup?_eq_none h fun m hMem hName =>
      hOther ⟨m, hMem, hName⟩
  constructor
  case find_iff =>
    intro name
    constructor
    · rintro ⟨routine, hRoutine⟩
      by_contra hOther
      rw [Session.find, hNone name hOther] at hRoutine
      cases hRoutine
    · rintro ⟨m, hMem, hName⟩
      obtain ⟨routine, -, hRoutine, -⟩ := hFind m hMem name hName
      exact ⟨routine, hRoutine⟩
  case owner?_iff =>
    intro name
    constructor
    · rintro ⟨handle, hHandle⟩
      by_contra hOther
      rw [Session.owner?, hNone name hOther] at hHandle
      cases hHandle
    · rintro ⟨m, hMem, hName⟩
      obtain ⟨-, -, -, hOwner⟩ := hFind m hMem name hName
      exact ⟨m.handle, hOwner⟩
  case unique =>
    exact fun m hMem m' hMem' name => Session.Records.eq_of_mem_names h hMem hMem'
  case owner?_eq =>
    intro m hMem name hName
    obtain ⟨-, -, -, hOwner⟩ := hFind m hMem name hName
    exact hOwner
  case find_eq =>
    intro m hMem name hName
    obtain ⟨routine, hPublished, hRoutine, -⟩ := hFind m hMem name hName
    exact ⟨routine, hPublished, hRoutine⟩

theorem Consistent.refuses (h : w.Consistent) : w.Refuses where
  error_iff exports := by
    rw [Session.exists_addModule_eq_error_iff]
    exact exists_congr fun name => and_congr_right fun _ =>
      (Session.Records.resolves_iff h name).trans (h.resolves.find_iff name).symm
  unchanged exports e hError := by rw [Workspace.step, hError]

theorem Consistent.counts (h : w.Consistent) : w.Counts where
  issued_eq := h.issued_eq
  issued_nodup := by
    rw [h.issued_eq]
    refine List.Nodup.map (fun i j hij => ?_) List.nodup_range
    exact Nat.succ.inj (congrArg Handle.number hij)
  next exports handle session hAdd := by
    rw [(Session.links_of_addModule hAdd).2.1, h.nextHandle_eq]
  mem_issued := h.mem_issued
  handles_nodup := h.handles_nodup

theorem Consistent.removes (h : w.Consistent) : w.Removes := by
  have hRemoved := fun handle => Session.Records.removeModule h handle
  constructor
  case own =>
    intro m hMem name hName
    have hNone : (w.session.removeModule m.handle).lookup? name = none := by
      refine (hRemoved m.handle).lookup?_eq_none fun other hOther hName' => ?_
      obtain ⟨hOther, hHandle⟩ := List.mem_filter.mp hOther
      obtain rfl := Session.Records.eq_of_mem_names h hOther hMem hName' hName
      exact bne_iff_ne.mp hHandle rfl
    exact ⟨by rw [Session.owner?, hNone]; rfl, by rw [Session.find, hNone]⟩
  case others =>
    intro handle name hOther
    have hSame : (w.session.removeModule handle).lookup? name = w.session.lookup? name := by
      refine Option.ext fun entry => ?_
      rw [(hRemoved handle).lookup?_eq_some_iff, h.lookup?_eq_some_iff]
      refine exists_congr fun m => and_congr_left fun hEntry => ?_
      refine List.mem_filter.trans (and_iff_left_of_imp fun hMem => bne_iff_ne.mpr ?_)
      exact fun hHandle => hOther m hMem hHandle (Publication.mem_names_of_symbol? hEntry)
    exact ⟨by rw [Session.owner?, hSame, Session.owner?],
      by rw [Session.find, hSame, Session.find]⟩
  case unknown => exact fun handle => Session.Records.removeModule_eq_self h
  case again =>
    intro handle
    refine (hRemoved handle).removeModule_eq_self fun m hMem => ?_
    exact bne_iff_ne.mp (List.mem_filter.mp hMem).2
  case contains_iff =>
    intro handle
    rw [Session.contains, h.modules_eq, List.any_map, List.any_eq_true]
    simp [Publication.record]
  case moduleCount_eq => rw [Session.moduleCount, h.modules_eq, List.length_map]

/-- After every sequence of operations on a fresh session the symbol table is what the loaded
modules publish. -/
theorem session_in_step (ops : List Operation) :
    (run ops).Resolves ∧ (run ops).Refuses ∧ (run ops).Counts ∧ (run ops).Removes :=
  have h := consistent_run ops
  ⟨h.resolves, h.refuses, h.counts, h.removes⟩

/-- Of two routines that a module lists under one name the last one counts. -/
example : (run [.add [("a", .constant 1), ("a", .constant 2)]]).session.find "a" =
    .ok (.constant 2) := by
  decide

end Workspace

end Columnar
