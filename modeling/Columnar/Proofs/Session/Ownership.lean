import Columnar.Proofs.Kernel.Names
import Columnar.Proofs.Session.Workspace

/-!
# Kernels and their modules

A compiled kernel remembers a handle and nothing else of its module.  Handles and numbers are
given out once, so that what is loaded under the handle is the module of this kernel, published
under the names of its number, and no other kernel has the handle or the number.

* `Workspace.Kept` -- what the kernels of a workspace have to do with its modules.
* `Workspace.Kept.publish` -- a new module, made by hand or for a kernel, keeps this.
* `Workspace.kept_run` -- it holds after every sequence of operations.
-/

namespace Columnar

namespace Workspace

variable {w w' : Workspace} {slot : Nat} {k k' : Kernel} {linked : Linked}

/-- The kernel in a slot is compiled. -/
def Compiled (w : Workspace) (slot : Nat) (k : Kernel) (linked : Linked) : Prop :=
  w.kernel? slot = some k ∧ k.linked = some linked

/-- What the kernels of a workspace have to do with its modules.  A module of a kernel publishes
what a kernel of its number does, numbers are used once, and what is loaded under the handle of
a compiled kernel is the module of that kernel and of no other one. -/
structure Kept (w : Workspace) : Prop where
  mem_issued : ∀ m ∈ w.loaded, m.handle ∈ w.issued
  number_lt : ∀ m ∈ w.loaded, ∀ n, m.kernel = some n → n < w.session.nextKernel
  exports_eq : ∀ m ∈ w.loaded, ∀ n, m.kernel = some n → ∃ field, m.exports = Kernel.exports n field
  numbers_distinct : ∀ m ∈ w.loaded, ∀ m' ∈ w.loaded, ∀ n, m.kernel = some n →
    m'.kernel = some n → m = m'
  handle_issued : ∀ slot k linked, w.Compiled slot k linked → linked.handle ∈ w.issued
  own : ∀ slot k linked, w.Compiled slot k linked → ∀ m ∈ w.loaded, m.handle = linked.handle →
    ∃ n, m.kernel = some n ∧ m.exports = Kernel.exports n k.field.name
  apart : ∀ slot slot' k k' linked linked', w.Compiled slot k linked →
    w.Compiled slot' k' linked' → linked.handle = linked'.handle → slot = slot'

theorem kept_empty : Kept {} := by
  have hKernels : ∀ slot k linked, ¬ Compiled {} slot k linked := fun slot k linked h => by
    simp [Compiled, kernel?] at h
  constructor
  case mem_issued => exact fun m hMem => absurd hMem List.not_mem_nil
  case number_lt => exact fun m hMem => absurd hMem List.not_mem_nil
  case exports_eq => exact fun m hMem => absurd hMem List.not_mem_nil
  case numbers_distinct => exact fun m hMem => absurd hMem List.not_mem_nil
  case handle_issued => exact fun slot k linked h => absurd h (hKernels slot k linked)
  case own => exact fun slot k linked h => absurd h (hKernels slot k linked)
  case apart => exact fun slot _ k _ linked _ h => absurd h (hKernels slot k linked)

/-- Taking numbers and giving up modules and kernels keeps the rest in order. -/
theorem Kept.mono (h : w.Kept) (hNext : w.session.nextKernel ≤ w'.session.nextKernel)
    (hLoaded : ∀ m ∈ w'.loaded, m ∈ w.loaded) (hIssued : w'.issued = w.issued)
    (hKernels : ∀ slot k linked, w'.Compiled slot k linked → w.Compiled slot k linked) :
    w'.Kept where
  mem_issued m hMem := by
    rw [hIssued]
    exact h.mem_issued m (hLoaded m hMem)
  number_lt m hMem n hNumber :=
    Nat.lt_of_lt_of_le (h.number_lt m (hLoaded m hMem) n hNumber) hNext
  exports_eq m hMem := h.exports_eq m (hLoaded m hMem)
  numbers_distinct m hMem m' hMem' := h.numbers_distinct m (hLoaded m hMem) m' (hLoaded m' hMem')
  handle_issued slot k linked hCompiled := by
    rw [hIssued]
    exact h.handle_issued slot k linked (hKernels _ _ _ hCompiled)
  own slot k linked hCompiled m hMem :=
    h.own slot k linked (hKernels _ _ _ hCompiled) m (hLoaded m hMem)
  apart slot slot' k k' linked linked' hCompiled hCompiled' :=
    h.apart slot slot' k k' linked linked' (hKernels _ _ _ hCompiled) (hKernels _ _ _ hCompiled')

/-- A module is loaded, either by hand or for the kernel in a slot. -/
theorem Kept.publish (slot : Nat) (h : w.Kept) {m : Publication} (hNew : m.handle ∉ w.issued)
    (hNext : w.session.nextKernel ≤ w'.session.nextKernel) (hLoaded : w'.loaded = m :: w.loaded)
    (hIssued : w'.issued = w.issued ++ [m.handle])
    (hMade : ∀ n, m.kernel = some n → n = w.session.nextKernel ∧ n < w'.session.nextKernel ∧
      ∃ field, m.exports = Kernel.exports n field)
    (hKernels : ∀ i k linked, w'.Compiled i k linked → w.Compiled i k linked ∨
      i = slot ∧ linked.handle = m.handle ∧
        ∃ n, m.kernel = some n ∧ m.exports = Kernel.exports n k.field.name) : w'.Kept := by
  have hMem : ∀ other, other ∈ w'.loaded → other = m ∨ other ∈ w.loaded := fun other hOther => by
    rwa [hLoaded, List.mem_cons] at hOther
  -- The handle of a kernel that was compiled before is not the new one.
  have hOld : ∀ {i k linked}, w.Compiled i k linked → linked.handle ≠ m.handle :=
    fun hCompiled hHandle => hNew (hHandle ▸ h.handle_issued _ _ _ hCompiled)
  constructor
  case mem_issued =>
    intro other hOther
    rw [hIssued, List.mem_append, List.mem_singleton]
    exact (hMem other hOther).symm.imp (h.mem_issued other) (congrArg Publication.handle)
  case number_lt =>
    intro other hOther n hNumber
    rcases hMem other hOther with rfl | hOther
    · exact (hMade n hNumber).2.1
    · exact Nat.lt_of_lt_of_le (h.number_lt other hOther n hNumber) hNext
  case exports_eq =>
    intro other hOther n hNumber
    rcases hMem other hOther with rfl | hOther
    · exact (hMade n hNumber).2.2
    · exact h.exports_eq other hOther n hNumber
  case numbers_distinct =>
    have hLater : ∀ other ∈ w.loaded, ∀ n, m.kernel = some n → other.kernel ≠ some n :=
      fun other hOther n hNumber hSame =>
        Nat.ne_of_lt (h.number_lt other hOther n hSame) (hMade n hNumber).1
    intro other hOther other' hOther' n hNumber hNumber'
    rcases hMem other hOther with rfl | hOther <;> rcases hMem other' hOther' with rfl | hOther'
    · rfl
    · exact absurd hNumber' (hLater other' hOther' n hNumber)
    · exact absurd hNumber (hLater other hOther n hNumber')
    · exact h.numbers_distinct other hOther other' hOther' n hNumber hNumber'
  case handle_issued =>
    intro i k linked hCompiled
    rw [hIssued, List.mem_append, List.mem_singleton]
    exact (hKernels i k linked hCompiled).imp (h.handle_issued i k linked) fun hMade => hMade.2.1
  case own =>
    intro i k linked hCompiled other hOther hHandle
    rcases hKernels i k linked hCompiled with hBefore | ⟨-, hSame, hOwn⟩
    · rcases hMem other hOther with rfl | hOther
      · exact absurd hHandle.symm (hOld hBefore)
      · exact h.own i k linked hBefore other hOther hHandle
    · rcases hMem other hOther with rfl | hOther
      · exact hOwn
      · exact absurd (h.mem_issued other hOther) (hHandle ▸ hSame ▸ hNew)
  case apart =>
    intro i i' k k' linked linked' hCompiled hCompiled' hHandle
    rcases hKernels i k linked hCompiled with hBefore | ⟨hSlot, hSame, -⟩ <;>
      rcases hKernels i' k' linked' hCompiled' with hBefore' | ⟨hSlot', hSame', -⟩
    · exact h.apart i i' k k' linked linked' hBefore hBefore' hHandle
    · exact absurd (hHandle.trans hSame') (hOld hBefore)
    · exact absurd (hHandle.symm.trans hSame) (hOld hBefore')
    · exact hSlot.trans hSlot'.symm

theorem kernels_getElem? (h : w.kernel? slot = some k) : w.kernels[slot]? = some (some k) :=
  Option.join_eq_some_iff.mp h

/-- Writing into a slot that has a kernel changes that slot only. -/
theorem kernel?_of_set (h : w.kernel? slot = some k) {kernel : Option Kernel}
    (hSet : w'.kernels = w.kernels.set slot kernel) (i : Nat) :
    w'.kernel? i = if i = slot then kernel else w.kernel? i := by
  obtain ⟨hSlot, -⟩ := List.getElem?_eq_some_iff.mp (kernels_getElem? h)
  rw [kernel?, hSet, List.getElem?_set]
  by_cases hSame : i = slot
  · subst hSame
    rw [if_pos rfl, if_pos rfl, if_pos hSlot]
    rfl
  · rw [if_neg (Ne.symm hSame), if_neg hSame, kernel?]

/-- A compiled kernel was compiled before, or it has just been written into its slot. -/
theorem Compiled.of_set {i : Nat} {kernel : Option Kernel} (h : w'.Compiled i k' linked)
    (hSlot : w.kernel? slot = some k) (hSet : w'.kernels = w.kernels.set slot kernel) :
    i ≠ slot ∧ w.Compiled i k' linked ∨ i = slot ∧ kernel = some k' := by
  obtain ⟨hKernel, hLinked⟩ := h
  rw [kernel?_of_set hSlot hSet] at hKernel
  split at hKernel
  · next hSame => exact .inr ⟨hSame, hKernel⟩
  · next hOther => exact .inl ⟨hOther, hKernel, hLinked⟩

/-- Making a kernel compiles none. -/
theorem Compiled.of_create {i : Nat} {field : Field} {p : Predicate}
    (h : (w.step (.create field p)).Compiled i k linked) : w.Compiled i k linked := by
  obtain ⟨hKernel, hLinked⟩ := h
  rw [kernel?, step, Option.join_eq_some_iff] at hKernel
  rw [List.getElem?_append] at hKernel
  split at hKernel
  · exact ⟨Option.join_eq_some_iff.mpr hKernel, hLinked⟩
  · -- The new kernel is not compiled.
    have hNew := List.mem_singleton.mp (List.mem_of_getElem? hKernel)
    obtain rfl := Option.some.inj hNew
    cases hLinked

/-- An operation does not take kernel numbers back. -/
theorem nextKernel_le_step (w : Workspace) (op : Operation) :
    w.session.nextKernel ≤ (w.step op).session.nextKernel := by
  have hMoves := w.moves op
  generalize w.step op = w' at hMoves ⊢
  cases hMoves with
  | idle => exact Nat.le_refl _
  | add exports handle s hAdd =>
      exact Nat.le_of_eq (Session.links_of_addModule hAdd).2.2.nextKernel_eq.symm
  | remove handle => exact Nat.le_of_eq (Session.nextKernel_removeModule _ _).symm
  | takeNumber => exact Nat.le_succ _
  | create field p => exact Nat.le_refl _
  | failed slot k s e hKernel hCompile =>
      have hNext := Kernel.nextKernel_le_compile k w.session
      rwa [hCompile] at hNext
  | compiled slot k s linked hKernel hNew hAdd =>
      have hTaken := (Session.links_of_addModule hAdd).2.2.nextKernel_eq
      exact Nat.le_of_lt (Nat.lt_of_lt_of_eq (Nat.lt_succ_self _) hTaken.symm)
  | dropped slot k hKernel =>
      rw [Kernel.drop]
      cases k.linked with
      | none => exact Nat.le_refl _
      | some linked => exact Nat.le_of_eq (Session.nextKernel_removeModule _ _).symm

/-- Every operation keeps the kernels and the modules in order. -/
theorem Kept.step (h : w.Kept) (hSession : w.Consistent) (op : Operation) : (w.step op).Kept := by
  have hNext := nextKernel_le_step w op
  have hMoves := w.moves op
  generalize w.step op = w' at hNext hMoves ⊢
  cases hMoves with
  | idle => exact h
  | add exports handle s hAdd =>
      exact h.publish 0 (Session.Records.not_mem_issued hSession hAdd) hNext rfl rfl
        nofun fun _ _ _ => .inl
  | remove handle => exact h.mono hNext (fun _ => List.mem_of_mem_filter) rfl fun _ _ _ => id
  | takeNumber => exact h.mono hNext (fun _ => id) rfl fun _ _ _ => id
  | create field p => exact h.mono hNext (fun _ => id) rfl fun _ _ _ => Compiled.of_create
  | failed slot k s e hKernel hCompile => exact h.mono hNext (fun _ => id) rfl fun _ _ _ => id
  | compiled slot k s linked hKernel hNew hAdd =>
      have hTaken := (Session.links_of_addModule hAdd).2.2.nextKernel_eq
      refine h.publish slot (m := w.moduleOf k linked)
        (Session.Records.not_mem_issued (Session.Records.takeKernelNumber hSession) hAdd)
        hNext rfl rfl (fun n hNumber => ?_) fun i other link hCompiled => ?_
      · obtain rfl := Option.some.inj hNumber
        exact ⟨rfl, by rw [hTaken]; exact Nat.lt_succ_self _, k.field.name, rfl⟩
      · obtain ⟨-, hBefore⟩ | ⟨hSlot, hMade⟩ := hCompiled.of_set hKernel rfl
        · exact .inl hBefore
        · obtain rfl := Option.some.inj hMade
          obtain rfl := Option.some.inj hCompiled.2
          exact .inr ⟨hSlot, rfl, w.session.nextKernel, rfl, rfl⟩
  | dropped slot k hKernel =>
      refine h.mono hNext (fun m hMem => ?_) rfl fun i other linked hCompiled => ?_
      · cases hLinked : k.linked with
        | none => rwa [hLinked] at hMem
        | some linked =>
            rw [hLinked] at hMem
            exact List.mem_of_mem_filter hMem
      · obtain ⟨-, hBefore⟩ | ⟨-, hNew⟩ := hCompiled.of_set hKernel rfl
        · exact hBefore
        · cases hNew

theorem kept_run (ops : List Operation) : (run ops).Kept := by
  induction ops using List.reverseRecOn with
  | nil => exact kept_empty
  | append_singleton ops op ih =>
      rw [run_snoc]
      exact ih.step (consistent_run ops) op

end Workspace

end Columnar
