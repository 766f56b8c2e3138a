import Columnar.Proofs.Kernel.Compilation

/-!
# Linking kernels

Kernels are numbered, and the names that a kernel publishes carry its number.  As long as no
name of a number to come is taken, every kernel can be linked.  A fresh session is like that,
and it stays like that when a kernel is compiled and dropped again: the number is used up, and
the names go with the module.

* `Session.Linkable` -- no name of a kernel to come is taken.
* `Kernel.compile_of_linkable` -- in such a session a kernel of a program is linked, and
  dropping it leaves such a session.
-/

namespace Columnar

namespace Session

variable {s : Session} {name : String}

/-- A name resolves when the symbol table has an entry for it. -/
theorem resolves_eq_true_iff : s.resolves name = true ↔ ∃ e ∈ s.symbols, e.1 = name := by
  rw [resolves, lookup?, List.lookup_isSome_iff]
  simp only [beq_iff_eq]
  exact exists_congr fun e => and_congr_right fun _ => eq_comm

theorem mem_bind_iff {symbols : List (String × SymbolEntry)} {entry : SymbolEntry}
    {e : String × SymbolEntry} :
    e ∈ bind symbols name entry ↔ e = (name, entry) ∨ e ∈ symbols ∧ e.1 ≠ name := by
  simp [bind]

/-- A module adds entries under its own names only. -/
theorem mem_of_mem_foldl_bind {handle : Handle} {exports : List (String × Routine)}
    {symbols : List (String × SymbolEntry)} {e : String × SymbolEntry}
    (h : e ∈ exports.foldl (fun table (name, routine) =>
      bind table name { owner := handle, routine }) symbols) :
    e ∈ symbols ∨ e.1 ∈ exports.map Prod.fst := by
  induction exports generalizing symbols with
  | nil => exact .inl h
  | cons first rest ih =>
      rw [List.map_cons, List.mem_cons]
      rcases ih h with hBound | hRest
      · rcases mem_bind_iff.mp hBound with rfl | ⟨hMem, -⟩
        · exact .inr (.inl rfl)
        · exact .inl hMem
      · exact .inr (.inr hRest)

/-- No name of a kernel to come is taken. -/
def Linkable (s : Session) : Prop :=
  ∀ number, s.nextKernel ≤ number → ∀ field,
    s.resolves (Kernel.bulkName number field) = false ∧
      s.resolves (Kernel.boundaryName number field) = false

theorem linkable_fresh : fresh.Linkable := fun _ _ _ => ⟨rfl, rfl⟩

/-- Taking numbers and giving up names keeps kernels linkable. -/
theorem Linkable.mono (h : s.Linkable) {s' : Session} (hNext : s.nextKernel ≤ s'.nextKernel)
    (hSymbols : ∀ e ∈ s'.symbols, e ∈ s.symbols) : s'.Linkable := by
  have hNames : ∀ name, s.resolves name = false → s'.resolves name = false := by
    intro name hFree
    rw [Bool.eq_false_iff, ne_eq, resolves_eq_true_iff] at hFree ⊢
    rintro ⟨e, hMem, hName⟩
    exact hFree ⟨e, hSymbols e hMem, hName⟩
  intro number hNumber field
  obtain ⟨hBulk, hBoundary⟩ := h number (Nat.le_trans hNext hNumber) field
  exact ⟨hNames _ hBulk, hNames _ hBoundary⟩

/-- A module none of whose names is taken is linked, which takes no kernel number. -/
theorem exists_addModule {exports : List (String × Routine)}
    (h : ∀ name ∈ exports.map Prod.fst, s.resolves name = false) :
    ∃ handle linked, s.addModule exports = .ok (handle, linked) ∧
      linked.nextKernel = s.nextKernel := by
  obtain ⟨-, linked, hLinked, hLinks⟩ | ⟨name, hName, hTaken, -⟩ := s.addModule_cases exports
  · exact ⟨_, linked, hLinked, hLinks.nextKernel_eq⟩
  · rw [h name hName] at hTaken
    cases hTaken

/-- Removing the module that was linked last leaves no entry that was not there before. -/
theorem mem_of_mem_removeModule_addModule {exports : List (String × Routine)} {handle : Handle}
    {linked : Session} (h : s.addModule exports = .ok (handle, linked))
    {e : String × SymbolEntry} (he : e ∈ (linked.removeModule handle).symbols) :
    e ∈ s.symbols := by
  unfold addModule at h
  split at h
  · exact absurd h (by simp)
  · obtain ⟨rfl, rfl⟩ := Prod.mk.inj (Except.ok.inj h)
    -- The module is the first one of its handle that the session finds.
    simp only [removeModule, List.find?_cons, beq_self_eq_true, List.mem_filter,
      Bool.not_eq_true', List.contains_eq_mem, decide_eq_false_iff_not] at he
    rcases mem_of_mem_foldl_bind he.1 with hBefore | hName
    · exact hBefore
    · exact absurd hName he.2

end Session

namespace Kernel

variable {field : Field} {p : Predicate} {program : Program} {s : Session}

/-- A predicate that cannot be lowered leaves the session alone. -/
theorem compile_of_refused {e : Error} (h : Program.ofPredicate field p = .error e)
    (s : Session) : (new field p).compile s = (s, .error e) := by
  simp [compile, new, isCompiled, h]

/-- In a session where kernels can be linked the kernel of a program is linked, and dropping
it leaves such a session. -/
theorem compile_of_linkable (hProgram : Program.ofPredicate field p = .ok program)
    (hLinkable : s.Linkable) :
    ∃ linked k, (new field p).compile s = (linked, .ok k) ∧ k.program = .ok program ∧
      (k.drop linked).Linkable := by
  obtain ⟨hBulk, hBoundary⟩ := hLinkable s.nextKernel (Nat.le_refl _) field.name
  have hFree : ∀ name ∈ (exports s.nextKernel field.name).map Prod.fst,
      s.takeKernelNumber.2.resolves name = false := by
    intro name hName
    rcases mem_names_iff.mp hName with rfl | rfl
    · exact hBulk
    · exact hBoundary
  obtain ⟨handle, linked, hAdd, hNext⟩ := Session.exists_addModule hFree
  refine ⟨linked, { new field p with linked := some { handle, program } },
    compile_of_addModule (k := new field p) rfl hProgram hAdd, rfl, ?_⟩
  · refine hLinkable.mono ?_ fun e he => Session.mem_of_mem_removeModule_addModule hAdd he
    show s.nextKernel ≤ (linked.removeModule handle).nextKernel
    rw [Session.nextKernel_removeModule, hNext]
    exact Nat.le_succ _

end Kernel

end Columnar
