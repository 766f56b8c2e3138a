import Columnar.Proofs.Session.Ownership

/-!
# The life of kernels

A kernel is made, compiled at most once, and dropped.  Compiling it takes a number when its
predicate is accepted, and no kernel stands in the way of another one, since the names of
kernels tell their numbers: only a module made by hand can have taken a name before.  A kernel
that is dropped takes its own module along.

* `Workspace.advances_run` -- the stages through which a kernel goes.
* `Workspace.compiling`, `Workspace.dropping` -- what compiling and dropping a kernel do.
* `Workspace.stands_of_compiled` -- the passes of a compiled kernel stay where they are found.
* `Workspace.kernels_of_run` -- all of this after every sequence of operations.
-/

namespace Columnar

namespace Workspace

variable {w w' : Workspace} {slot : Nat} {k k' : Kernel} {linked : Linked}

/-- What can become of the kernel in a slot: it is compiled once, and dropped. -/
inductive Advances : Option Kernel → Option Kernel → Prop
  | stays (slot : Option Kernel) : Advances slot slot
  | compiled (k : Kernel) (linked : Linked) : k.linked = none →
      Advances (some k) (some { k with linked := some linked })
  | dropped (k : Kernel) : Advances (some k) none

theorem Advances.trans {x y z : Option Kernel} (h : Advances x y) (h' : Advances y z) :
    Advances x z := by
  cases h with
  | stays => exact h'
  | dropped k =>
      cases h' with
      | stays => exact .dropped k
  | compiled k linked hNew =>
      cases h' with
      | stays => exact .compiled k linked hNew
      | compiled _ again hAgain => cases hAgain
      | dropped => exact .dropped k

/-- An operation moves the kernel in a slot on, and only a drop empties the slot. -/
theorem advances_step {x : Option Kernel} (h : w.kernels[slot]? = some x) (op : Operation) :
    ∃ y, (w.step op).kernels[slot]? = some y ∧ Advances x y ∧
      (y = none → x = none ∨ op = .drop slot) := by
  obtain ⟨hLength, -⟩ := List.getElem?_eq_some_iff.mp h
  have hSame : ∃ y, w.kernels[slot]? = some y ∧ Advances x y ∧
      (y = none → x = none ∨ op = .drop slot) := ⟨x, h, .stays x, .inl⟩
  have hMoves := w.moves op
  generalize w.step op = w' at hMoves ⊢
  cases hMoves with
  | idle => exact hSame
  | add => exact hSame
  | remove => exact hSame
  | takeNumber => exact hSame
  | create field p => exact ⟨x, (List.getElem?_append_left hLength).trans h, .stays x, .inl⟩
  | failed => exact hSame
  | compiled other k s linked hKernel hNew hAdd =>
      rw [List.getElem?_set]
      by_cases hSlot : other = slot
      · subst hSlot
        obtain rfl := Option.some.inj (h.symm.trans (kernels_getElem? hKernel))
        rw [if_pos rfl, if_pos hLength]
        exact ⟨_, rfl, .compiled k linked (Kernel.isCompiled_eq_false_iff.mp hNew), nofun⟩
      · rw [if_neg hSlot]
        exact hSame
  | dropped other k hKernel =>
      rw [List.getElem?_set]
      by_cases hSlot : other = slot
      · subst hSlot
        obtain rfl := Option.some.inj (h.symm.trans (kernels_getElem? hKernel))
        rw [if_pos rfl, if_pos hLength]
        exact ⟨none, rfl, .dropped k, fun _ => .inr rfl⟩
      · rw [if_neg hSlot]
        exact hSame

theorem run_append_snoc (ops more : List Operation) (op : Operation) :
    run (ops ++ (more ++ [op])) = (run (ops ++ more)).step op := by
  rw [← List.append_assoc, run_snoc]

/-- Operations move the kernel in a slot on, and only a drop empties the slot. -/
theorem advances_run (ops more : List Operation) {x : Option Kernel}
    (h : (run ops).kernels[slot]? = some x) :
    ∃ y, (run (ops ++ more)).kernels[slot]? = some y ∧ Advances x y ∧
      (y = none → x = none ∨ .drop slot ∈ more) := by
  induction more using List.reverseRecOn with
  | nil =>
      rw [List.append_nil]
      exact ⟨x, h, .stays x, .inl⟩
  | append_singleton more op ih =>
      obtain ⟨y, hBefore, hAdvances, hNone⟩ := ih
      obtain ⟨z, hAfter, hStep, hEmptied⟩ := advances_step hBefore op
      rw [run_append_snoc]
      refine ⟨z, hAfter, hAdvances.trans hStep, fun hEmpty => ?_⟩
      rcases hEmptied hEmpty with hBefore | rfl
      · exact (hNone hBefore).imp_right (List.mem_append_left _)
      · exact .inr (List.mem_append_right _ List.mem_cons_self)

/-- Numbers are not given out again. -/
theorem nextKernel_le_run (ops more : List Operation) :
    (run ops).session.nextKernel ≤ (run (ops ++ more)).session.nextKernel := by
  induction more using List.reverseRecOn with
  | nil => exact Nat.le_of_eq (by rw [List.append_nil])
  | append_singleton more op ih =>
      rw [run_append_snoc]
      exact Nat.le_trans ih (nextKernel_le_step _ op)

/-- What compiling a kernel does.  A predicate that is refused takes no number and one that is
accepted takes the next one; then only a module made by hand stands in the way.  A compilation
that fails leaves all but the number as it was, and a kernel is not compiled again. -/
structure Compiling (w : Workspace) : Prop where
  refused : ∀ (k : Kernel) e, k.isCompiled = false →
    Program.ofPredicate k.field k.predicate = .error e →
    k.compile w.session = (w.session, .error e)
  number_taken : ∀ (k : Kernel) program, k.isCompiled = false →
    Program.ofPredicate k.field k.predicate = .ok program →
    (k.compile w.session).1.nextKernel = w.session.nextKernel + 1
  error_iff : ∀ (k : Kernel) program, k.isCompiled = false →
    Program.ofPredicate k.field k.predicate = .ok program →
    ((∃ e, (k.compile w.session).2 = .error e) ↔ ∃ m ∈ w.loaded, m.kernel = none ∧
      ∃ name ∈ Kernel.names w.session.nextKernel k.field.name, name ∈ m.names)
  failed : ∀ (k : Kernel) (s : Session) e, k.compile w.session = (s, .error e) →
    s.modules = w.session.modules ∧ s.symbols = w.session.symbols ∧
      s.nextHandle = w.session.nextHandle
  failed_slot : ∀ slot k (s : Session) e, w.kernel? slot = some k →
    k.compile w.session = (s, .error e) → w.step (.compile slot) = { w with session := s }
  succeeded : ∀ slot k (s : Session) k', w.kernel? slot = some k →
    k.compile w.session = (s, .ok k') → ∃ linked, (w.step (.compile slot)).Compiled slot k' linked ∧
      (w.step (.compile slot)).loaded = w.moduleOf k linked :: w.loaded ∧
      Kernel.Stands w.session.nextKernel k.field.name linked.handle
        (w.step (.compile slot)).session
  again : ∀ k : Kernel, k.isCompiled = true →
    k.compile w.session = (w.session, .error .kernelAlreadyCompiled)
  again_slot : ∀ slot k linked, w.Compiled slot k linked → w.step (.compile slot) = w

/-- What dropping a kernel does.  A compiled kernel takes along what is loaded under its handle,
which is its own module, and with it its two names and no other name.  One that is not compiled
takes nothing along. -/
structure Dropping (w : Workspace) : Prop where
  own : ∀ slot k linked, w.Compiled slot k linked → ∀ m ∈ w.loaded, m.handle = linked.handle →
    ∃ n, m.kernel = some n ∧ m.exports = Kernel.exports n k.field.name ∧
      Kernel.Stands n k.field.name linked.handle w.session ∧
      Kernel.Gone n k.field.name (w.step (.drop slot)).session
  others : ∀ slot k linked, w.Compiled slot k linked → ∀ name,
    w.session.owner? name ≠ some linked.handle →
    (w.step (.drop slot)).session.owner? name = w.session.owner? name ∧
      (w.step (.drop slot)).session.find name = w.session.find name
  loaded_eq : ∀ slot k linked, w.Compiled slot k linked →
    (w.step (.drop slot)).loaded = w.loaded.filter (·.handle != linked.handle)
  contains_iff : ∀ slot k linked, w.Compiled slot k linked → ∀ handle,
    (w.step (.drop slot)).session.contains handle = true ↔
      w.session.contains handle = true ∧ handle ≠ linked.handle
  uncompiled : ∀ slot k, w.kernel? slot = some k → k.isCompiled = false →
    (w.step (.drop slot)).session = w.session ∧ (w.step (.drop slot)).loaded = w.loaded

/-- The passes of a kernel are found while its module is loaded. -/
theorem Consistent.stands (h : w.Consistent) {m : Publication} (hMem : m ∈ w.loaded) {number : Nat}
    {field : String} (hExports : m.exports = Kernel.exports number field) :
    Kernel.Stands number field m.handle w.session := by
  have hNames : m.names = Kernel.names number field := by
    rw [Publication.names, hExports, Kernel.map_fst_exports]
  have hBulk : Kernel.bulkName number field ∈ m.names := by
    rw [hNames]
    exact Kernel.mem_names_iff.mpr (.inl rfl)
  have hBoundary : Kernel.boundaryName number field ∈ m.names := by
    rw [hNames]
    exact Kernel.mem_names_iff.mpr (.inr rfl)
  have hFinds : ∀ name routine, name ∈ m.names →
      Session.published? (Kernel.exports number field) name = some routine →
      w.session.find name = .ok routine := by
    intro name routine hName hRoutine
    obtain ⟨found, hPublished, hFound⟩ := h.resolves.find_eq m hMem name hName
    rw [hExports, hRoutine] at hPublished
    obtain rfl := Option.some.inj hPublished
    exact hFound
  constructor
  case find_bulk => exact hFinds _ _ hBulk (Kernel.published?_bulkName number field)
  case find_boundary => exact hFinds _ _ hBoundary (Kernel.published?_boundaryName number field)
  case owner?_bulk => exact h.resolves.owner?_eq m hMem _ hBulk
  case owner?_boundary => exact h.resolves.owner?_eq m hMem _ hBoundary

/-- They are found no longer when the module is removed. -/
theorem Consistent.gone (h : w.Consistent) {m : Publication} (hMem : m ∈ w.loaded) {number : Nat}
    {field : String} (hExports : m.exports = Kernel.exports number field) :
    Kernel.Gone number field (w.session.removeModule m.handle) := by
  intro name hName
  refine h.removes.own m hMem name ?_
  rwa [Publication.names, hExports, Kernel.map_fst_exports]

theorem compiling (hSession : w.Consistent) (h : w.Kept) : w.Compiling := by
  have hAgain : ∀ k : Kernel, k.isCompiled = true →
      k.compile w.session = (w.session, .error .kernelAlreadyCompiled) :=
    fun k hCompiled => by rw [Kernel.compile, if_pos hCompiled]
  have hStep : ∀ {slot k}, w.kernel? slot = some k → w.step (.compile slot) = w.compile slot k :=
    fun hKernel => by rw [step, hKernel, Option.elim_some]
  have hFailed : ∀ slot k s e, w.kernel? slot = some k → k.compile w.session = (s, .error e) →
      w.step (.compile slot) = { w with session := s } :=
    fun slot k s e hKernel hCompile => by rw [hStep hKernel, compile, hCompile]
  constructor
  case refused =>
    intro k e hNew hRefused
    rw [Kernel.compile, if_neg (by rw [hNew]; decide), hRefused]
  case number_taken => exact fun k program => Kernel.nextKernel_compile
  case error_iff =>
    intro k program hNew hProgram
    rw [Kernel.exists_compile_eq_error_iff hNew hProgram, Session.exists_addModule_eq_error_iff]
    constructor
    · rintro ⟨name, hName, hTaken⟩
      obtain ⟨m, hMem, hOwns⟩ :=
        (Session.Records.resolves_iff (Session.Records.takeKernelNumber hSession) name).mp hTaken
      refine ⟨m, hMem, Option.eq_none_iff_forall_ne_some.mpr fun n hNumber => ?_, name, hName,
        hOwns⟩
      -- The names of another kernel tell its number, which is older.
      obtain ⟨field, hExports⟩ := h.exports_eq m hMem n hNumber
      rw [Publication.names, hExports] at hOwns
      have hSame : n = w.session.nextKernel := Kernel.number_eq_of_mem_names hOwns hName
      exact Nat.ne_of_lt (h.number_lt m hMem n hNumber) hSame
    · rintro ⟨m, hMem, -, name, hName, hOwns⟩
      exact ⟨name, hName, (Session.Records.resolves_iff
        (Session.Records.takeKernelNumber hSession) name).mpr ⟨m, hMem, hOwns⟩⟩
  case failed => exact fun k s e => Kernel.compile_error
  case failed_slot => exact hFailed
  case succeeded =>
    intro slot k s k' hKernel hCompile
    obtain ⟨s', e, hFails, -⟩ | ⟨s', linked, hNew, hMakes, -, hMade⟩ := w.compile_cases slot k
    · rw [hCompile] at hFails
      cases hFails
    · rw [hCompile] at hMakes
      cases hMakes
      have hLoaded : (w.step (.compile slot)).loaded = w.moduleOf k linked :: w.loaded := by
        rw [hStep hKernel, hMade]
      refine ⟨linked, ⟨?_, rfl⟩, hLoaded, ?_⟩
      · rw [hStep hKernel, kernel?_of_set hKernel (by rw [hMade]), if_pos rfl]
      · refine (hSession.step (.compile slot)).stands (m := w.moduleOf k linked) ?_ rfl
        rw [hLoaded]
        exact List.mem_cons_self
  case again => exact hAgain
  case again_slot =>
    rintro slot k linked ⟨hKernel, hLinked⟩
    exact hFailed slot k _ _ hKernel (hAgain k (by rw [Kernel.isCompiled, hLinked]; rfl))

theorem dropping (hSession : w.Consistent) (h : w.Kept) : w.Dropping := by
  have hStep : ∀ {slot k}, w.kernel? slot = some k → w.step (.drop slot) = w.drop slot k :=
    fun hKernel => by rw [step, hKernel, Option.elim_some]
  have hLoaded : ∀ slot k linked, w.Compiled slot k linked →
      (w.step (.drop slot)).loaded = w.loaded.filter (·.handle != linked.handle) := by
    rintro slot k linked ⟨hKernel, hLinked⟩
    rw [hStep hKernel, drop_eq, hLinked]
    rfl
  have hRemoved : ∀ slot k linked, w.Compiled slot k linked →
      (w.step (.drop slot)).session = w.session.removeModule linked.handle := by
    rintro slot k linked ⟨hKernel, hLinked⟩
    rw [hStep hKernel, drop_eq, Kernel.drop, hLinked]
  constructor
  case own =>
    intro slot k linked hCompiled m hMem hHandle
    obtain ⟨n, hNumber, hExports⟩ := h.own slot k linked hCompiled m hMem hHandle
    have hStands := hSession.stands hMem hExports
    have hGone := hSession.gone hMem hExports
    rw [hHandle] at hStands hGone
    refine ⟨n, hNumber, hExports, hStands, ?_⟩
    rwa [hRemoved slot k linked hCompiled]
  case others =>
    intro slot k linked hCompiled name hOther
    rw [hRemoved slot k linked hCompiled]
    refine hSession.removes.others linked.handle name fun m hMem hHandle hName => hOther ?_
    rw [hSession.resolves.owner?_eq m hMem name hName, hHandle]
  case loaded_eq => exact hLoaded
  case contains_iff =>
    intro slot k linked hCompiled handle
    rw [hSession.removes.contains_iff, (hSession.step (.drop slot)).removes.contains_iff,
      hLoaded slot k linked hCompiled]
    constructor
    · rintro ⟨m, hMem, rfl⟩
      obtain ⟨hMem, hOther⟩ := List.mem_filter.mp hMem
      exact ⟨⟨m, hMem, rfl⟩, bne_iff_ne.mp hOther⟩
    · rintro ⟨⟨m, hMem, rfl⟩, hOther⟩
      exact ⟨m, List.mem_filter.mpr ⟨hMem, bne_iff_ne.mpr hOther⟩, rfl⟩
  case uncompiled =>
    intro slot k hKernel hNew
    rw [hStep hKernel, drop_eq, Kernel.drop, Kernel.isCompiled_eq_false_iff.mp hNew]
    exact ⟨rfl, rfl⟩

/-- A compiled kernel was compiled before, or its module is loaded. -/
theorem Compiled.of_step {op : Operation} (h : (w.step op).Compiled slot k linked) :
    w.Compiled slot k linked ∨ ∃ m ∈ (w.step op).loaded, m.handle = linked.handle := by
  have hMoves := w.moves op
  generalize w.step op = w' at h hMoves ⊢
  cases hMoves with
  | idle => exact .inl h
  | add => exact .inl h
  | remove => exact .inl h
  | takeNumber => exact .inl h
  | create field p => exact .inl (Compiled.of_create h)
  | failed => exact .inl h
  | compiled other k' s link hKernel hNew hAdd =>
      obtain ⟨-, hBefore⟩ | ⟨-, hMade⟩ := h.of_set hKernel rfl
      · exact .inl hBefore
      · obtain rfl := Option.some.inj hMade
        obtain rfl := Option.some.inj h.2
        exact .inr ⟨_, List.mem_cons_self, rfl⟩
  | dropped other k' hKernel =>
      obtain ⟨-, hBefore⟩ | ⟨-, hNew⟩ := h.of_set hKernel rfl
      · exact .inl hBefore
      · cases hNew

/-- After a drop there is no kernel in the slot. -/
theorem not_compiled_drop (hKernel : w.kernel? slot = some k') :
    ¬ (w.step (.drop slot)).Compiled slot k linked := by
  rintro ⟨hAfter, -⟩
  rw [step, hKernel, Option.elim_some, drop_eq, kernel?_of_set hKernel rfl, if_pos rfl] at hAfter
  cases hAfter

/-- A module stays loaded until it is removed by hand or its kernel is dropped. -/
theorem loaded_step {m : Publication} (h : m ∈ w.loaded) (op : Operation) :
    m ∈ (w.step op).loaded ∨ op = .remove m.handle ∨
      ∃ slot k linked, op = .drop slot ∧ w.Compiled slot k linked ∧ linked.handle = m.handle := by
  have hMoves := w.moves op
  generalize w.step op = w' at hMoves ⊢
  cases hMoves with
  | idle => exact .inl h
  | add => exact .inl (List.mem_cons_of_mem _ h)
  | remove handle =>
      by_cases hHandle : m.handle = handle
      · exact .inr (.inl (by rw [hHandle]))
      · exact .inl (List.mem_filter.mpr ⟨h, bne_iff_ne.mpr hHandle⟩)
  | takeNumber => exact .inl h
  | create => exact .inl h
  | failed => exact .inl h
  | compiled => exact .inl (List.mem_cons_of_mem _ h)
  | dropped slot k hKernel =>
      cases hLinked : k.linked with
      | none => exact .inl h
      | some linked =>
          by_cases hHandle : m.handle = linked.handle
          · exact .inr (.inr ⟨slot, k, linked, rfl, ⟨hKernel, hLinked⟩, hHandle.symm⟩)
          · exact .inl (List.mem_filter.mpr ⟨h, bne_iff_ne.mpr hHandle⟩)

/-- The module of a compiled kernel is loaded unless it was removed by hand. -/
theorem loaded_of_compiled (ops : List Operation) (h : (run ops).Compiled slot k linked) :
    (∃ m ∈ (run ops).loaded, m.handle = linked.handle) ∨ .remove linked.handle ∈ ops := by
  induction ops using List.reverseRecOn with
  | nil => simp [Compiled, run, kernel?] at h
  | append_singleton ops op ih =>
      rw [run_snoc] at h ⊢
      rcases h.of_step with hBefore | hNew
      · rcases ih hBefore with ⟨m, hMem, hHandle⟩ | hRemoved
        · rcases loaded_step hMem op with hStays | rfl | ⟨other, k', link, rfl, hOther, hSame⟩
          · exact .inl ⟨m, hStays, hHandle⟩
          · rw [hHandle]
            exact .inr (List.mem_append_right _ List.mem_cons_self)
          · -- A kernel that takes this module along would have been in the same slot.
            obtain rfl := (kept_run ops).apart _ _ _ _ _ _ hOther hBefore (hSame.trans hHandle)
            exact absurd h (not_compiled_drop hOther.1)
        · exact .inr (List.mem_append_left _ hRemoved)
      · exact .inl hNew

/-- The passes of a compiled kernel are found under its two names, in its own module, unless the
module was removed by hand. -/
theorem stands_of_compiled (ops : List Operation) (h : (run ops).Compiled slot k linked) :
    (∃ m ∈ (run ops).loaded, m.handle = linked.handle ∧
      ∃ n, m.kernel = some n ∧ Kernel.Stands n k.field.name linked.handle (run ops).session) ∨
    .remove linked.handle ∈ ops := by
  refine (loaded_of_compiled ops h).imp_left fun ⟨m, hMem, hHandle⟩ => ?_
  obtain ⟨n, hNumber, hExports⟩ := (kept_run ops).own slot k linked h m hMem hHandle
  have hStands := (consistent_run ops).stands hMem hExports
  rw [hHandle] at hStands
  exact ⟨m, hMem, hHandle, n, hNumber, hStands⟩

/-- Kernels never stand in each other's way, and each goes through its life once.  The two names
of a kernel tell its number, so kernels of different numbers have none in common, and numbers are
not given out again.  After every sequence of operations kernels are compiled and dropped as
described; a compiled kernel finds its passes under its names, in its own module, unless that was
removed by hand.  From then on a slot only moves on, and only a drop empties it. -/
theorem kernels_of_run (ops : List Operation) :
    (∀ (number other : Nat) (field text : String), number ≠ other →
      [s!"filter_{number}_{field}", s!"filter_remaining_{number}_{field}"].Disjoint
        [s!"filter_{other}_{text}", s!"filter_remaining_{other}_{text}"]) ∧
    (run ops).Kept ∧ (run ops).Compiling ∧ (run ops).Dropping ∧
    (∀ slot k linked, (run ops).Compiled slot k linked →
      (∃ m ∈ (run ops).loaded, m.handle = linked.handle ∧
        ∃ n, m.kernel = some n ∧ Kernel.Stands n k.field.name linked.handle (run ops).session) ∨
      .remove linked.handle ∈ ops) ∧
    ∀ more : List Operation,
      (run ops).session.nextKernel ≤ (run (ops ++ more)).session.nextKernel ∧
      ∀ (slot : Nat) x, (run ops).kernels[slot]? = some x →
        ∃ y, (run (ops ++ more)).kernels[slot]? = some y ∧ Advances x y ∧
          (y = none → x = none ∨ .drop slot ∈ more) :=
  have hSession := consistent_run ops
  have hKept := kept_run ops
  ⟨fun _ _ field text hOther => Kernel.disjoint_names hOther field text, hKept,
    compiling hSession hKept, dropping hSession hKept,
    fun _ _ _ => stands_of_compiled ops,
    fun more => ⟨nextKernel_le_run ops more, fun _ _ => advances_run ops more⟩⟩

/-- A kernel is compiled.  Then a module made by hand takes a name of the next one, which is
compiled in vain. -/
def contended : List Operation :=
  [.create { name := "x", type := .int32 } (.compare "x" .gt (.integer 1)), .compile 0,
    .add [("filter_remaining_2_x", .constant 7)],
    .create { name := "x", type := .int32 } (.compare "x" .lt (.integer 9)), .compile 1]

/-- The first kernel finds its passes until it is dropped, and the second one used up its number. -/
theorem kernels_of_run_contended :
    ∃ k linked n, (run contended).Compiled 0 k linked ∧
      Kernel.Stands n "x" linked.handle (run contended).session ∧
      Kernel.Gone n "x" ((run contended).step (.drop 0)).session ∧
      ((run contended).kernel? 1).map Kernel.isCompiled = some false ∧
      (run contended).session.nextKernel = 3 ∧ (run contended).session.moduleCount = 2 := by
  have h := kernels_of_run contended
  have hCompiled : ∃ k linked, (run contended).Compiled 0 k linked ∧ k.field.name = "x" :=
    ⟨_, _, ⟨rfl, rfl⟩, rfl⟩
  obtain ⟨k, linked, hCompiled, hName⟩ := hCompiled
  have hLoaded := (h.2.2.2.2.1 0 k linked hCompiled).resolve_right (by simp [contended])
  obtain ⟨m, hMem, hHandle, -⟩ := hLoaded
  obtain ⟨n, -, -, hStands, hGone⟩ := h.2.2.2.1.own 0 k linked hCompiled m hMem hHandle
  rw [hName] at hStands hGone
  exact ⟨k, linked, n, hCompiled, hStands, hGone, rfl, rfl, rfl⟩

end Workspace

end Columnar
