import Columnar.Session

/-!
# The symbol table

What linking and unlinking one module do to the symbol table, name by name: a module that is
linked takes the names it lists, each for the last routine listed under it, and a module that
is unlinked gives up the names it lists, whoever has them.

* `Session.addModule_cases` -- a module is linked exactly when all its names are free.
* `Session.removeModule_cases` -- the names of an unlinked module are free again.
-/

namespace Columnar

namespace Session

variable {s : Session} {exports : List (String × Routine)} {handle : Handle} {name : String}

/-- What a module publishes under a name: the last routine that it lists under it. -/
def published? (exports : List (String × Routine)) (name : String) : Option Routine :=
  exports.reverse.lookup name

/-- A module publishes something under the names it lists, and under no other. -/
theorem isSome_published?_iff :
    (published? exports name).isSome = true ↔ name ∈ exports.map Prod.fst := by
  rw [published?, List.lookup_isSome_iff, List.mem_map]
  simp only [List.mem_reverse, beq_iff_eq]
  exact exists_congr fun e => and_congr_right fun _ => eq_comm

theorem published?_eq_none_iff :
    published? exports name = none ↔ name ∉ exports.map Prod.fst := by
  rw [← isSome_published?_iff, Bool.not_eq_true, Option.isSome_eq_false_iff,
    Option.isNone_iff_eq_none]

theorem lookup_cons_eq {α : Type} (name : String) (e : String × α) (rest : List (String × α)) :
    (e :: rest).lookup name = if name = e.1 then some e.2 else rest.lookup name := by
  rw [List.lookup_cons]
  by_cases hName : name = e.1
  · rw [if_pos hName, beq_iff_eq.mpr hName]
  · rw [if_neg hName, beq_false_of_ne hName]

/-- Keeping the entries of some names leaves what is found under these names. -/
theorem lookup_filter (symbols : List (String × SymbolEntry)) (keep : String → Bool)
    (name : String) :
    (symbols.filter fun e => keep e.1).lookup name =
      if keep name = true then symbols.lookup name else none := by
  induction symbols with
  | nil => simp
  | cons e rest ih =>
      rw [List.filter_cons, lookup_cons_eq]
      by_cases hKeep : keep e.1 = true
      · rw [if_pos hKeep, lookup_cons_eq, ih]
        by_cases hName : name = e.1
        · simp [hName, hKeep]
        · simp [hName]
      · rw [if_neg hKeep, ih]
        by_cases hName : name = e.1
        · simp [hName, hKeep]
        · simp [hName]

theorem lookup_bind (symbols : List (String × SymbolEntry)) (bound : String)
    (entry : SymbolEntry) (name : String) :
    (bind symbols bound entry).lookup name =
      if name = bound then some entry else symbols.lookup name := by
  rw [bind, lookup_cons_eq, lookup_filter symbols (· != bound)]
  by_cases hName : name = bound
  · rw [if_pos hName, if_pos hName]
  · rw [if_neg hName, if_neg hName, if_pos (bne_iff_ne.mpr hName)]

/-- Of a module with one more routine at its front that routine counts where no later one has
its name. -/
theorem published?_cons (first : String × Routine) (rest : List (String × Routine))
    (name : String) :
    published? (first :: rest) name =
      (published? rest name).or (if name = first.1 then some first.2 else none) := by
  rw [published?, List.reverse_cons, List.lookup_append, lookup_cons_eq, List.lookup_nil,
    published?]

/-- After a module is linked its names stand for what it publishes under them, and all other
names for what they stood for before. -/
theorem lookup_foldl_bind (handle : Handle) (exports : List (String × Routine))
    (symbols : List (String × SymbolEntry)) (name : String) :
    (exports.foldl (fun table (name, routine) =>
        bind table name { owner := handle, routine }) symbols).lookup name =
      ((published? exports name).map fun routine => { owner := handle, routine }).or
        (symbols.lookup name) := by
  induction exports generalizing symbols with
  | nil => rfl
  | cons first rest ih =>
      rw [List.foldl_cons, ih, published?_cons, lookup_bind]
      cases published? rest name with
      | some routine => rfl
      | none =>
          by_cases hName : name = first.1
          · simp [hName]
          · simp [hName]

/-- How a session looks after a module is linked in it. -/
structure Links (s : Session) (exports : List (String × Routine)) (linked : Session) :
    Prop where
  modules_eq : linked.modules = ⟨⟨s.nextHandle⟩, exports.map Prod.fst⟩ :: s.modules
  lookup?_eq : ∀ name, linked.lookup? name =
    ((published? exports name).map fun routine => ⟨⟨s.nextHandle⟩, routine⟩).or (s.lookup? name)
  nextHandle_eq : linked.nextHandle = s.nextHandle + 1
  nextKernel_eq : linked.nextKernel = s.nextKernel

/-- A module is linked under the next handle when all its names are free, and otherwise it is
refused with a name that is not. -/
theorem addModule_cases (s : Session) (exports : List (String × Routine)) :
    ((∀ name ∈ exports.map Prod.fst, s.resolves name = false) ∧
      ∃ linked, s.addModule exports = .ok (⟨s.nextHandle⟩, linked) ∧ s.Links exports linked) ∨
    ∃ name ∈ exports.map Prod.fst, s.resolves name = true ∧
      s.addModule exports = .error (.linkage s!"duplicate symbol '{name}'") := by
  cases hFind : exports.find? (fun (name, _) => s.resolves name) with
  | none =>
      refine .inl ⟨fun name hName => ?_, { s with
          modules := { handle := ⟨s.nextHandle⟩, names := exports.map Prod.fst } :: s.modules
          symbols := exports.foldl (fun table (name, routine) =>
            bind table name { owner := ⟨s.nextHandle⟩, routine }) s.symbols
          nextHandle := s.nextHandle + 1 }, by rw [addModule, hFind],
        ⟨rfl, fun name => lookup_foldl_bind _ _ _ _, rfl, rfl⟩⟩
      obtain ⟨e, hMem, rfl⟩ := List.mem_map.mp hName
      exact Bool.eq_false_iff.mpr (List.find?_eq_none.mp hFind e hMem)
  | some e =>
      have hTaken := List.find?_some hFind
      exact .inr ⟨e.1, List.mem_map_of_mem (List.mem_of_find?_eq_some hFind), hTaken,
        by rw [addModule, hFind]⟩

/-- A module is refused exactly when one of its names is taken. -/
theorem exists_addModule_eq_error_iff :
    (∃ e, s.addModule exports = .error e) ↔
      ∃ name ∈ exports.map Prod.fst, s.resolves name = true := by
  obtain ⟨hFree, linked, hLinked, -⟩ | ⟨name, hName, hTaken, hRefused⟩ :=
    s.addModule_cases exports
  · refine iff_of_false ?_ ?_
    · rintro ⟨e, hError⟩
      rw [hLinked] at hError
      cases hError
    · rintro ⟨name, hName, hTaken⟩
      rw [hFree name hName] at hTaken
      cases hTaken
  · exact iff_of_true ⟨_, hRefused⟩ ⟨name, hName, hTaken⟩

theorem links_of_addModule {linked : Session} (h : s.addModule exports = .ok (handle, linked)) :
    (∀ name ∈ exports.map Prod.fst, s.resolves name = false) ∧ handle = ⟨s.nextHandle⟩ ∧
      s.Links exports linked := by
  obtain ⟨hFree, linked', hLinked, hLinks⟩ | ⟨name, -, -, hRefused⟩ := s.addModule_cases exports
  · rw [hLinked] at h
    cases h
    exact ⟨hFree, rfl, hLinks⟩
  · rw [hRefused] at h
    cases h

/-- The names of a module that has just been linked resolve to what it publishes under them. -/
theorem find_of_addModule {linked : Session} (h : s.addModule exports = .ok (handle, linked))
    {routine : Routine} (hPublished : published? exports name = some routine) :
    linked.find name = .ok routine := by
  obtain ⟨-, -, hLinks⟩ := links_of_addModule h
  rw [find, hLinks.lookup?_eq, hPublished]
  rfl

@[simp]
theorem nextKernel_removeModule (s : Session) (handle : Handle) :
    (s.removeModule handle).nextKernel = s.nextKernel := by
  unfold removeModule
  split <;> rfl

/-- How a session looks after a module is unlinked. -/
structure Unlinks (s : Session) (m : LoadedModule) (unlinked : Session) : Prop where
  modules_eq : unlinked.modules = s.modules.filter (·.handle != m.handle)
  lookup?_eq : ∀ name, unlinked.lookup? name = if name ∈ m.names then none else s.lookup? name
  nextHandle_eq : unlinked.nextHandle = s.nextHandle

/-- The module of a handle is unlinked, and a handle without a module changes nothing. -/
theorem removeModule_cases (s : Session) (handle : Handle) :
    ((∀ m ∈ s.modules, m.handle ≠ handle) ∧ s.removeModule handle = s) ∨
    ∃ m ∈ s.modules, m.handle = handle ∧ s.Unlinks m (s.removeModule handle) := by
  cases hFind : s.modules.find? (·.handle == handle) with
  | none =>
      refine .inl ⟨fun m hMem => ?_, by rw [removeModule, hFind]⟩
      simpa using List.find?_eq_none.mp hFind m hMem
  | some m =>
      have hHandle : m.handle = handle := by simpa using List.find?_some hFind
      refine .inr ⟨m, List.mem_of_find?_eq_some hFind, hHandle, ?_⟩
      rw [removeModule, hFind]
      refine ⟨by rw [hHandle], fun name => ?_, rfl⟩
      rw [lookup?, lookup_filter s.symbols (fun name => !m.names.contains name)]
      by_cases hName : name ∈ m.names
      · simp [hName]
      · simp [hName, lookup?]

end Session

end Columnar
