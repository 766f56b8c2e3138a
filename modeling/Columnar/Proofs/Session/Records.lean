import Columnar.Proofs.Session.Symbols
import Mathlib.Data.List.Nodup

/-!
# What is loaded

A session keeps its modules in one map and their names in another, and both are kept in step
by hand: a module that is unlinked gives up its names without a question of whose they are.
Here the two are compared with the modules that were linked and not unlinked since, as those
saw them who linked them.

* `Session.Records` -- the session agrees with what is loaded and with the handles issued.
* `Session.Records.addModule`, `Session.Records.removeModule` -- linking and unlinking a module
  keep this.
-/

namespace Columnar

/-- A module as those see it who have linked it. -/
structure Publication where
  handle : Handle
  exports : List (String × Routine)
  /-- The number of the kernel that it belongs to; a module made by hand belongs to none. -/
  kernel : Option Nat := none

namespace Publication

/-- The names that a module takes. -/
def names (m : Publication) : List String := m.exports.map Prod.fst

/-- What a module puts into the symbol table under a name. -/
def symbol? (m : Publication) (name : String) : Option SymbolEntry :=
  (Session.published? m.exports name).map fun routine => { owner := m.handle, routine }

/-- What the session keeps of a module. -/
def record (m : Publication) : LoadedModule := { handle := m.handle, names := m.names }

variable {m : Publication} {name : String} {entry : SymbolEntry}

theorem symbol?_eq_some_iff : m.symbol? name = some entry ↔
    entry.owner = m.handle ∧ Session.published? m.exports name = some entry.routine := by
  cases entry with
  | mk owner routine => simp [symbol?, eq_comm, and_comm]

theorem symbol?_eq_none_iff : m.symbol? name = none ↔ name ∉ m.names := by
  rw [symbol?, Option.map_eq_none_iff, Session.published?_eq_none_iff, names]

theorem mem_names_of_symbol? (h : m.symbol? name = some entry) : name ∈ m.names := by
  by_contra hName
  rw [symbol?_eq_none_iff.mpr hName] at h
  cases h

theorem exists_symbol?_of_mem_names (h : name ∈ m.names) : ∃ entry, m.symbol? name = some entry :=
  Option.ne_none_iff_exists'.mp fun hNone => symbol?_eq_none_iff.mp hNone h

end Publication

namespace Session

variable {s s' : Session} {loaded : List Publication} {issued : List Handle}
  {exports : List (String × Routine)} {handle : Handle} {name : String}

/-- The session agrees with the modules that are loaded, the last one first, and with the
handles that were issued, the last one last. -/
structure Records (s : Session) (loaded : List Publication) (issued : List Handle) : Prop where
  modules_eq : s.modules = loaded.map Publication.record
  lookup?_eq_some_iff : ∀ name entry, s.lookup? name = some entry ↔
    ∃ m ∈ loaded, m.symbol? name = some entry
  handles_nodup : (loaded.map Publication.handle).Nodup
  mem_issued : ∀ m ∈ loaded, m.handle ∈ issued
  issued_eq : issued = (List.range issued.length).map fun i => ⟨i + 1⟩
  nextHandle_eq : s.nextHandle = issued.length + 1

theorem records_fresh : fresh.Records [] [] where
  modules_eq := rfl
  lookup?_eq_some_iff := fun _ _ => iff_of_false nofun nofun
  handles_nodup := List.nodup_nil
  mem_issued := nofun
  issued_eq := rfl
  nextHandle_eq := rfl

namespace Records

/-- Loaded modules are told apart by their handles. -/
theorem eq_of_handle_eq (h : s.Records loaded issued) {m m' : Publication} (hMem : m ∈ loaded)
    (hMem' : m' ∈ loaded) (hHandle : m.handle = m'.handle) : m = m' :=
  List.inj_on_of_nodup_map h.handles_nodup hMem hMem' hHandle

/-- No two loaded modules have a name in common. -/
theorem eq_of_mem_names (h : s.Records loaded issued) {m m' : Publication} (hMem : m ∈ loaded)
    (hMem' : m' ∈ loaded) (hName : name ∈ m.names) (hName' : name ∈ m'.names) : m = m' := by
  obtain ⟨entry, hEntry⟩ := Publication.exists_symbol?_of_mem_names hName
  obtain ⟨entry', hEntry'⟩ := Publication.exists_symbol?_of_mem_names hName'
  -- The symbol table has one entry for the name, and it says who owns it.
  have hFound := (h.lookup?_eq_some_iff name entry).mpr ⟨m, hMem, hEntry⟩
  have hFound' := (h.lookup?_eq_some_iff name entry').mpr ⟨m', hMem', hEntry'⟩
  obtain rfl := Option.some.inj (hFound.symm.trans hFound')
  exact h.eq_of_handle_eq hMem hMem' ((Publication.symbol?_eq_some_iff.mp hEntry).1.symm.trans
    (Publication.symbol?_eq_some_iff.mp hEntry').1)

/-- What a name of a loaded module stands for. -/
theorem lookup?_of_mem (h : s.Records loaded issued) {m : Publication} (hMem : m ∈ loaded)
    (hName : name ∈ m.names) : s.lookup? name = m.symbol? name := by
  obtain ⟨entry, hEntry⟩ := Publication.exists_symbol?_of_mem_names hName
  rw [hEntry]
  exact (h.lookup?_eq_some_iff name entry).mpr ⟨m, hMem, hEntry⟩

/-- A name that no loaded module publishes stands for nothing. -/
theorem lookup?_eq_none (h : s.Records loaded issued) (hNone : ∀ m ∈ loaded, name ∉ m.names) :
    s.lookup? name = none := by
  rw [Option.eq_none_iff_forall_ne_some]
  intro entry hEntry
  obtain ⟨m, hMem, hFound⟩ := (h.lookup?_eq_some_iff name entry).mp hEntry
  exact hNone m hMem (Publication.mem_names_of_symbol? hFound)

theorem resolves_iff (h : s.Records loaded issued) (name : String) :
    s.resolves name = true ↔ ∃ m ∈ loaded, name ∈ m.names := by
  constructor
  · intro hResolves
    by_contra hNone
    rw [resolves, h.lookup?_eq_none fun m hMem hName => hNone ⟨m, hMem, hName⟩] at hResolves
    cases hResolves
  · rintro ⟨m, hMem, hName⟩
    obtain ⟨entry, hEntry⟩ := Publication.exists_symbol?_of_mem_names hName
    rw [resolves, h.lookup?_of_mem hMem hName, hEntry]
    rfl

/-- Handles that were issued are older than the next one. -/
theorem number_lt (h : s.Records loaded issued) (hIssued : handle ∈ issued) :
    handle.number < s.nextHandle := by
  rw [h.issued_eq, List.mem_map] at hIssued
  obtain ⟨i, hi, rfl⟩ := hIssued
  rw [h.nextHandle_eq]
  exact Nat.succ_lt_succ (List.mem_range.mp hi)

/-- Only modules, symbols and the next handle matter. -/
theorem congr (h : s.Records loaded issued) (hModules : s'.modules = s.modules)
    (hSymbols : s'.symbols = s.symbols) (hNext : s'.nextHandle = s.nextHandle) :
    s'.Records loaded issued where
  modules_eq := hModules.trans h.modules_eq
  lookup?_eq_some_iff := fun name entry => by
    rw [lookup?, hSymbols]
    exact h.lookup?_eq_some_iff name entry
  handles_nodup := h.handles_nodup
  mem_issued := h.mem_issued
  issued_eq := h.issued_eq
  nextHandle_eq := hNext.trans h.nextHandle_eq

theorem takeKernelNumber (h : s.Records loaded issued) :
    s.takeKernelNumber.2.Records loaded issued :=
  h.congr rfl rfl rfl

/-- A module that is linked gets a handle that was not given out before. -/
theorem not_mem_issued (h : s.Records loaded issued)
    (hLinked : s.addModule exports = .ok (handle, s')) : handle ∉ issued := by
  obtain ⟨-, rfl, -⟩ := links_of_addModule hLinked
  exact fun hIssued => Nat.lt_irrefl s.nextHandle (h.number_lt hIssued)

/-- A module that is linked is recorded. -/
theorem addModule (h : s.Records loaded issued)
    (hLinked : s.addModule exports = .ok (handle, s')) (kernel : Option Nat) :
    s'.Records ({ handle, exports, kernel } :: loaded) (issued ++ [handle]) := by
  have hNew := h.not_mem_issued hLinked
  obtain ⟨hFree, rfl, hLinks⟩ := links_of_addModule hLinked
  have hLength : (issued ++ [Handle.mk s.nextHandle]).length = issued.length + 1 :=
    List.length_append
  constructor
  case modules_eq => rw [hLinks.modules_eq, h.modules_eq]; rfl
  case lookup?_eq_some_iff =>
    intro name entry
    have hOld := h.lookup?_eq_some_iff name entry
    rw [hLinks.lookup?_eq, Option.or_eq_some_iff]
    simp only [List.mem_cons, exists_eq_or_imp]
    refine or_congr_right ?_
    rw [← hOld]
    -- What the new module does not list is found where it was before.
    refine ⟨And.right, fun hFound => ⟨?_, hFound⟩⟩
    rw [Option.map_eq_none_iff, published?_eq_none_iff]
    intro hName
    have hTaken := hFree name hName
    rw [resolves, hFound] at hTaken
    cases hTaken
  case handles_nodup =>
    refine List.nodup_cons.mpr ⟨fun hMem => ?_, h.handles_nodup⟩
    obtain ⟨m, hLoaded, hHandle⟩ := List.mem_map.mp hMem
    have hIssued := h.mem_issued m hLoaded
    rw [hHandle] at hIssued
    exact hNew hIssued
  case mem_issued =>
    intro m hMem
    rcases List.mem_cons.mp hMem with rfl | hLoaded
    · exact List.mem_append_right _ List.mem_cons_self
    · exact List.mem_append_left _ (h.mem_issued m hLoaded)
  case issued_eq =>
    rw [hLength, List.range_succ, List.map_append, ← h.issued_eq, h.nextHandle_eq]
    rfl
  case nextHandle_eq => rw [hLinks.nextHandle_eq, hLength, h.nextHandle_eq]

/-- A handle under which nothing is loaded changes nothing. -/
theorem removeModule_eq_self (h : s.Records loaded issued)
    (hNone : ∀ m ∈ loaded, m.handle ≠ handle) : s.removeModule handle = s := by
  obtain ⟨-, hSame⟩ | ⟨record, hMem, hHandle, -⟩ := s.removeModule_cases handle
  · exact hSame
  · rw [h.modules_eq] at hMem
    obtain ⟨m, hLoaded, rfl⟩ := List.mem_map.mp hMem
    exact absurd hHandle (hNone m hLoaded)

/-- A module that is unlinked is no longer recorded. -/
theorem removeModule (h : s.Records loaded issued) (handle : Handle) :
    (s.removeModule handle).Records (loaded.filter (·.handle != handle)) issued := by
  have hFilter : (loaded.map Publication.record).filter (·.handle != handle) =
      (loaded.filter (·.handle != handle)).map Publication.record := List.filter_map
  obtain ⟨hOther, hSame⟩ | ⟨record, hMem, rfl, hUnlinks⟩ := s.removeModule_cases handle
  · have hAll : loaded.filter (·.handle != handle) = loaded := by
      refine List.filter_eq_self.mpr fun m hLoaded => bne_iff_ne.mpr ?_
      exact hOther m.record (by rw [h.modules_eq]; exact List.mem_map_of_mem hLoaded)
    rw [hSame, hAll]
    exact h
  · rw [h.modules_eq] at hMem
    obtain ⟨m, hLoaded, rfl⟩ := List.mem_map.mp hMem
    constructor
    case modules_eq => rw [hUnlinks.modules_eq, h.modules_eq, hFilter]
    case lookup?_eq_some_iff =>
      intro name entry
      rw [hUnlinks.lookup?_eq, Option.ite_none_left_eq_some, h.lookup?_eq_some_iff]
      constructor
      · rintro ⟨hName, other, hOther, hEntry⟩
        refine ⟨other, List.mem_filter.mpr ⟨hOther, bne_iff_ne.mpr fun hHandle => ?_⟩, hEntry⟩
        obtain rfl := h.eq_of_handle_eq hOther hLoaded hHandle
        exact hName (Publication.mem_names_of_symbol? hEntry)
      · rintro ⟨other, hOther, hEntry⟩
        obtain ⟨hOther, hHandle⟩ := List.mem_filter.mp hOther
        -- The names that go are not those of another module.
        refine ⟨fun hName => ?_, other, hOther, hEntry⟩
        obtain rfl := h.eq_of_mem_names hOther hLoaded (Publication.mem_names_of_symbol? hEntry)
          hName
        exact bne_iff_ne.mp hHandle rfl
    case handles_nodup => exact h.handles_nodup.sublist (List.filter_sublist.map _)
    case mem_issued => exact fun m hMem => h.mem_issued m (List.mem_of_mem_filter hMem)
    case issued_eq => exact h.issued_eq
    case nextHandle_eq => exact hUnlinks.nextHandle_eq.trans h.nextHandle_eq

end Records

end Session

end Columnar
