import Columnar.Error

/-!
# Sessions

A session links modules.  A module publishes routines under names, and the symbol
table of the session maps every published name to the routine and the module that
owns it.  A module that would publish a name already in the table is refused as a
whole.  Handles and kernel numbers are counted from one and never reused.

The two counters are the only numbers of 64 bits that are not kept as machine words here.  A
length can be claimed without the bytes behind it, so a sum of lengths can wrap.  A counter
grows by one at a time, and only when a module is linked or a kernel is compiled: before it
wraps a session has done so `2 ^ 64` times, longer than any session lives.
-/

namespace Columnar

/-- Identifies a linked module. -/
structure Handle where
  number : Nat
  deriving DecidableEq

/-- What a symbol stands for. -/
inductive Routine where
  /-- Returns a constant. -/
  | constant (value : Int)
  /-- The bulk pass of a kernel. -/
  | bulk (kernel : Nat)
  /-- The boundary pass of a kernel. -/
  | boundary (kernel : Nat)
  deriving DecidableEq

/-- An entry of the symbol table. -/
structure SymbolEntry where
  owner : Handle
  routine : Routine
  deriving DecidableEq

/-- A linked module and the names it published. -/
structure LoadedModule where
  handle : Handle
  names : List String
  deriving DecidableEq

/-- Everything linked so far. -/
structure Session where
  modules : List LoadedModule := []
  symbols : List (String × SymbolEntry) := []
  /-- The number of the next handle; it does not wrap. -/
  nextHandle : Nat := 1
  /-- The number of the next kernel; it does not wrap. -/
  nextKernel : Nat := 1

namespace Session

/-- The session without modules. -/
def fresh : Session := {}

/-- The entry of a name, if it resolves. -/
def lookup? (s : Session) (name : String) : Option SymbolEntry :=
  s.symbols.lookup name

/-- Whether a name resolves. -/
def resolves (s : Session) (name : String) : Bool :=
  (s.lookup? name).isSome

/-- The symbol table with one more entry; a name already there gets the new one. -/
def bind (symbols : List (String × SymbolEntry)) (name : String) (entry : SymbolEntry) :
    List (String × SymbolEntry) :=
  (name, entry) :: symbols.filter (·.1 != name)

/-- Links a module.  Of two routines published under one name the last one counts. -/
def addModule (s : Session) (exports : List (String × Routine)) : Result (Handle × Session) :=
  match exports.find? fun (name, _) => s.resolves name with
  | some (name, _) => .error (.linkage s!"duplicate symbol '{name}'")
  | none =>
      let handle : Handle := ⟨s.nextHandle⟩
      .ok (handle,
        { s with
          modules := { handle, names := exports.map Prod.fst } :: s.modules
          symbols := exports.foldl
            (fun table (name, routine) => bind table name { owner := handle, routine }) s.symbols
          nextHandle := s.nextHandle + 1 })

/-- Unlinks a module and removes the names it published; an unknown handle changes
nothing. -/
def removeModule (s : Session) (h : Handle) : Session :=
  match s.modules.find? (·.handle == h) with
  | none => s
  | some m =>
      { s with
        modules := s.modules.filter (·.handle != h)
        symbols := s.symbols.filter fun (name, _) => !m.names.contains name }

/-- The routine of a name. -/
def find (s : Session) (name : String) : Result Routine :=
  match s.lookup? name with
  | some entry => .ok entry.routine
  | none => .error (.linkage s!"unresolved symbol '{name}'")

/-- The module that publishes a name. -/
def owner? (s : Session) (name : String) : Option Handle :=
  (s.lookup? name).map (·.owner)

/-- Number of linked modules. -/
def moduleCount (s : Session) : Nat := s.modules.length

/-- Whether a module is linked. -/
def contains (s : Session) (h : Handle) : Bool :=
  s.modules.any (·.handle == h)

/-- Takes the next kernel number. -/
def takeKernelNumber (s : Session) : Nat × Session :=
  (s.nextKernel, { s with nextKernel := s.nextKernel + 1 })

end Session

end Columnar
