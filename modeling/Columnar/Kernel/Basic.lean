import Columnar.Kernel.Pass
import Columnar.Session

/-!
# Kernels

A kernel belongs to one field and one predicate.  It is compiled once, in a session,
where it publishes its two passes under names made of its number and its field, and
it can be run from then on.  A predicate that is refused takes no number; one that is
accepted takes a number even when its names cannot be published.
-/

namespace Columnar

/-- What compiling leaves behind. -/
structure Linked where
  handle : Handle
  program : Program

/-- A filter for one field. -/
structure Kernel where
  field : Field
  predicate : Predicate
  linked : Option Linked := none

namespace Kernel

/-- A kernel that has not been compiled. -/
def new (field : Field) (predicate : Predicate) : Kernel :=
  { field, predicate }

/-- Whether the kernel can be run. -/
def isCompiled (k : Kernel) : Bool := k.linked.isSome

/-- The name of the bulk pass of a kernel. -/
def bulkName (number : Nat) (field : String) : String :=
  s!"filter_{number}_{field}"

/-- The name of the boundary pass of a kernel. -/
def boundaryName (number : Nat) (field : String) : String :=
  s!"filter_remaining_{number}_{field}"

/-- What a kernel publishes. -/
def exports (number : Nat) (field : String) : List (String × Routine) :=
  [(bulkName number field, .bulk number), (boundaryName number field, .boundary number)]

/-- What a session has under the names of a kernel: its bulk pass and its boundary pass. -/
def resolve (number : Nat) (field : String) (s : Session) : Result (Routine × Routine) := do
  let bulk ← s.find (bulkName number field)
  let boundary ← s.find (boundaryName number field)
  return (bulk, boundary)

/-- Compiles a kernel in a session.  The session moves on even when linking fails, and a module
whose names do not resolve is unlinked again. -/
def compile (k : Kernel) (s : Session) : Session × Result Kernel :=
  if k.isCompiled then (s, .error .kernelAlreadyCompiled)
  else
    match Program.ofPredicate k.field k.predicate with
    | .error e => (s, .error e)
    | .ok program =>
        let (number, s) := s.takeKernelNumber
        match s.addModule (exports number k.field.name) with
        | .error e => (s, .error e)
        | .ok (handle, s) =>
            match resolve number k.field.name s with
            | .error e => (s.removeModule handle, .error e)
            | .ok _ => (s, .ok { k with linked := some { handle, program } })

/-- Unloads the module of a kernel that is no longer needed. -/
def drop (k : Kernel) (s : Session) : Session :=
  match k.linked with
  | none => s
  | some linked => s.removeModule linked.handle

/-- The program of a compiled kernel. -/
def program (k : Kernel) : Result Program :=
  match k.linked with
  | some linked => .ok linked.program
  | none => .error .kernelNotCompiled

/-- Bulk pass over the elements of a chunk behind `offset`. -/
def execute (k : Kernel) (chunk : Chunk) (bytes : Array UInt8) (offset : Nat) :
    Result (Array UInt8) := do
  (← k.program).runBulk chunk bytes offset

/-- Boundary pass into one byte. -/
def executeRemaining (k : Kernel) (chunk : Chunk) (byte : UInt8) (element bit : Nat) :
    Result UInt8 := do
  return byte &&& (← (← k.program).boundary chunk element bit)

end Kernel

end Columnar
