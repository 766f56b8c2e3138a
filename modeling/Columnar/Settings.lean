/-!
# Engine settings

What a caller may choose: how many rows an output chunk of a compaction holds,
how many workers run, and how kernels are generated.  Workers and code generation
never change an answer.
-/

namespace Columnar

/-- How hard the code generator works. -/
inductive OptLevel where
  | none
  | speed
  | speedAndSize
  deriving DecidableEq

/-- The name of a level among the generator's settings. -/
def OptLevel.name : OptLevel → String
  | .none => "none"
  | .speed => "speed"
  | .speedAndSize => "speed_and_size"

/-- Settings of one engine instance. -/
structure Settings where
  /-- Rows of one output chunk of a compaction. -/
  chunkSize : Nat := 16384
  /-- Upper bound on the number of workers. -/
  workers : Nat := 2
  /-- Whether the predicate body is repeated in the bulk and boundary loops. -/
  inlinePredicate : Bool := true
  optLevel : OptLevel := .speed

namespace Settings

/-- Everything runs on the caller's own worker. -/
def sequential : Settings := { workers := 1 }

end Settings

end Columnar
