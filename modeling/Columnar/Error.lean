/-!
# Failures

Every fallible operation of the library answers in `Result`.  An `Error` says
which layer refused and carries the detail that its message shows.  The wording
of each kind is fixed once, in `Error.message`.
-/

namespace Columnar

/-- Why an operation refused. -/
inductive Error where
  /-- A type, operation or layout that the engine deliberately does not handle. -/
  | notImplemented (what : String)
  /-- A kernel was run before it was compiled. -/
  | kernelNotCompiled
  /-- A kernel was compiled a second time. -/
  | kernelAlreadyCompiled
  /-- A comparison that has no meaning for its column. -/
  | invalidPredicate (reason : String)
  /-- A name that the schema or the row does not have. -/
  | columnNotFound (name : String)
  /-- Columns, fields or buffers that do not fit together. -/
  | schema (reason : String)
  /-- A symbol that could not be published or resolved. -/
  | linkage (reason : String)
  /-- Sizes that do not fit when an operation runs. -/
  | runtime (reason : String)
  /-- A broken internal invariant. -/
  | unreachable (reason : String)
  deriving DecidableEq

/-- The outcome of a fallible operation. -/
abbrev Result := Except Error

/-- The text shown for an error. -/
def Error.message : Error → String
  | .notImplemented what => "not implemented: " ++ what
  | .kernelNotCompiled => "filter kernel has not been compiled"
  | .kernelAlreadyCompiled => "filter kernel is already compiled"
  | .invalidPredicate reason => "invalid predicate: " ++ reason
  | .columnNotFound name => "column not found: " ++ name
  | .schema reason => "schema error: " ++ reason
  | .linkage reason => "jit error: " ++ reason
  | .runtime reason => "runtime error: " ++ reason
  | .unreachable reason => "unreachable: " ++ reason

end Columnar
