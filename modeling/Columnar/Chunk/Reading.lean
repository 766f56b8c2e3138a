import Columnar.Checked

/-!
# Reading chunks

Elements can be read one at a time, as elements of a type or decoded.  These readers look at
every place before they use it: a place that is not there is reported as `unreachable`, and so
are offsets of text that do not enclose bytes of the chunk.
-/

namespace Columnar

namespace Chunk

/-- The element of type `t` at `i`, valid or not. -/
def valueAt (c : Chunk) (t : DataType) (i : Nat) : Result (Native t) :=
  let start := wordMul i t.width
  let stop := start + t.width
  if stop ≤ c.bytes.size then
    match Native.ofWord? t (littleEndian (c.bytes.extract start stop).toList) with
    | some v => .ok v
    | none => .error (.unreachable s!"{t.name} elements have no fixed width")
  else
    .error (.unreachable s!"element {i} ends at byte {stop} of {c.bytes.size}")

/-- The text at `i`, `none` for chunks that are not of text and for bytes that are not UTF-8. -/
def readText (c : Chunk) (i : Nat) : Result (Option String) :=
  if c.type = .utf8 then
    match c.offsets[i]?, c.offsets[i + 1]? with
    | some start, some stop =>
        if start.toNat ≤ stop.toNat ∧ stop.toNat ≤ c.bytes.size then
          .ok (String.fromUTF8? ⟨c.bytes.extract start.toNat stop.toNat⟩)
        else
          .error (.unreachable s!"bytes {start} to {stop} of {c.bytes.size}")
    | _, _ => .error (.unreachable s!"no element {i} among {c.length}")
  else
    .ok none

/-- The decoded element at `i`, `none` when it is not valid. -/
def readScalar (c : Chunk) (i : Nat) : Result (Option Scalar) := do
  if ← c.readValid i then
    if c.type = .utf8 then
      return some (.string ((← c.readText i).getD ""))
    c.checkElement i
    match c.type.scalar? (c.word i) with
    | some scalar => return some scalar
    | none => throw (.notImplemented s!"scalar access for {c.type.name} arrays")
  else
    return none

end Chunk

end Columnar
