import Columnar.Chunk.Basic

/-!
# Building chunks

Chunks are built from elements, from optional elements, from strings, or from
raw bytes.  Raw bytes are the only input that can be refused: their number has to
be the number of elements times the width, where the product is the product of two
machine words, and a validity bitmap has to have one bit per element.
-/

namespace Columnar

namespace Chunk

/-- The value bytes of a list of words. -/
def encode (width : Nat) (words : List Nat) : Array UInt8 :=
  (words.flatMap (wordBytes width)).toArray

/-- A chunk of elements that are all valid. -/
def ofValues (t : DataType) (values : List (Native t)) : Chunk where
  type := t
  length := values.length
  bytes := encode t.width (values.map (Native.toWord t))
  offsets := #[]
  validity := none

/-- The stored word of an optional element; an absent one is stored as zero. -/
def optionWord (t : DataType) : Option (Native t) → Nat
  | none => 0
  | some v => Native.toWord t v

/-- A chunk of optional elements.  It always has a validity bitmap. -/
def ofOptions (t : DataType) (values : List (Option (Native t))) : Chunk where
  type := t
  length := values.length
  bytes := encode t.width (values.map (optionWord t))
  offsets := #[]
  validity := some <| (values.zipIdx).foldl
    (fun v (value, i) => if value.isSome then v else v.set i false)
    (Bitmap.allSet values.length)

/-- The positions at which strings laid end to end start, and where the last one
ends, each kept in 32 bits. -/
def textOffsets (start : Nat) : List String → List UInt32
  | [] => [UInt32.ofNat start]
  | s :: rest => UInt32.ofNat start :: textOffsets (start + s.utf8ByteSize) rest

/-- A chunk of text. -/
def ofStrings (values : List String) : Chunk where
  type := .utf8
  length := values.length
  bytes := (values.flatMap fun s => s.toUTF8.data.toList).toArray
  offsets := (textOffsets 0 values).toArray
  validity := none

/-- A chunk of fixed width from its parts. -/
def ofRaw (t : DataType) (length : Nat) (bytes : Array UInt8)
    (validity : Option Bitmap) : Result Chunk := do
  let some width := t.width?
    | throw (.notImplemented s!"raw construction of {t.name} arrays")
  let needed := wordMul length width
  if bytes.size ≠ needed then
    throw (.schema
      s!"{t.name} array of {length} values needs {needed} bytes, got {bytes.size}")
  if let some v := validity then
    if v.length ≠ length then
      throw (.schema s!"validity bitmap has {v.length} bits for {length} values")
  return { type := t, length, bytes, offsets := #[], validity }

/-- The chunk without elements. -/
def empty (t : DataType) : Chunk where
  type := t
  length := 0
  bytes := #[]
  offsets := if t = .utf8 then #[0] else #[]
  validity := none

@[simp]
theorem type_ofValues (t : DataType) (values : List (Native t)) :
    (ofValues t values).type = t := rfl

@[simp]
theorem type_ofOptions (t : DataType) (values : List (Option (Native t))) :
    (ofOptions t values).type = t := rfl

@[simp]
theorem type_empty (t : DataType) : (empty t).type = t := rfl

theorem size_encode (width : Nat) (words : List Nat) :
    (encode width words).size = words.length * width := by
  induction words with
  | nil => simp [encode]
  | cons n rest ih =>
      simp only [encode, List.size_toArray] at ih
      simp [encode, ih, Nat.succ_mul, Nat.add_comm]

end Chunk

end Columnar
