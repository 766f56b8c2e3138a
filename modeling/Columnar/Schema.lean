import Columnar.DataType
import Columnar.Error

/-!
# Schemas

A schema is an ordered list of named, typed fields, and no two fields of one
schema share a name.  That invariant is part of the type: `Schema.ofFields` checks
it, and every schema comes from there.
-/

namespace Columnar

/-- A named, typed column slot. -/
structure Field where
  name : String
  type : DataType
  nullable : Bool := true
  deriving DecidableEq

/-- The text of a field in a schema. -/
def Field.text (f : Field) : String :=
  f.name ++ ": " ++ f.type.name

/-- The first name that repeats one of `seen` or an earlier name of the list. -/
def firstRepeat (seen : List String) : List String → Option String
  | [] => none
  | name :: rest =>
      if name ∈ seen then some name else firstRepeat (name :: seen) rest

theorem firstRepeat_eq_none_iff (seen names : List String) :
    firstRepeat seen names = none ↔
      names.Nodup ∧ ∀ name ∈ names, name ∉ seen := by
  induction names generalizing seen with
  | nil => simp [firstRepeat]
  | cons name rest ih =>
      by_cases h : name ∈ seen
      · simp [firstRepeat, h]
      · simp only [firstRepeat, h, if_false, ih, List.nodup_cons, List.mem_cons,
          forall_eq_or_imp, not_false_iff, true_and, not_or]
        constructor
        · rintro ⟨hNodup, hFresh⟩
          exact ⟨⟨fun hMem => (hFresh name hMem).1 rfl, hNodup⟩,
            fun other hMem => (hFresh other hMem).2⟩
        · rintro ⟨⟨hNew, hNodup⟩, hFresh⟩
          exact ⟨hNodup, fun other hMem =>
            ⟨fun hEq => hNew (hEq ▸ hMem), hFresh other hMem⟩⟩

/-- An ordered list of fields with pairwise distinct names. -/
structure Schema where
  fields : List Field
  nodup : (fields.map Field.name).Nodup
  deriving DecidableEq

namespace Schema

/-- The schema of `fields`, refused at the first name that repeats. -/
def ofFields (fields : List Field) : Result Schema :=
  match h : firstRepeat [] (fields.map Field.name) with
  | none => .ok ⟨fields, ((firstRepeat_eq_none_iff _ _).mp h).1⟩
  | some name => .error (.schema s!"duplicate field name '{name}'")

/-- The schema without fields. -/
def empty : Schema := ⟨[], List.nodup_nil⟩

/-- Number of fields. -/
def length (s : Schema) : Nat := s.fields.length

/-- The position of a field, by name; what an index finds that is filled once, name by name
(`Schema.exists_index`). -/
def indexOf? (s : Schema) (name : String) : Option Nat :=
  s.fields.findIdx? (·.name == name)

/-- The field at a position. -/
def field? (s : Schema) (i : Nat) : Option Field := s.fields[i]?

/-- The field of a given name. -/
def find (s : Schema) (name : String) : Result Field :=
  match s.fields.find? (·.name == name) with
  | some field => .ok field
  | none => .error (.columnNotFound name)

/-- The position of a field, refused when the name is unknown. -/
def locate (s : Schema) (name : String) : Result Nat :=
  match s.indexOf? name with
  | some i => .ok i
  | none => .error (.columnNotFound name)

/-- The schema of the named fields in the order given, and the source position of
each.  Unknown names are refused before repeated ones. -/
def project (s : Schema) (names : List String) : Result (Schema × List Nat) := do
  let indices ← names.mapM s.locate
  let schema ← ofFields (indices.filterMap s.field?)
  return (schema, indices)

/-- The text of a schema. -/
def text (s : Schema) : String :=
  "(" ++ ", ".intercalate (s.fields.map Field.text) ++ ")"

end Schema

end Columnar
