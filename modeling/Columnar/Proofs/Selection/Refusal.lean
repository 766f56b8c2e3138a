import Mathlib.Data.List.Nodup
import Mathlib.Tactic.MkIffOfInductiveProp
import Columnar.Proofs.Selection.Filter

/-!
# Which predicates are refused

A predicate is looked at column by column, in the order in which its columns first appear,
before anything is run.  A column may be unknown, have a type that kernels do not handle, or
be compared with a literal that has no meaning for it.  The first column with such a fault
decides how a filter on a table with chunks is refused, and without a fault the filter
succeeds.

* `Schema.refusal?` -- the refusal of a predicate, read off its comparisons from left to
  right.
* `Schema.isSome_refusal?_iff` -- what a column can be at fault for.
* `Schema.fault_of_refusal?` -- which errors such a fault is reported as.
* `Context.error?_filter` -- a filter is refused exactly as the schema refuses.
-/

namespace Columnar

/-- The errors that a fault of a predicate is reported as. -/
@[mk_iff]
inductive Predicate.Fault (p : Predicate) : Error → Prop where
  /-- The predicate compares a column that is not there. -/
  | column (name : String) (hName : name ∈ p.columns) : Fault p (.columnNotFound name)
  /-- Kernels do not handle the type of a compared column. -/
  | type (what : String) : Fault p (.notImplemented what)
  /-- A column is compared with a literal that has no meaning for it. -/
  | literal (reason : String) : Fault p (.invalidPredicate reason)

/-- Whether elements of a type can be compared with a literal. -/
def DataType.suits (t : DataType) : Literal → Bool
  | .integer _ => t.isNumeric
  | .float _ => t.isFloat
  | .string _ => false
  | .bool _ => false

theorem DataType.isNumeric_of_suits {t : DataType} {l : Literal} (h : t.suits l = true) :
    t.isNumeric = true := by
  cases l with
  | integer _ => exact h
  | float _ =>
      have hFloat : t.isFloat = true := h
      simp [isNumeric, hFloat]
  | string _ | bool _ => exact absurd h (by simp [suits])

/-- A lane has a test for the literals that suit its type. -/
theorem Lane.test?_isSome {t : DataType} {lane : Lane} (h : t.lane? = some lane)
    (op : Comparison) (l : Literal) : (lane.test? op l).isSome = t.suits l := by
  cases t with
  | bool | decimal128 | utf8 | list | struct => exact absurd h (by simp [DataType.lane?])
  | _ =>
      obtain rfl := Option.some.inj h
      cases l <;> rfl

namespace Field

variable {field : Field} {p : Predicate}

theorem canTest_iff (field : Field) (op : Comparison) (l : Literal) :
    field.CanTest op l ↔ field.type.suits l = true := by
  constructor
  · rintro ⟨lane, test, hLane, hTest⟩
    rw [← Lane.test?_isSome hLane op l, hTest]
    rfl
  · intro hSuits
    obtain ⟨lane, hLane⟩ : ∃ lane, field.type.lane? = some lane := by
      rw [← Option.isSome_iff_exists, DataType.lane?_isSome]
      exact DataType.isNumeric_of_suits hSuits
    rw [← Lane.test?_isSome hLane op l] at hSuits
    obtain ⟨test, hTest⟩ := Option.isSome_iff_exists.mp hSuits
    exact ⟨lane, test, hLane, hTest⟩

/-- The leftmost comparison on the field with a literal that does not suit it. -/
def clash? (field : Field) (p : Predicate) : Option (String × Comparison × Literal) :=
  p.comparisons.find? fun (name, _, l) => name == field.name && !field.type.suits l

/-- How a field refuses a predicate, if it does. -/
def refusal? (field : Field) (p : Predicate) : Option Error :=
  if field.type.isNumeric then
    (field.clash? p).map fun (_, _, l) => .invalidPredicate
      s!"cannot compare {field.type.name} column with {l.typeName} literal {l.text}"
  else some (.notImplemented s!"filter kernels for {field.type.name} columns")

/-- A subtree that compares other columns only has no clash. -/
theorem clash?_of_foreign (h : p.relevance field.name = .foreign) : field.clash? p = none := by
  refine List.find?_eq_none.mpr fun (name, op, l) hMem hClash => ?_
  obtain rfl : name = field.name := by
    simp only [Bool.and_eq_true, beq_iff_eq] at hClash
    exact hClash.1
  have hOwn := (Predicate.mentions_iff_exists field.name p).mpr ⟨op, l, hMem⟩
  rw [((Predicate.relevance_eq_foreign_iff _ _).mp h).1] at hOwn
  exact absurd hOwn (by simp)

/-- Lowering is refused at the leftmost clash, wherever it is in the tree. -/
theorem error?_lower {lane : Lane} (hLane : field.type.lane? = some lane)
    (enclosing : Connective) (p : Predicate) :
    Result.error? (Condition.lower field lane enclosing p) =
      (field.clash? p).map fun (_, _, l) => .invalidPredicate
        s!"cannot compare {field.type.name} column with {l.typeName} literal {l.text}" := by
  -- The connective around a subtree decides its neutral constant only.
  induction p generalizing enclosing with
  | compare column op l =>
      have hTest := Lane.test?_isSome hLane op l
      by_cases hName : column = field.name
      · rw [Condition.lower, if_pos hName]
        cases hSome : lane.test? op l <;> rw [hSome] at hTest <;>
          simp [clash?, Predicate.comparisons, hName, ← hTest, Result.error?]
      · rw [Condition.lower, if_neg hName]
        simp [clash?, Predicate.comparisons, hName, Result.error?]
  | constant value => rfl
  | combine op lhs rhs ihl ihr =>
      by_cases hForeign : (Predicate.combine op lhs rhs).relevance field.name = .foreign
      · rw [Condition.lower, if_pos hForeign, clash?_of_foreign hForeign]
        rfl
      · -- Both sides are lowered, and the left one is refused first.
        have hParts : field.clash? (.combine op lhs rhs) =
            (field.clash? lhs).or (field.clash? rhs) := List.find?_append
        have hBoth := Result.error?_bind_bind_ok (Condition.lower field lane op lhs)
          (Condition.lower field lane op rhs) (Condition.combine op)
        rw [ihl op, ihr op, ← Option.map_or, ← hParts] at hBoth
        rw [Condition.lower, if_neg hForeign]
        exact hBoth

/-- A field refuses a predicate when its validation does. -/
theorem error?_validate (field : Field) (p : Predicate) :
    Result.error? (Condition.validate field p) = field.refusal? p := by
  have hNumeric := DataType.lane?_isSome field.type
  have hValidate := Result.error?_bind_ok (Condition.ofPredicate field p) fun _ => ()
  refine hValidate.trans ?_
  rw [refusal?, Condition.ofPredicate, ← hNumeric]
  cases hLane : field.type.lane? with
  | none => rfl
  | some lane => exact error?_lower hLane .and p

/-- A field refuses a predicate when its type is not numeric or some comparison on it has an
unsuitable literal. -/
theorem isSome_refusal?_iff (field : Field) (p : Predicate) :
    (field.refusal? p).isSome = true ↔ field.type.isNumeric = false ∨
      ∃ op l, (field.name, op, l) ∈ p.comparisons ∧ field.type.suits l = false := by
  rw [refusal?]
  cases hNumeric : field.type.isNumeric with
  | false => simp
  | true =>
      simp only [if_true, Option.isSome_map, clash?, List.find?_isSome, Prod.exists,
        Bool.and_eq_true, beq_iff_eq, Bool.not_eq_true', Bool.true_eq_false, false_or]
      constructor
      · rintro ⟨name, op, l, hMem, rfl, hSuits⟩
        exact ⟨op, l, hMem, hSuits⟩
      · rintro ⟨op, l, hMem, hSuits⟩
        exact ⟨field.name, op, l, hMem, rfl, hSuits⟩

end Field

namespace Schema

variable {s : Schema} {p : Predicate}

/-- How a schema refuses what a predicate says about one name, if it does. -/
def refusalAt? (s : Schema) (p : Predicate) (name : String) : Option Error :=
  match s.fields.find? (·.name == name) with
  | none => some (.columnNotFound name)
  | some field => field.refusal? p

/-- How a schema refuses a predicate, if it does: by the first column that is at fault. -/
def refusal? (s : Schema) (p : Predicate) : Option Error :=
  p.columns.findSome? (s.refusalAt? p)

end Schema

/-- Validation is the refusal by the schema. -/
theorem Table.error?_validate (t : Table) (p : Predicate) :
    Result.error? (t.validate p) = t.schema.refusal? p := by
  rw [validate, Result.error?_forM, Schema.refusal?]
  refine congrArg (List.findSome? · p.columns) (funext fun name => ?_)
  rw [Schema.refusalAt?, Schema.find]
  cases t.schema.fields.find? (·.name == name) with
  | none => rfl
  | some field => exact Field.error?_validate field p

namespace Schema

variable {s : Schema} {p : Predicate}

/-- A schema refuses a predicate when some column that it compares is unknown, has a type that
is not numeric, or is compared with a literal that does not suit it. -/
theorem isSome_refusal?_iff (s : Schema) (p : Predicate) :
    (s.refusal? p).isSome = true ↔
      ∃ name ∈ p.columns, (∀ field ∈ s.fields, field.name ≠ name) ∨
        ∃ field ∈ s.fields, field.name = name ∧ (field.type.isNumeric = false ∨
          ∃ op l, (name, op, l) ∈ p.comparisons ∧ field.type.suits l = false) := by
  rw [refusal?, List.findSome?_isSome_iff]
  refine exists_congr fun name => and_congr_right fun _ => ?_
  rw [refusalAt?]
  cases hFind : s.fields.find? (·.name == name) with
  | none =>
      have hUnknown : ∀ field ∈ s.fields, field.name ≠ name := by
        simpa using List.find?_eq_none.mp hFind
      exact iff_of_true rfl (.inl hUnknown)
  | some field =>
      have hMem := List.mem_of_find?_eq_some hFind
      have hName : field.name = name := by simpa using List.find?_some hFind
      rw [Field.isSome_refusal?_iff, hName]
      constructor
      · exact fun h => .inr ⟨field, hMem, hName, h⟩
      · rintro (hUnknown | ⟨other, hOther, hSame, h⟩)
        · exact absurd hName (hUnknown field hMem)
        · -- Fields of one name are one field.
          obtain rfl : field = other :=
            List.inj_on_of_nodup_map s.nodup hMem hOther (hName.trans hSame.symm)
          exact h

/-- A refusal is a fault of the predicate. -/
theorem fault_of_refusal? {e : Error} (h : s.refusal? p = some e) : p.Fault e := by
  obtain ⟨name, hName, hAt⟩ := List.exists_of_findSome?_eq_some h
  rw [refusalAt?] at hAt
  split at hAt
  · obtain rfl := Option.some.inj hAt
    exact .column name hName
  · rw [Field.refusal?] at hAt
    split at hAt
    · obtain ⟨_, -, rfl⟩ := Option.map_eq_some_iff.mp hAt
      exact .literal _
    · obtain rfl := Option.some.inj hAt
      exact .type _

end Schema

namespace Context

variable {ctx : Context} {p : Predicate}

/-- On a table with chunks a filter is refused exactly as the schema refuses. -/
theorem error?_filter (hCtx : ctx.WellFormed) (hChunks : ctx.table.isChunkless = false)
    (p : Predicate) : Result.error? (ctx.filter p) = ctx.table.schema.refusal? p := by
  rw [← Table.error?_validate]
  cases hValidate : ctx.table.validate p with
  | error e =>
      rw [filter, hCtx.checkSelection, Result.ok_bind, hChunks, if_neg (by simp), hValidate]
      rfl
  | ok _ =>
      obtain ⟨b, hFilter, -⟩ := filter_of_admits hCtx hChunks
        ((Table.validate_eq_ok_iff ctx.table p).mp hValidate)
      rw [hFilter]
      rfl

end Context

end Columnar
