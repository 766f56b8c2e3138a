import Columnar.Proofs.Engine.Agreement
import Columnar.Proofs.Selection.Refusal

/-!
# Screening a predicate

A filter checks the whole predicate against every column that it compares before it compiles
anything, and later splits the tree and goes chunk by chunk.  What it lets through is never
refused later, and is what the row evaluator can evaluate, although the evaluator meets the
comparisons in the order of the tree.

* `Schema.exists_fills` -- such rows exist for columns that are not nested.
* `Schema.exists_evaluate_iff_admits` -- on a row of values the evaluator succeeds exactly on
  the predicates that the schema admits.
* `Context.Screens` -- how a filter is refused, what is left of it in a session, and what it
  accepts.
* `Context.filter_screens` -- every filter on a well formed table with chunks is like that.
-/

namespace Columnar

/-- The values that elements of a type decode to.  Nested types have none. -/
def DataType.Holds (t : DataType) (v : Scalar) : Prop :=
  match t with
  | .utf8 => ∃ text, v = .string text
  | t => ∃ native : Native t, v = Native.toScalar t native

/-- Whether a decoded value can be compared with a literal. -/
def Scalar.suits : Scalar → Literal → Bool
  | .signed _, .integer _ | .unsigned _, .integer _ => true
  | .single _, .integer _ | .single _, .float _ => true
  | .double _, .integer _ | .double _, .float _ => true
  | _, _ => false

theorem Scalar.exists_compareLiteral_iff (v : Scalar) (l : Literal) :
    (∃ order, v.compareLiteral l = .ok order) ↔ v.suits l = true := by
  cases v <;> cases l <;> simp [compareLiteral, suits, Literal.toInt?, Literal.toDouble?]

theorem Scalar.exists_satisfies_iff (v : Scalar) (op : Comparison) (l : Literal) :
    (∃ answer, v.satisfies op l = .ok answer) ↔ v.suits l = true := by
  rw [← exists_compareLiteral_iff, satisfies]
  constructor
  · rintro ⟨answer, h⟩
    obtain ⟨order, hOrder, -⟩ := Result.bind_eq_ok_iff.mp h
    exact ⟨order, hOrder⟩
  · rintro ⟨order, hOrder⟩
    exact ⟨op.acceptsPartial order, by rw [hOrder]; rfl⟩

/-- The values of a type can be compared with the literals that suit the type. -/
theorem DataType.Holds.suits_eq {t : DataType} {v : Scalar} (h : t.Holds v) (l : Literal) :
    v.suits l = t.suits l := by
  cases t with
  | list | struct =>
      obtain ⟨native, -⟩ := h
      exact native.elim
  | _ =>
      obtain ⟨_, rfl⟩ := h
      cases l <;> rfl

/-- A type that is not nested has values. -/
theorem DataType.exists_holds {t : DataType} (hList : t ≠ .list) (hStruct : t ≠ .struct) :
    ∃ v, t.Holds v := by
  cases t with
  | utf8 => exact ⟨.string "", "", rfl⟩
  | list => exact absurd rfl hList
  | struct => exact absurd rfl hStruct
  | bool => exact ⟨_, false, rfl⟩
  | half => exact ⟨_, Binary.ofNat .half 0, rfl⟩
  | float => exact ⟨_, Binary.ofNat .single 0, rfl⟩
  | double => exact ⟨_, Binary.ofNat .double 0, rfl⟩
  | decimal128 => exact ⟨_, 0#128, rfl⟩
  | int8 | uint8 => exact ⟨_, 0#8, rfl⟩
  | int16 | uint16 => exact ⟨_, 0#16, rfl⟩
  | int32 | uint32 => exact ⟨_, 0#32, rfl⟩
  | int64 | uint64 => exact ⟨_, 0#64, rfl⟩

namespace Predicate

variable {row : Row}

/-- A tree is evaluated when each of its comparisons is. -/
theorem exists_evaluateTree_iff (row : Row) (p : Predicate) :
    (∃ answer, p.evaluateTree row = .ok answer) ↔ ∀ name op l, (name, op, l) ∈ p.comparisons →
      ∃ answer, (compare name op l).evaluateTree row = .ok answer := by
  induction p with
  | compare column op literal =>
      simp only [comparisons, List.mem_singleton, Prod.mk.injEq]
      constructor
      · rintro h _ _ _ ⟨rfl, rfl, rfl⟩
        exact h
      · exact fun h => h column op literal ⟨rfl, rfl, rfl⟩
  | constant value => exact iff_of_true ⟨value, rfl⟩ fun name op l hMem => by cases hMem
  | combine op lhs rhs ihl ihr =>
      simp only [comparisons, List.mem_append, or_imp, forall_and, ← ihl, ← ihr]
      constructor
      · rintro ⟨answer, h⟩
        obtain ⟨left, hLeft, hRest⟩ := Result.bind_eq_ok_iff.mp h
        obtain ⟨right, hRight, -⟩ := Result.bind_eq_ok_iff.mp hRest
        exact ⟨⟨left, hLeft⟩, ⟨right, hRight⟩⟩
      · rintro ⟨⟨left, hLeft⟩, ⟨right, hRight⟩⟩
        exact ⟨op.apply left right, by rw [evaluateTree, hLeft, hRight]; rfl⟩

/-- In a row without nulls the search for nulls reads every name. -/
theorem exists_of_hasNull {names : List String} {answer : Bool}
    (h : hasNull row names = .ok answer) (hFull : ∀ name ∈ names, row name ≠ .ok none) :
    ∀ name ∈ names, ∃ v, row name = .ok (some v) := by
  induction names with
  | nil => simp
  | cons name rest ih =>
      obtain ⟨hHere, hRest⟩ := List.forall_mem_cons.mp hFull
      obtain ⟨value, hValue, hNext⟩ := Result.bind_eq_ok_iff.mp h
      cases value with
      | none => exact absurd hValue hHere
      | some v => exact List.forall_mem_cons.mpr ⟨⟨v, hValue⟩, ih hNext hRest⟩

end Predicate

namespace Schema

variable {s : Schema} {p : Predicate} {row : Row}

/-- The row has a value under each of the names: of the type of the field where the schema
knows the name, and none where it does not. -/
def Fills (s : Schema) (row : Row) (names : List String) : Prop :=
  ∀ name ∈ names,
    match s.find name with
    | .ok field => ∃ v, row name = .ok (some v) ∧ field.type.Holds v
    | .error e => row name = .error e

theorem Fills.of_find {names : List String} (h : s.Fills row names) {name : String}
    (hName : name ∈ names) {field : Field} (hField : s.find name = .ok field) :
    ∃ v, row name = .ok (some v) ∧ field.type.Holds v := by
  have hHere := h name hName
  rwa [hField] at hHere

/-- When no column of the names is nested there is a row of values under them. -/
theorem exists_fills {names : List String} (h : ∀ name ∈ names, ∀ field,
    s.find name = .ok field → field.type ≠ .list ∧ field.type ≠ .struct) :
    ∃ row, s.Fills row names := by
  have hCell : ∀ name, ∃ cell : Result (Option Scalar), name ∈ names →
      (∀ field, s.find name = .ok field → ∃ v, cell = .ok (some v) ∧ field.type.Holds v) ∧
        ∀ e, s.find name = .error e → cell = .error e := by
    intro name
    by_cases hName : name ∈ names
    · cases hFind : s.find name with
      | error e => exact ⟨.error e, fun _ => ⟨by simp, by simp⟩⟩
      | ok field =>
          obtain ⟨hList, hStruct⟩ := h name hName field hFind
          obtain ⟨v, hHolds⟩ := DataType.exists_holds hList hStruct
          exact ⟨.ok (some v), fun _ => ⟨fun field' hSame =>
            ⟨v, rfl, Except.ok.inj hSame ▸ hHolds⟩, by simp⟩⟩
    · exact ⟨.ok none, fun hMem => absurd hMem hName⟩
  obtain ⟨row, hRow⟩ := Classical.axiomOfChoice hCell
  refine ⟨row, fun name hName => ?_⟩
  obtain ⟨hKnown, hUnknown⟩ := hRow name hName
  cases hFind : s.find name with
  | ok field => exact hKnown field hFind
  | error e => exact hUnknown e hFind

/-- The row evaluator succeeds on a row of values exactly when the schema admits the
predicate. -/
theorem exists_evaluate_iff_admits (h : s.Fills row p.columns) :
    (∃ answer, p.evaluate row = .ok answer) ↔ s.Admits p := by
  -- One comparison is evaluated exactly when the field can make it.
  have hCompare : ∀ name op l field, (name, op, l) ∈ p.comparisons → s.find name = .ok field →
      ((∃ answer, (Predicate.compare name op l).evaluateTree row = .ok answer) ↔
        field.CanTest op l) := by
    intro name op l field hMem hField
    obtain ⟨v, hValue, hHolds⟩ :=
      h.of_find (Predicate.mem_columns_of_mem_comparisons hMem) hField
    rw [Field.canTest_iff, ← hHolds.suits_eq, ← Scalar.exists_satisfies_iff v op l,
      Predicate.evaluateTree, hValue]
    rfl
  constructor
  · rintro ⟨answer, hEvaluate⟩ name op l hMem
    obtain ⟨isNull, hNull, hRest⟩ := Result.bind_eq_ok_iff.mp hEvaluate
    -- Without nulls the evaluator has read every column before it looks at the tree.
    have hFull : ∀ name ∈ p.columns, row name ≠ .ok none := fun name hName hNone => by
      have hHere := h name hName
      cases hFind : s.find name <;> rw [hFind, hNone] at hHere
      · cases hHere
      · obtain ⟨v, hValue, -⟩ := hHere
        cases hValue
    have hKnown := Predicate.exists_of_hasNull hNull hFull
    obtain ⟨v, hValue⟩ := hKnown name (Predicate.mem_columns_of_mem_comparisons hMem)
    have hNone : isNull = false :=
      Except.ok.inj (hNull.symm.trans ((Predicate.hasNull_eq_ok_false_iff row _).mpr hKnown))
    rw [hNone, if_neg (by simp)] at hRest
    have hTree := (Predicate.exists_evaluateTree_iff row p).mp ⟨answer, hRest⟩ name op l hMem
    cases hFind : s.find name with
    | error e =>
        have hHere := h name (Predicate.mem_columns_of_mem_comparisons hMem)
        rw [hFind, hValue] at hHere
        cases hHere
    | ok field => exact ⟨field, rfl, (hCompare name op l field hMem hFind).mp hTree⟩
  · intro hAdmits
    have hKnown : ∀ name ∈ p.columns, ∃ v, row name = .ok (some v) := fun name hName => by
      obtain ⟨field, hField, -⟩ := exists_field_of_admits hAdmits hName
      obtain ⟨v, hValue, -⟩ := h.of_find hName hField
      exact ⟨v, hValue⟩
    obtain ⟨answer, hTree⟩ := (Predicate.exists_evaluateTree_iff row p).mpr
      fun name op l hMem => by
        obtain ⟨field, hField, hTest⟩ := hAdmits name op l hMem
        exact (hCompare name op l field hMem hField).mpr hTest
    refine ⟨answer, ?_⟩
    rw [Predicate.evaluate, (Predicate.hasNull_eq_ok_false_iff row _).mpr hKnown]
    exact hTree

end Schema

namespace Context

variable {ctx : Context} {p : Predicate}

/-- How a filter on a table with chunks screens a predicate. -/
structure Screens (ctx : Context) (p : Predicate) : Prop where
  /-- A filter is refused by the first column at fault, and by nothing else. -/
  error_iff : ∀ e, ctx.filter p = .error e ↔ ctx.table.schema.refusal? p = some e
  /-- A column is at fault when it is unknown, when its type is not numeric, or when it is
  compared with a literal that does not suit it. -/
  refused_iff : (∃ e, ctx.filter p = .error e) ↔
    ∃ name ∈ p.columns, (∀ field ∈ ctx.table.schema.fields, field.name ≠ name) ∨
      ∃ field ∈ ctx.table.schema.fields, field.name = name ∧ (field.type.isNumeric = false ∨
        ∃ op l, (name, op, l) ∈ p.comparisons ∧ field.type.suits l = false)
  /-- Nothing else than such a fault is ever reported. -/
  error_kind : ∀ e, ctx.filter p = .error e → (∃ name ∈ p.columns, e = .columnNotFound name) ∨
    (∃ what, e = .notImplemented what) ∨ ∃ reason, e = .invalidPredicate reason
  /-- A filter that is refused compiles no kernel and leaves every session as it is. -/
  session_eq : ∀ e, ctx.filter p = .error e → ∀ s : Session,
    (ctx.filterIn p).run.run s = (.error e, s)
  /-- Where kernels can be linked, the filter has the same outcome in the session, with every
  access checked. -/
  answers : InSession.Answers (ctx.filterIn p) (ctx.filter p)
  /-- On a row of values of the types of its columns the row evaluator succeeds exactly on the
  predicates that the filter accepts. -/
  evaluates_iff : ∀ row : Row, ctx.table.schema.Fills row p.columns →
    ((∃ ctx', ctx.filter p = .ok ctx') ↔ ∃ answer, p.evaluate row = .ok answer)

/-- Every filter on a well formed table with chunks, under a selection that fits, screens its
predicate. -/
theorem filter_screens (hTable : ctx.table.WellFormed) (hChunks : ctx.table.isChunkless = false)
    (hSelection : ctx.checkSelection = .ok ()) (p : Predicate) : ctx.Screens p := by
  have hCtx : ctx.WellFormed := ⟨hTable, (checkSelection_eq_ok_iff ctx).mp hSelection⟩
  have hRefusal := error?_filter hCtx hChunks p
  have hError : ∀ e, ctx.filter p = .error e ↔ ctx.table.schema.refusal? p = some e := fun e => by
    rw [← hRefusal, Result.error?_eq_some_iff]
  refine
    { error_iff := hError
      refused_iff := ?_
      error_kind := fun e hFilter =>
        (Predicate.fault_iff p e).mp (Schema.fault_of_refusal? ((hError e).mp hFilter))
      session_eq := fun e hFilter s => ?_
      answers := filterIn_answers hTable p
      evaluates_iff := fun row hRow => ?_ }
  · rw [← Schema.isSome_refusal?_iff, Option.isSome_iff_exists]
    exact exists_congr hError
  · have hValidate : ctx.table.validate p = .error e := by
      rw [← Result.error?_eq_some_iff, Table.error?_validate]
      exact (hError e).mp hFilter
    exact filterIn_of_refused hSelection hChunks hValidate s
  · rw [Schema.exists_evaluate_iff_admits hRow]
    constructor
    · rintro ⟨ctx', hFilter⟩
      exact admits_of_filter hChunks hFilter
    · intro hAdmits
      obtain ⟨b, hFilter, -⟩ := filter_of_admits hCtx hChunks hAdmits
      exact ⟨_, hFilter⟩

/-- A disjunction whose sides are both at fault, the right one for an unknown column. -/
def faultySample : Predicate :=
  .or (.compare "score" .gt (.string "x")) (.compare "who" .lt (.integer 3))

theorem filter_sample_screens :
    sample.table.WellFormed ∧ sample.table.isChunkless = false ∧
      sample.checkSelection = .ok () ∧ sample.Screens faultySample ∧
      sample.filter faultySample = .error
        (.invalidPredicate "cannot compare UINT8 column with string literal 'x'") :=
  have hScreens : sample.Screens faultySample :=
    filter_screens wellFormed_sample.table_wellFormed rfl (by decide) faultySample
  ⟨wellFormed_sample.table_wellFormed, rfl, by decide, hScreens,
    (hScreens.error_iff _).mpr (by decide +kernel)⟩

end Context

end Columnar
