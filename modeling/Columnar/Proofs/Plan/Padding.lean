import Columnar.Proofs.Context.Padding

/-!
# Padding in a run of a plan

A plan is run on two tables that differ in padding alone.  Until something is compacted the
contexts differ in padding alone, and from then on they are the same.

* `Context.project_agrees` -- a projection keeps the agreement.
* `Context.Twins.run` -- so does every step.
* `Plan.execute_agrees` -- two runs are refused alike, or end in contexts that agree.
-/

namespace Columnar

/-- Lists that are related have related elements at every place. -/
theorem rel_getElem? {α : Type} {R : α → α → Prop} {l l' : List α} (h : List.Forall₂ R l l')
    (i : Nat) : Option.Rel R l[i]? l'[i]? := by
  induction h generalizing i with
  | nil => exact .none
  | cons hHead _ ih =>
      cases i with
      | zero => exact .some hHead
      | succ i => exact ih i

namespace Result

variable {α β : Type} {R : α → α → Prop} {S : β → β → Prop} {x x' : Result α}

theorem rel_refl (hRefl : ∀ a, R a a) (x : Result α) : Rel R x x := by
  cases x with
  | error e => exact rfl
  | ok a => exact hRefl a

/-- What follows from related outcomes may use that they are outcomes. -/
theorem Rel.imp {R' : α → α → Prop} (h : Rel R x x')
    (hImp : ∀ a a', x = .ok a → R a a' → R' a a') : Rel R' x x' := by
  cases x <;> cases x'
  · exact h
  · exact h
  · exact h
  · exact hImp _ _ rfl h

/-- Operations that answer related arguments alike keep a relation. -/
theorem Rel.bind (h : Rel R x x') {f f' : α → Result β}
    (hStep : ∀ a a', R a a' → Rel S (f a) (f' a')) : Rel S (x >>= f) (x' >>= f') := by
  cases x <;> cases x'
  · exact h
  · exact h.elim
  · exact h.elim
  · exact hStep _ _ h

end Result

namespace Context

variable {ctx ctx' : Context}

/-- A projection keeps the agreement. -/
theorem project_agrees (h : ctx.Agrees ctx') (names : List String) :
    Result.Rel Agrees (ctx.project names) (ctx'.project names) := by
  have hSchema := h.table.schema_eq
  cases hProject : ctx.table.schema.project names with
  | error e =>
      have hLeft : ctx.project names = .error e := by
        rw [project, Table.project, hProject]
        rfl
      have hRight : ctx'.project names = .error e := by
        rw [project, Table.project, ← hSchema, hProject]
        rfl
      rw [hLeft, hRight]
      exact rfl
  | ok made =>
      obtain ⟨next, hNext⟩ := (exists_project_iff ctx names).mpr ⟨made, hProject⟩
      obtain ⟨next', hNext'⟩ := (exists_project_iff ctx' names).mpr ⟨made, hSchema ▸ hProject⟩
      obtain ⟨indices, hProjected⟩ := projected_of_project hNext
      obtain ⟨indices', hProjected'⟩ := projected_of_project hNext'
      obtain rfl : indices = indices' := by
        refine Schema.indices_unique hProjected.indices_eq ?_
        rw [hSchema]
        exact hProjected'.indices_eq
      rw [hNext, hNext']
      refine ⟨⟨Schema.eq_of_fields ?_, ?_⟩, ?_⟩
      · rw [hProjected.fields_eq, hProjected'.fields_eq, hSchema]
      · rw [hProjected.columns_eq, hProjected'.columns_eq]
        refine List.rel_filterMap (R := Eq) (fun k _ hSame => ?_)
          (List.forall₂_same.mpr fun _ _ => rfl)
        rw [← hSame]
        exact rel_getElem? h.table.columns k
      · rw [hProjected.selection_eq, hProjected'.selection_eq]
        exact h.selection

/-- The contexts of two runs: the same, or built ones with room for their bytes that differ in
padding alone. -/
inductive Twins : Context → Context → Prop
  | same (ctx : Context) : Twins ctx ctx
  | padded {ctx ctx' : Context} : Part.Built (.table ctx.table) → ctx.table.Regular →
      ctx.Agrees ctx' → Twins ctx ctx'

theorem Twins.agrees (h : Twins ctx ctx') : ctx.Agrees ctx' := by
  cases h with
  | same => exact agrees_refl _
  | padded _ _ hAgrees => exact hAgrees

/-- One step of two runs. -/
theorem Twins.run (h : Twins ctx ctx') (settings : Settings) (step : Step) :
    Result.Rel Twins (step.run settings ctx) (step.run settings ctx') := by
  cases h with
  | same => exact Result.rel_refl Twins.same _
  | padded hBuilt hRegular hAgrees =>
      cases step with
      | project names =>
          refine (project_agrees hAgrees names).imp fun next next' hNext hAgrees => ?_
          obtain ⟨indices, hProjected⟩ := projected_of_project hNext
          have hNext' : Step.run settings ctx (.project names) = .ok next := hNext
          exact .padded (.step hBuilt hNext')
            (fun c hMem => hRegular c (hProjected.mem_columns hMem)) hAgrees
      | filter p =>
          refine (filter_agrees hBuilt.sound hAgrees p).imp fun next next' hNext hAgrees => ?_
          have hTable := table_of_filter hNext
          exact .padded (hTable ▸ hBuilt) (hTable ▸ hRegular) hAgrees
      | materialize =>
          show Result.Rel Twins (ctx.materialize _) (ctx'.materialize _)
          rw [materialize_agrees hRegular hAgrees]
          exact Result.rel_refl Twins.same _

end Context

/-- Two runs of a plan on tables that differ in padding alone are refused alike, or end in
contexts that do. -/
theorem Plan.execute_agrees {t t' : Table} (hBuilt : Part.Built (.table t))
    (hRoom : ∀ c ∈ t.columns, total (c.chunks.map fun chunk => chunk.bytes.size) < 2 ^ 64)
    (h : t.Agrees t') (settings : Settings) (plan : Plan) :
    Result.Rel Context.Agrees (plan.execute settings t) (plan.execute settings t') := by
  have hTwins : Result.Rel Context.Twins (plan.execute settings t) (plan.execute settings t') := by
    induction plan with
    | nil => exact .padded hBuilt (hBuilt.regular hRoom) ⟨h, .none⟩
    | cons step input ih =>
        rw [execute_cons, execute_cons]
        exact ih.bind fun _ _ hCtx => hCtx.run settings step
  exact hTwins.imp fun _ _ _ hCtx => hCtx.agrees

end Columnar
