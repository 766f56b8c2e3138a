import Columnar.Plan.NormalForm
import Columnar.Plan.Optimization
import Columnar.Proofs.Result
import Mathlib.Data.List.Induction

/-!
# Joining filters computes the normal form

The pass that joins filters looks at one step at a time and digs through the compactions of
the plan rebuilt below it.  `Plan.merge` says what it makes of a whole plan, stretch by
stretch.  A projection ends a stretch for good, so whatever follows a list of steps changes
the merged stretch at its end and nothing before it (`exists_merge_append`).

* `run_joinFilters` -- the pass makes the normal form of every plan.
* `FiltersApart.run_eq_self` -- it leaves a plan alone whose filters are apart, as they are in
  everything that it makes.
* `optimize_eq_ite` -- of a list of passes it only counts whether filters are joined.
-/

namespace Columnar

namespace Plan

variable {steps stretch tail : List Step} {plan : Plan}

/-- The steps of a plan between two projections. -/
def IsStretch (steps : List Step) : Prop :=
  ∀ names, Step.project names ∉ steps

theorem isStretch_nil : IsStretch [] := fun _ => List.not_mem_nil

theorem isStretch_singleton {step : Step} (h : ∀ names, step ≠ .project names) :
    IsStretch [step] := fun names hMem => h names (List.mem_singleton.mp hMem).symm

theorem IsStretch.append (h : IsStretch stretch) (h' : IsStretch tail) :
    IsStretch (stretch ++ tail) := fun names hMem =>
  (List.mem_append.mp hMem).elim (h names) (h' names)

theorem ofScan_append (steps tail : List Step) :
    ofScan (steps ++ tail) = ofScan tail ++ ofScan steps :=
  List.reverse_append

/-- Steps are one stretch, or end in a stretch behind a projection. -/
theorem isStretch_or_exists_project (steps : List Step) :
    IsStretch steps ∨
      ∃ before names stretch,
        steps = before ++ .project names :: stretch ∧ IsStretch stretch := by
  induction steps using List.reverseRecOn with
  | nil => exact .inl isStretch_nil
  | append_singleton steps step ih =>
      by_cases hProject : ∃ names, step = .project names
      · obtain ⟨names, rfl⟩ := hProject
        exact .inr ⟨steps, names, [], rfl, isStretch_nil⟩
      · have hStep := isStretch_singleton fun names hSame => hProject ⟨names, hSame⟩
        obtain hStretch | ⟨before, names, stretch, rfl, hStretch⟩ := ih
        · exact .inl (hStretch.append hStep)
        · exact .inr ⟨before, names, stretch ++ [step], by simp, hStretch.append hStep⟩

/-- One stretch has the normal form of a stretch. -/
theorem mergeAfter_of_isStretch (h : IsStretch steps) (stretch : List Step) :
    mergeAfter stretch steps = mergeStretch (stretch ++ steps) := by
  induction steps generalizing stretch with
  | nil => rw [mergeAfter, List.append_nil]
  | cons step rest ih =>
      have hRest : IsStretch rest := fun names hMem => h names (List.mem_cons_of_mem _ hMem)
      cases step with
      | project names => exact absurd List.mem_cons_self (h names)
      | filter p => rw [mergeAfter, ih hRest, List.append_assoc, List.singleton_append]
      | materialize => rw [mergeAfter, ih hRest, List.append_assoc, List.singleton_append]

/-- A projection stays where it is, and the steps before it and behind it are merged apart. -/
theorem mergeAfter_append_project (stretch steps rest : List Step) (names : List String) :
    mergeAfter stretch (steps ++ .project names :: rest) =
      mergeAfter stretch steps ++ .project names :: merge rest := by
  induction steps generalizing stretch with
  | nil => rfl
  | cons step steps ih =>
      cases step with
      | project other =>
          rw [List.cons_append, mergeAfter, mergeAfter, ih, List.append_assoc, List.cons_append]
      | filter p => exact ih _
      | materialize => exact ih _

theorem merge_append_project (steps rest : List Step) (names : List String) :
    merge (steps ++ .project names :: rest) = merge steps ++ .project names :: merge rest :=
  mergeAfter_append_project [] steps rest names

/-- What follows a list of steps changes the last stretch of its normal form.  In front of that
stretch the plan is closed: a filter that is put there is joined with nothing. -/
theorem exists_merge_append (steps : List Step) :
    ∃ closed stretch, IsStretch stretch ∧
      (∀ tail, IsStretch tail →
        merge (steps ++ tail) = closed ++ mergeStretch (stretch ++ tail)) ∧
      ∀ p, joinFilter p (ofScan closed) = .filter p :: ofScan closed := by
  obtain hStretch | ⟨before, names, stretch, rfl, hStretch⟩ :=
    isStretch_or_exists_project steps
  · refine ⟨[], steps, hStretch, fun tail hTail => ?_, fun p => rfl⟩
    exact mergeAfter_of_isStretch (hStretch.append hTail) []
  · refine ⟨merge before ++ [.project names], stretch, hStretch, fun tail hTail => ?_, fun p => ?_⟩
    · have hMerged : merge (stretch ++ tail) = mergeStretch (stretch ++ tail) :=
        mergeAfter_of_isStretch (hStretch.append hTail) []
      rw [List.append_assoc, List.cons_append, merge_append_project, hMerged, List.append_assoc,
        List.singleton_append]
    · rw [ofScan_append]
      rfl

/-- A compaction is added to the normal form of a stretch. -/
theorem mergeStretch_append_materialize (stretch : List Step) :
    mergeStretch (stretch ++ [.materialize]) = mergeStretch stretch ++ [.materialize] := by
  have hFilters : (stretch ++ [Step.materialize]).filterMap Step.predicate? =
      stretch.filterMap Step.predicate? := by
    simp [Step.predicate?]
  have hTrailing : trailingMaterializations (stretch ++ [.materialize]) =
      trailingMaterializations stretch + 1 := by
    simp [trailingMaterializations]
  rw [mergeStretch, mergeStretch, hFilters, hTrailing]
  cases conjunction? (stretch.filterMap Step.predicate?) with
  | none => rfl
  | some q => simp only [List.replicate_succ', List.cons_append]

/-- A filter is joined with the filters of a stretch, and the compactions are dropped. -/
theorem mergeStretch_append_filter (stretch : List Step) (p : Predicate) :
    mergeStretch (stretch ++ [.filter p]) =
      [.filter ((conjunction? (stretch.filterMap Step.predicate?)).elim p (·.and p))] := by
  have hFilters : (stretch ++ [Step.filter p]).filterMap Step.predicate? =
      stretch.filterMap Step.predicate? ++ [p] := by
    simp [Step.predicate?]
  have hTrailing : trailingMaterializations (stretch ++ [.filter p]) = 0 := by
    simp [trailingMaterializations]
  rw [mergeStretch, hFilters, hTrailing]
  cases stretch.filterMap Step.predicate? with
  | nil => rfl
  | cons first rest => simp [conjunction?]

/-- A stretch without filters consists of compactions. -/
theorem IsStretch.eq_replicate (h : IsStretch stretch)
    (hNone : conjunction? (stretch.filterMap Step.predicate?) = none) :
    stretch = List.replicate stretch.length .materialize := by
  have hFilters : ∀ step ∈ stretch, step.predicate? = none := by
    refine List.filterMap_eq_nil_iff.mp ?_
    cases hList : stretch.filterMap Step.predicate? with
    | nil => rfl
    | cons p rest => simp [hList, conjunction?] at hNone
  refine List.eq_replicate_of_mem fun step hMem => ?_
  cases step with
  | project names => exact absurd hMem (h names)
  | filter p => exact absurd (hFilters _ hMem) nofun
  | materialize => rfl

/-- The pass digs through compactions. -/
theorem joinFilter_replicate_append (p : Predicate) (n : Nat) (plan : Plan) :
    joinFilter p (List.replicate n .materialize ++ plan) = joinFilter p plan := by
  induction n with
  | zero => rfl
  | succ n ih => exact ih

/-- A filter on a merged stretch is joined with the filter of the stretch, if there is one. -/
theorem joinFilter_mergeStretch (h : IsStretch stretch) {p : Predicate} {below : Plan}
    (hBelow : joinFilter p below = .filter p :: below) :
    joinFilter p (ofScan (mergeStretch stretch) ++ below) =
      ofScan (mergeStretch (stretch ++ [.filter p])) ++ below := by
  rw [mergeStretch_append_filter, mergeStretch]
  cases hFilters : conjunction? (stretch.filterMap Step.predicate?) with
  | none =>
      rw [h.eq_replicate hFilters, ofScan, List.reverse_replicate, joinFilter_replicate_append,
        hBelow]
      rfl
  | some q =>
      simp only [ofScan, List.reverse_cons, List.reverse_replicate, List.append_assoc,
        joinFilter_replicate_append]
      rfl

/-- The pass makes the normal form of every plan. -/
theorem run_joinFilters (plan : Plan) :
    Pass.joinFilters.run plan = ofScan (merge plan.walk) := by
  induction plan with
  | nil => rfl
  | cons step input ih =>
      -- The steps below are merged already, and the step on top of them comes last in the walk.
      obtain ⟨closed, stretch, hStretch, hMerge, hClosed⟩ := exists_merge_append (walk input)
      have hInput : merge (walk input) = closed ++ mergeStretch stretch := by
        simpa using hMerge [] isStretch_nil
      rw [Pass.run_cons, ih, walk_cons]
      cases step with
      | project names =>
          rw [merge_append_project, ofScan_append]
          rfl
      | materialize =>
          rw [hMerge _ (isStretch_singleton (by simp)), mergeStretch_append_materialize,
            ← List.append_assoc, ← hInput, ofScan_append]
          rfl
      | filter p =>
          rw [hMerge _ (isStretch_singleton (by simp)), hInput, ofScan_append, ofScan_append,
            ← joinFilter_mergeStretch hStretch (hClosed p)]
          rfl

/-- Every filter stands on a projection or on the table. -/
def FiltersApart : Plan → Prop
  | [] => True
  | .filter _ :: input =>
      (∀ step ∈ input.head?, ∃ names, step = .project names) ∧ FiltersApart input
  | .project _ :: input => FiltersApart input
  | .materialize :: input => FiltersApart input

namespace FiltersApart

theorem joinFilter (h : plan.FiltersApart) (p : Predicate) :
    (plan.joinFilter p).FiltersApart := by
  induction plan with
  | nil => exact ⟨nofun, trivial⟩
  | cons step input ih =>
      cases step with
      | project names => exact ⟨fun step hStep => ⟨names, (Option.some.inj hStep).symm⟩, h⟩
      | filter q => exact h
      | materialize => exact ih h

/-- Joining filters leaves no filter on a filter or on a compaction. -/
theorem run (plan : Plan) : FiltersApart (Pass.joinFilters.run plan) := by
  induction plan with
  | nil => trivial
  | cons step input ih =>
      cases step with
      | project names => exact ih
      | filter p => exact ih.joinFilter p
      | materialize => exact ih

/-- There is nothing to join in a plan whose filters are apart. -/
theorem run_eq_self (h : plan.FiltersApart) : Pass.joinFilters.run plan = plan := by
  induction plan with
  | nil => rfl
  | cons step input ih =>
      cases step with
      | project names => exact congrArg (Step.project names :: ·) (ih h)
      | materialize => exact congrArg (Step.materialize :: ·) (ih h)
      | filter p =>
          rw [Pass.run_cons, ih h.2]
          cases input with
          | nil => rfl
          | cons below rest =>
              obtain ⟨names, rfl⟩ := h.1 below rfl
              rfl

end FiltersApart

theorem length_joinFilter_le (p : Predicate) (plan : Plan) :
    (plan.joinFilter p).length ≤ plan.length + 1 := by
  induction plan with
  | nil => exact Nat.le_refl _
  | cons step input ih =>
      cases step with
      | project names => exact Nat.le_refl _
      | filter q => exact Nat.le_succ _
      | materialize => exact Nat.le_succ_of_le ih

/-- Joining filters adds no step. -/
theorem length_run_joinFilters_le (plan : Plan) :
    List.length (Pass.joinFilters.run plan) ≤ plan.length := by
  induction plan with
  | nil => exact Nat.le_refl _
  | cons step input ih =>
      cases step with
      | project names => exact Nat.succ_le_succ ih
      | materialize => exact Nat.succ_le_succ ih
      | filter p => exact Nat.le_trans (length_joinFilter_le p _) (Nat.succ_le_succ ih)

/-- Passes that leave a plan alone and passes that join filters join them once or not at all. -/
theorem optimize_eq_ite (passes : List Pass) (plan : Plan) :
    plan.optimize passes = if .joinFilters ∈ passes then Pass.joinFilters.run plan else plan := by
  induction passes generalizing plan with
  | nil => rfl
  | cons pass rest ih =>
      rw [optimize, List.foldl_cons, ← optimize, ih]
      cases pass with
      | identity => simp
      | joinFilters => simp [(FiltersApart.run plan).run_eq_self]

/-- A pass leaves a step where there was one. -/
theorem run_ne_nil (pass : Pass) (h : plan ≠ []) : pass.run plan ≠ [] := by
  obtain ⟨step, input, rfl⟩ := List.exists_cons_of_ne_nil h
  cases pass with
  | identity => rwa [Pass.run_identity]
  | joinFilters =>
      cases step with
      | project names => exact List.cons_ne_nil _ _
      | materialize => exact List.cons_ne_nil _ _
      | filter p =>
          obtain ⟨q, below, hPlan⟩ := exists_joinFilter p (Pass.joinFilters.run input)
          show joinFilter p (Pass.joinFilters.run input) ≠ []
          rw [hPlan]
          exact List.cons_ne_nil _ _

/-- A pass over a plan with steps ends with a plan. -/
theorem runChecked_eq_run (pass : Pass) (h : plan ≠ []) :
    pass.runChecked plan = .ok (pass.run plan) := by
  have hWalk : (walk plan).foldlM (fun input step => return pass.rebuild step input) [] =
      (.ok (pass.run plan) : Result Plan) := by
    rw [List.foldlM_pure, walk, List.foldl_reverse]
    rfl
  rw [Pass.runChecked, hWalk, Result.ok_bind, if_neg (by simpa using run_ne_nil pass h)]
  rfl

theorem optimizeChecked_eq_optimize (passes : List Pass) (h : plan ≠ []) :
    plan.optimizeChecked passes = .ok (plan.optimize passes) := by
  induction passes generalizing plan with
  | nil => rfl
  | cons pass rest ih =>
      rw [optimizeChecked, List.foldlM_cons, runChecked_eq_run pass h, Result.ok_bind,
        ← optimizeChecked, ih (run_ne_nil pass h)]
      rfl

/-- Joining filters never fails, and makes the normal form of the plan.  In a normal form every
filter stands on a projection or on the table; there are no more steps than before, and joining
filters again changes nothing.  A list of passes leaves a plan alone when it joins no filters,
and otherwise makes the normal form. -/
theorem joinFilters_normalizes (h : plan ≠ []) :
    Pass.joinFilters.runChecked plan = .ok (ofScan (merge plan.walk)) ∧
      FiltersApart (ofScan (merge plan.walk)) ∧
      (merge plan.walk).length ≤ plan.length ∧
      Pass.joinFilters.runChecked (ofScan (merge plan.walk)) = .ok (ofScan (merge plan.walk)) ∧
      ∀ passes, plan.optimizeChecked passes =
        .ok (if .joinFilters ∈ passes then ofScan (merge plan.walk) else plan) := by
  have hLength := length_run_joinFilters_le plan
  have hAgain := runChecked_eq_run .joinFilters (run_ne_nil .joinFilters h)
  rw [(FiltersApart.run plan).run_eq_self] at hAgain
  rw [run_joinFilters] at hLength hAgain
  refine ⟨?_, ?_, ?_, hAgain, fun passes => ?_⟩
  · rw [runChecked_eq_run _ h, run_joinFilters]
  · rw [← run_joinFilters]
    exact .run plan
  · simpa [ofScan] using hLength
  · rw [optimizeChecked_eq_optimize passes h, optimize_eq_ite, run_joinFilters]

/-- Two stretches.  The first one begins with a compaction, has another one between its filters
and two behind them; the second one has no filter. -/
def twoStretches : Plan :=
  ofScan [.materialize, .filter (.compare "a" .ge (.integer 3)), .materialize,
    .filter (.compare "b" .lt (.integer 9)), .materialize, .materialize, .project ["b"],
    .materialize]

/-- Of the first stretch the filters and the compactions behind them are left. -/
def twoStretchesMerged : Plan :=
  ofScan [.filter (.and (.compare "a" .ge (.integer 3)) (.compare "b" .lt (.integer 9))),
    .materialize, .materialize, .project ["b"], .materialize]

theorem joinFilters_normalizes_twoStretches :
    twoStretches ≠ [] ∧ Pass.joinFilters.runChecked twoStretches = .ok twoStretchesMerged ∧
      FiltersApart twoStretchesMerged ∧
      Pass.joinFilters.runChecked twoStretchesMerged = .ok twoStretchesMerged ∧
      twoStretches.optimizeChecked [.identity, .joinFilters, .joinFilters] =
        .ok twoStretchesMerged :=
  have hPlan : twoStretches ≠ [] := List.cons_ne_nil _ _
  have hMerged : ofScan (merge twoStretches.walk) = twoStretchesMerged := rfl
  have h := joinFilters_normalizes hPlan
  ⟨hPlan, hMerged ▸ h.1, hMerged ▸ h.2.1, hMerged ▸ h.2.2.2.1, h.2.2.2.2 _⟩

end Plan

end Columnar
