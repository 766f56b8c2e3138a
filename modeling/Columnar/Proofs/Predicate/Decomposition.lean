import Columnar.Predicate.Relevance

/-!
# Deciding a predicate column by column

A kernel sees one column.  `Predicate.eval` is the answer of a tree whose comparisons
are decided by some `leaf`, and `Predicate.answerFor` is the answer that is left when
the comparisons of one column count and what compares other columns only is replaced by
the neutral constant of the combination around it.

* `answerFor_eq_eval` -- on a predicate of a single column the two agree.
* `forall_answerFor_iff` -- on a separable predicate the conjunction of the answers for
  its columns is the answer of the tree.  Constants are the subtle part: they count for
  every column that is mentioned beside them, and for no other.
-/

namespace Columnar.Predicate

variable {leaf : String → Comparison → Literal → Bool}

/-- The comparisons of a predicate, left to right. -/
def comparisons : Predicate → List (String × Comparison × Literal)
  | compare column op literal => [(column, op, literal)]
  | constant _ => []
  | combine _ lhs rhs => lhs.comparisons ++ rhs.comparisons

theorem mentions_iff_exists (name : String) (p : Predicate) :
    p.mentions name = true ↔ ∃ op l, (name, op, l) ∈ p.comparisons := by
  induction p with
  | compare column op literal =>
      simp only [mentions, beq_iff_eq, comparisons, List.mem_singleton, Prod.mk.injEq]
      constructor
      · rintro rfl
        exact ⟨op, literal, rfl, rfl, rfl⟩
      · rintro ⟨_, _, hEq, -, -⟩
        exact hEq.symm
  | constant value => simp [mentions, comparisons]
  | combine op lhs rhs ihl ihr =>
      simp only [mentions, Bool.or_eq_true, ihl, ihr, comparisons, List.mem_append, exists_or]

theorem mem_columns_of_mem_comparisons {p : Predicate} {name : String} {op : Comparison}
    {l : Literal} (h : (name, op, l) ∈ p.comparisons) : name ∈ p.columns :=
  (mem_columns name p).mpr ((mentions_iff_exists name p).mpr ⟨op, l, h⟩)

/-- The answer of the tree when its comparisons are decided by `leaf`. -/
def eval (leaf : String → Comparison → Literal → Bool) : Predicate → Bool
  | compare column op literal => leaf column op literal
  | constant value => value
  | combine op lhs rhs => op.apply (lhs.eval leaf) (rhs.eval leaf)

/-- Only the answers to its own comparisons count for a tree. -/
theorem eval_congr {leaf' : String → Comparison → Literal → Bool} {p : Predicate}
    (h : ∀ name op l, (name, op, l) ∈ p.comparisons → leaf name op l = leaf' name op l) :
    p.eval leaf = p.eval leaf' := by
  induction p with
  | compare column op literal => exact h column op literal (List.mem_singleton_self _)
  | constant value => rfl
  | combine op lhs rhs ihl ihr =>
      rw [eval, eval, ihl fun name op l hMem => h name op l (List.mem_append_left _ hMem),
        ihr fun name op l hMem => h name op l (List.mem_append_right _ hMem)]

/-- The answer of the tree seen from one column, inside a combination under
`enclosing`. -/
def answerFor (leaf : String → Comparison → Literal → Bool) (name : String)
    (enclosing : Connective) : Predicate → Bool
  | compare column op literal =>
      if column = name then leaf column op literal else enclosing.neutral
  | constant value => value
  | combine op lhs rhs =>
      if (combine op lhs rhs).relevance name = .foreign then enclosing.neutral
      else op.apply (lhs.answerFor leaf name op) (rhs.answerFor leaf name op)

theorem relevance_eq_constant_iff (name : String) (p : Predicate) :
    p.relevance name = .constant ↔ ∀ column, p.mentions column = false := by
  induction p with
  | compare column op literal =>
      constructor
      · intro h
        by_cases hEq : column = name <;> simp [relevance, hEq] at h
      · intro h
        exact absurd (h column) (by simp [mentions])
  | constant value => simp [relevance, mentions]
  | combine op lhs rhs ihl ihr =>
      simp only [relevance, Relevance.combine_eq_constant_iff, ihl, ihr, mentions,
        Bool.or_eq_false_iff, forall_and]

/-- A subtree is foreign to a column when it compares other columns only. -/
theorem relevance_eq_foreign_iff (name : String) (p : Predicate) :
    p.relevance name = .foreign ↔
      p.mentions name = false ∧ ∃ column, p.mentions column = true := by
  have hOwn := relevance_eq_own_iff name p
  have hConstant := relevance_eq_constant_iff name p
  cases hRel : p.relevance name with
  | own => simp [hOwn.mp hRel]
  | constant => simp [hConstant.mp hRel]
  | foreign =>
      rw [hRel] at hOwn hConstant
      refine iff_of_true rfl ⟨by simpa using hOwn, ?_⟩
      exact Classical.byContradiction fun hNone => by
        simp only [not_exists, Bool.not_eq_true] at hNone
        exact absurd (hConstant.mpr hNone) (by simp)

/-- A subtree on other columns only does not change the combination around it. -/
theorem answerFor_of_foreign {name : String} {p : Predicate}
    (h : p.relevance name = .foreign) (enclosing : Connective) :
    p.answerFor leaf name enclosing = enclosing.neutral := by
  cases p with
  | compare column op literal =>
      refine if_neg fun hEq => ?_
      simp [relevance, hEq] at h
  | constant value => simp [relevance] at h
  | combine op lhs rhs => exact if_pos h

/-- Seen from its only column, a predicate keeps its answer. -/
theorem answerFor_eq_eval {name : String} {p : Predicate}
    (h : ∀ column, p.mentions column = true → column = name) (enclosing : Connective) :
    p.answerFor leaf name enclosing = p.eval leaf := by
  induction p generalizing enclosing with
  | compare column op literal =>
      exact if_pos (h column (by simp [mentions]))
  | constant value => rfl
  | combine op lhs rhs ihl ihr =>
      have hLeft : ∀ column, lhs.mentions column = true → column = name :=
        fun column hm => h column (by simp [mentions, hm])
      have hRight : ∀ column, rhs.mentions column = true → column = name :=
        fun column hm => h column (by simp [mentions, hm])
      -- A combination without comparisons is not foreign either: it counts as a constant.
      have hOwn : (combine op lhs rhs).relevance name ≠ .foreign := by
        rw [Ne, relevance_eq_foreign_iff]
        rintro ⟨hNot, column, hm⟩
        obtain rfl := h column hm
        rw [hm] at hNot
        exact absurd hNot (by simp)
      rw [answerFor, if_neg hOwn, ihl hLeft, ihr hRight, eval]

/-- With at most one column every mentioned column is the same. -/
theorem eq_of_length_columns_le_one {p : Predicate} (h : p.columns.length ≤ 1)
    {name other : String} (hName : p.mentions name = true) (hOther : p.mentions other = true) :
    other = name := by
  rw [← mem_columns] at hName hOther
  match hColumns : p.columns with
  | [] => simp [hColumns] at hName
  | [column] =>
      simp only [hColumns, List.mem_singleton] at hName hOther
      rw [hName, hOther]
  | _ :: _ :: _ => simp [hColumns] at h

/-- Of the columns that include those of a tree with comparisons, only its own have
something to say about it. -/
theorem forall_answerFor_iff_forall_mentioned {p : Predicate} {own : String}
    (hOwn : p.mentions own = true) {names : List String}
    (hCover : ∀ name, p.mentions name = true → name ∈ names) :
    (∀ name ∈ names, p.answerFor leaf name .and = true) ↔
      ∀ name, p.mentions name = true → p.answerFor leaf name .and = true := by
  refine ⟨fun h name hm => h name (hCover name hm), fun h name _ => ?_⟩
  cases hm : p.mentions name with
  | true => exact h name hm
  | false => exact answerFor_of_foreign ((relevance_eq_foreign_iff _ _).mpr ⟨hm, own, hOwn⟩) _

/-- A predicate of a single column is its answer for that column. -/
theorem forall_mentioned_iff_of_single {p : Predicate} (hOne : p.columns.length ≤ 1)
    {own : String} (hOwn : p.mentions own = true) :
    (∀ name, p.mentions name = true → p.answerFor leaf name .and = true) ↔
      p.eval leaf = true := by
  have hSame : p.answerFor leaf own .and = p.eval leaf :=
    answerFor_eq_eval (fun other hOther => eq_of_length_columns_le_one hOne hOwn hOther) .and
  constructor
  · exact fun h => hSame ▸ h own hOwn
  · intro h name hm
    rw [eq_of_length_columns_le_one hOne hOwn hm, hSame]
    exact h

/-- A conjunction answers for each of its columns with the answers of both sides. -/
theorem forall_mentioned_and_iff (lhs rhs : Predicate) :
    (∀ name, (combine .and lhs rhs).mentions name = true →
        (combine .and lhs rhs).answerFor leaf name .and = true) ↔
      (∀ name ∈ (combine .and lhs rhs).columns, lhs.answerFor leaf name .and = true) ∧
        ∀ name ∈ (combine .and lhs rhs).columns, rhs.answerFor leaf name .and = true := by
  have hStep : ∀ name, (combine .and lhs rhs).mentions name = true →
      ((combine .and lhs rhs).answerFor leaf name .and = true ↔
        lhs.answerFor leaf name .and = true ∧ rhs.answerFor leaf name .and = true) := by
    intro name hm
    have hSees : (combine .and lhs rhs).relevance name ≠ .foreign := by
      rw [(relevance_eq_own_iff name _).mpr hm]
      simp
    rw [answerFor, if_neg hSees]
    exact Bool.and_eq_true_iff
  simp only [mem_columns]
  constructor
  · intro h
    exact ⟨fun name hm => ((hStep name hm).mp (h name hm)).1,
      fun name hm => ((hStep name hm).mp (h name hm)).2⟩
  · intro h name hm
    exact (hStep name hm).mpr ⟨h.1 name hm, h.2 name hm⟩

/-- A separable predicate is the conjunction of its answers for any columns that
include its own. -/
theorem forall_answerFor_iff {p : Predicate} (hSeparable : p.isSeparable = true)
    {names : List String} (hNames : names ≠ [])
    (hCover : ∀ name, p.mentions name = true → name ∈ names) :
    (∀ name ∈ names, p.answerFor leaf name .and = true) ↔ p.eval leaf = true := by
  induction p generalizing names with
  | compare column op literal =>
      have hOwn : (compare column op literal).mentions column = true := by simp [mentions]
      rw [forall_answerFor_iff_forall_mentioned hOwn hCover,
        forall_mentioned_iff_of_single (by simp [columns, collectColumns]) hOwn]
  | constant value =>
      obtain ⟨first, hFirst⟩ := List.exists_mem_of_ne_nil names hNames
      exact ⟨fun h => h first hFirst, fun h _ _ => h⟩
  | combine op lhs rhs ihl ihr =>
      by_cases hBare : ∀ column, (combine op lhs rhs).mentions column = false
      · -- Without comparisons every column sees the whole tree.
        have hSame : ∀ name, (combine op lhs rhs).answerFor leaf name .and =
            (combine op lhs rhs).eval leaf := fun name =>
          answerFor_eq_eval (fun column hm => absurd hm (by simp [hBare column])) .and
        obtain ⟨first, hFirst⟩ := List.exists_mem_of_ne_nil names hNames
        exact ⟨fun h => hSame first ▸ h first hFirst, fun h name _ => (hSame name).trans h⟩
      · obtain ⟨own, hOwn⟩ : ∃ own, (combine op lhs rhs).mentions own = true := by
          simpa using hBare
        rw [forall_answerFor_iff_forall_mentioned hOwn hCover]
        cases op with
        | or => exact forall_mentioned_iff_of_single (by simpa [isSeparable] using hSeparable) hOwn
        | and =>
            -- Both sides are decided by the columns of the whole conjunction.
            obtain ⟨hLeft, hRight⟩ : lhs.isSeparable = true ∧ rhs.isSeparable = true := by
              simpa [isSeparable] using hSeparable
            have hOwnNames : (combine .and lhs rhs).columns ≠ [] :=
              List.ne_nil_of_mem ((mem_columns own _).mpr hOwn)
            have hl := ihl hLeft hOwnNames fun name hm =>
              (mem_columns name _).mpr (by simp [mentions, hm])
            have hr := ihr hRight hOwnNames fun name hm =>
              (mem_columns name _).mpr (by simp [mentions, hm])
            rw [forall_mentioned_and_iff, hl, hr, ← Bool.and_eq_true]
            rfl

end Columnar.Predicate
