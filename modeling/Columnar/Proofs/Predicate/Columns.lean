import Columnar.Predicate.Traversal
import Columnar.Proofs.Predicate.Decomposition
import Mathlib.Data.List.Perm.Subperm

/-!
# The analyses of a predicate's columns

Three functions look at the columns of a predicate, each with a traversal of its own: one
collects them behind the columns already seen, one asks for a single name and stops at the
first comparison on it, and one looks for a disjunction over two columns and never goes below
the first disjunction that it meets.

* `columns_combine` -- the columns of a combination, from those of its sides.
* `pairwise_columns` -- the columns stand in the order in which a traversal first meets them.
* `isSeparable_iff` -- the search that stops at a disjunction has looked at all of them, since a
  subtree has no column that the tree does not have.
* `column_analyses_agree` -- what the three functions say of one tree.
-/

namespace Columnar

/-- The column that a leaf shows. -/
def Leaf.column? : Leaf → Option String
  | .column name => some name
  | .literal _ => none
  | .constant _ => none

namespace Predicate

variable {p q : Predicate}

/-- The columns that a traversal meets, each as often as it meets them. -/
def metColumns (p : Predicate) : List String :=
  p.leaves.filterMap Leaf.column?

/-- All subtrees of a predicate, itself included. -/
def subtrees : Predicate → List Predicate
  | compare column op literal => [compare column op literal]
  | constant value => [constant value]
  | combine op lhs rhs => combine op lhs rhs :: (lhs.subtrees ++ rhs.subtrees)

theorem metColumns_combine (op : Connective) (lhs rhs : Predicate) :
    (combine op lhs rhs).metColumns = lhs.metColumns ++ rhs.metColumns := by
  rw [metColumns, leaves, List.filterMap_append, metColumns, metColumns]

theorem mem_metColumns (name : String) (p : Predicate) :
    name ∈ p.metColumns ↔ p.mentions name = true := by
  induction p with
  | compare column op literal =>
      rw [mentions, beq_iff_eq, @eq_comm _ column name]
      exact List.mem_singleton
  | constant value => simp [metColumns, leaves, Leaf.column?, mentions]
  | combine op lhs rhs ihl ihr =>
      rw [metColumns_combine, List.mem_append, ihl, ihr, mentions, Bool.or_eq_true]

/-- The columns collected behind others are those of the predicate that are not among them. -/
theorem collectColumns_eq_append (seen : List String) (p : Predicate) :
    collectColumns seen p = seen ++ p.columns.filter (· ∉ seen) := by
  induction p generalizing seen with
  | compare column op literal =>
      by_cases hSeen : column ∈ seen <;> simp [columns, collectColumns, hSeen]
  | constant value => simp [columns, collectColumns]
  | combine op lhs rhs ihl ihr =>
      -- What is behind `seen` and the left columns is behind both of them, one after the other.
      have hRight : (rhs.columns.filter (· ∉ lhs.columns)).filter (· ∉ seen) =
          rhs.columns.filter (· ∉ seen ++ lhs.columns.filter (· ∉ seen)) := by
        rw [List.filter_filter]
        refine List.filter_congr fun name _ => ?_
        by_cases hSeen : name ∈ seen <;> simp [hSeen]
      have hColumns : (combine op lhs rhs).columns =
          lhs.columns ++ rhs.columns.filter (· ∉ lhs.columns) := ihr lhs.columns
      rw [collectColumns, ihl, ihr, hColumns, List.filter_append, hRight, List.append_assoc]

/-- The columns of a combination are those of its left side, followed by those of its right
side that are not among them. -/
theorem columns_combine (op : Connective) (lhs rhs : Predicate) :
    (combine op lhs rhs).columns = lhs.columns ++ rhs.columns.filter (· ∉ lhs.columns) :=
  collectColumns_eq_append lhs.columns rhs

/-- Of two columns the one that a traversal meets first is listed first. -/
theorem pairwise_columns (p : Predicate) :
    p.columns.Pairwise fun name later => p.metColumns.idxOf name < p.metColumns.idxOf later := by
  induction p with
  | compare column op literal => exact List.pairwise_singleton _ column
  | constant value => exact List.Pairwise.nil
  | combine op lhs rhs ihl ihr =>
      have hLeft : ∀ name ∈ lhs.columns, name ∈ lhs.metColumns := fun name hName =>
        (mem_metColumns name lhs).mpr ((mem_columns name lhs).mp hName)
      have hNotLeft : ∀ name ∈ rhs.columns.filter (· ∉ lhs.columns), name ∉ lhs.metColumns := by
        intro name hName
        rw [mem_metColumns, ← mem_columns]
        simpa using (List.mem_filter.mp hName).2
      rw [columns_combine, metColumns_combine, List.pairwise_append]
      refine ⟨ihl.imp_of_mem fun hName hLater hLt => ?_,
        (ihr.filter _).imp_of_mem fun hName hLater hLt => ?_, fun name hName later hLater => ?_⟩
      · rwa [List.idxOf_append_of_mem (hLeft _ hName), List.idxOf_append_of_mem (hLeft _ hLater)]
      · rw [List.idxOf_append_of_notMem (hNotLeft _ hName),
          List.idxOf_append_of_notMem (hNotLeft _ hLater)]
        exact Nat.add_lt_add_left hLt _
      · rw [List.idxOf_append_of_mem (hLeft name hName),
          List.idxOf_append_of_notMem (hNotLeft later hLater)]
        exact Nat.lt_add_right _ (List.idxOf_lt_length_of_mem (hLeft name hName))

theorem nodup_columns (p : Predicate) : p.columns.Nodup :=
  p.pairwise_columns.imp fun hLt => ne_of_apply_ne p.metColumns.idxOf (Nat.ne_of_lt hLt)

/-- A subtree compares no column that the tree does not compare. -/
theorem mentions_of_mem_subtrees (h : q ∈ p.subtrees) {name : String}
    (hName : q.mentions name = true) : p.mentions name = true := by
  induction p with
  | compare column op literal =>
      obtain rfl := List.mem_singleton.mp h
      exact hName
  | constant value =>
      obtain rfl := List.mem_singleton.mp h
      exact hName
  | combine op lhs rhs ihl ihr =>
      rw [subtrees, List.mem_cons, List.mem_append] at h
      rcases h with rfl | hLeft | hRight
      · exact hName
      · rw [mentions, ihl hLeft, Bool.true_or]
      · rw [mentions, ihr hRight, Bool.or_true]

theorem length_columns_le_of_mem_subtrees (h : q ∈ p.subtrees) :
    q.columns.length ≤ p.columns.length := by
  refine (List.subperm_of_subset q.nodup_columns fun name hName => ?_).length_le
  rw [mem_columns] at hName ⊢
  exact mentions_of_mem_subtrees h hName

/-- A predicate is separable exactly when no disjunction in it, at any depth, is over two
columns. -/
theorem isSeparable_iff (p : Predicate) :
    p.isSeparable = true ↔
      ∀ lhs rhs, combine .or lhs rhs ∈ p.subtrees → (combine .or lhs rhs).columns.length ≤ 1 := by
  induction p with
  | compare column op literal => simp [isSeparable, subtrees]
  | constant value => simp [isSeparable, subtrees]
  | combine op lhs rhs ihl ihr =>
      cases op with
      | and =>
          rw [isSeparable, Bool.and_eq_true, ihl, ihr]
          simp only [subtrees, List.mem_cons, List.mem_append, combine.injEq, reduceCtorEq,
            false_and, false_or, or_imp, forall_and]
      | or =>
          rw [isSeparable, decide_eq_true_iff]
          constructor
          · -- Below a disjunction there are no more columns than in it.
            exact fun hWhole left right hMem =>
              Nat.le_trans (length_columns_le_of_mem_subtrees hMem) hWhole
          · exact fun hAll => hAll lhs rhs List.mem_cons_self

/-- The columns of a predicate are listed once each, in the order in which a traversal first
meets them.  They are the names that some comparison is on, and the search for a name finds
them.  In a combination the right side only adds its new columns, and a predicate is separable
exactly when no disjunction at any depth of it is over two of them. -/
theorem column_analyses_agree (p : Predicate) :
    p.columns.Nodup ∧
      p.columns.Pairwise
        (fun name later => p.metColumns.idxOf name < p.metColumns.idxOf later) ∧
      (∀ name, name ∈ p.columns ↔ p.mentions name = true) ∧
      (∀ name, p.mentions name = true ↔ ∃ op l, (name, op, l) ∈ p.comparisons) ∧
      (∀ op q, (combine op p q).columns =
        p.columns ++ q.columns.filter (· ∉ p.columns)) ∧
      (p.isSeparable = true ↔ ∀ lhs rhs, combine .or lhs rhs ∈ p.subtrees →
        (combine .or lhs rhs).columns.length ≤ 1) :=
  ⟨p.nodup_columns, p.pairwise_columns, fun name => mem_columns name p,
    fun name => mentions_iff_exists name p, fun op q => columns_combine op p q,
    p.isSeparable_iff⟩

end Predicate

end Columnar
