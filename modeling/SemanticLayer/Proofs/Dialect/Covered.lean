import SemanticLayer.Proofs.Dialect.Neat

/-!
Columns that stand only in certain expressions. Whatever the dialects put together from such expressions is made
of no other columns.
-/
namespace SemanticLayer.Sql.Expr

open List

/-- Everything that an expression reads stands in parts of it that satisfy a condition. -/
inductive Covered (S : Expr → Prop) : Expr → Prop where
  | here (holds : S e) : Covered S e
  | node {e : Expr} (own : e.names = false) (parts : ∀ p ∈ e.parts, p.Covered S) : Covered S e

/-- An aggregate, or an expression by which rows are grouped. -/
def Grouped (keys : List Expr) (e : Expr) : Prop :=
  e ∈ keys ∨ ∃ function ∈ aggregateNames, ∃ args distinct, e = .call function args distinct

variable {S : Expr → Prop}

instance : Closed .duckdb (Covered S) where
  node own _ _ parts := .node own parts

theorem covered_binary (left : a.Covered S) (right : b.Covered S) : (binary op a b).Covered S :=
  .node rfl (forall_mem_cons.mpr ⟨left, forall_mem_singleton.mpr right⟩)

section Aggregates

variable {keys : List Expr}

/-- What an aggregate is computed from is not read by its group. -/
theorem covered_aggregate (mem : function ∈ aggregateNames) (args : List Expr) (distinct : Bool) :
    (call function args distinct).Covered (Grouped keys) := .here (.inr ⟨function, mem, args, distinct, rfl⟩)

theorem covered_plainAggregate (function : AggregateFunction) (arg : Option Expr) :
    (Dialect.plainAggregate function arg).Covered (Grouped keys) := by
  cases function with
  | sum =>
    have sum : (fn "SUM" [arg.getD (int 1)]).Covered (Grouped keys) :=
      covered_aggregate (by simp [aggregateNames]) _ _
    exact .node rfl (forall_mem_cons.mpr ⟨sum, forall_mem_singleton.mpr (.node rfl nofun)⟩)
  | _ => exact covered_aggregate (by simp [aggregateNames]) _ _

theorem covered_total (s : Dialect.SymmetricSum) (condition : Option Expr) :
    (s.total condition).Covered (Grouped keys) := by
  have sum (x : Expr) : (sumDistinct x).Covered (Grouped keys) := covered_aggregate (by simp [aggregateNames]) _ _
  have difference {x y : Expr} {type : String} :
      (plainCast (binary .sub (sumDistinct x) (sumDistinct y)) type).Covered (Grouped keys) :=
    .node rfl (forall_mem_singleton.mpr (covered_binary (sum x) (sum y)))
  unfold Dialect.SymmetricSum.total
  cases s.scale with
  | none => exact difference
  | some scale => exact covered_binary difference (.node rfl nofun)

theorem covered_sumDistinct (d : Dialect) (key value : Expr) (condition : Option Expr) (average : Bool) :
    (d.sumDistinct key value condition average).Covered (Grouped keys) := by
  have total : ((d.symmetricSum key value).total condition).Covered (Grouped keys) := covered_total _ condition
  have counted (x : Expr) : (countDistinct x).Covered (Grouped keys) := covered_aggregate (by simp [aggregateNames]) _ _
  unfold Dialect.sumDistinct Dialect.SymmetricSum.render
  split
  · refine covered_binary (Closed.parenthesized inferInstance total) (.node rfl ?_)
    exact forall_mem_cons.mpr ⟨counted _, forall_mem_singleton.mpr (.node rfl nofun)⟩
  · exact .node rfl (forall_mem_cons.mpr ⟨total, forall_mem_singleton.mpr (.node rfl nofun)⟩)

end Aggregates

end SemanticLayer.Sql.Expr
