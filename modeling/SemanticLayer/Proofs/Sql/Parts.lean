import SemanticLayer.Sql.Tree

/-!
What a statement is made of. An expression has direct parts, a `SELECT` has expressions and tables, and
queries stand inside others: in the `WITH` list, under `UNION ALL`, as tables and inside expressions.
-/
namespace SemanticLayer.Sql

open List

namespace Expr

/-- The expressions directly inside of an expression; a query inside of it has expressions of its own. -/
def parts : Expr → List Expr
  | .column _ _ | .literal _ | .star _ | .raw _ | .subquery _ => []
  | .binary _ a b | .nullSafeEq a b => [a, b]
  | .unary _ a | .isNull a _ | .cast a _ _ | .paren a => [a]
  | .call _ args _ => args
  | .choose operand arms otherwise =>
    operand.toList ++ arms.flatMap (fun arm => [arm.1, arm.2]) ++ otherwise.toList
  | .isIn a values _ => a :: values
  | .window function partitionBy orderBy => function :: partitionBy ++ orderBy.map OrderTerm.expr
  | .sequence parts => parts

def names : Expr → Bool
  | .column _ _ | .star _ | .subquery _ => true
  | _ => false

inductive Occurs (x : Expr) : Expr → Prop where
  | here : Occurs x x
  | part {p e : Expr} (mem : p ∈ e.parts) (inside : Occurs x p) : Occurs x e

theorem Occurs.trans {x : Expr} (inner : x.Occurs y) (outer : y.Occurs e) : x.Occurs e := by
  induction outer with
  | here => exact inner
  | part mem _ ih => exact .part mem ih

theorem Occurs.leaf {x : Expr} (occurs : x.Occurs e) (leaf : e.parts = []) : x = e := by
  cases occurs with
  | here => rfl
  | part mem _ => rw [leaf] at mem; cases mem

/-- A property of everything that stands in an expression. -/
def Each (L : Expr → Prop) (e : Expr) : Prop := ∀ x, x.Occurs e → L x

variable {L M : Expr → Prop} {e : Expr}

theorem each_iff : e.Each L ↔ L e ∧ ∀ p ∈ e.parts, p.Each L := by
  constructor
  · intro each
    exact ⟨each e .here, fun p mem x inside => each x (.part mem inside)⟩
  · rintro ⟨here, parts⟩ x occurs
    cases occurs with
    | here => exact here
    | part mem inside => exact parts _ mem x inside

theorem Each.mono (le : ∀ x, L x → M x) (each : e.Each L) : e.Each M := fun x occurs => le x (each x occurs)

theorem Each.here (each : e.Each L) : L e := each e .here

section Constructors

variable {a b : Expr}

theorem each_leaf (leaf : e.parts = []) : e.Each L ↔ L e := by
  rw [each_iff, leaf]
  simp

@[simp] theorem each_column :
    (column table name).Each L ↔ L (column table name) := each_leaf rfl

@[simp] theorem each_literal : (literal value).Each L ↔ L (literal value) := each_leaf rfl

@[simp] theorem each_raw {text : String} : (raw text).Each L ↔ L (raw text) := each_leaf rfl

@[simp] theorem each_star : (star table).Each L ↔ L (star table) := each_leaf rfl

@[simp] theorem each_subquery : (subquery query).Each L ↔ L (subquery query) := each_leaf rfl

@[simp] theorem each_nullSafeEq :
    (nullSafeEq a b).Each L ↔ L (nullSafeEq a b) ∧ a.Each L ∧ b.Each L := by
  rw [each_iff]
  simp [parts]

@[simp] theorem each_call :
    (call function args distinct).Each L ↔
      L (call function args distinct) ∧ ∀ x ∈ args, x.Each L := by
  rw [each_iff]
  simp [parts]

@[simp] theorem each_choose :
    (choose operand arms otherwise).Each L ↔ L (choose operand arms otherwise) ∧
      (∀ x ∈ operand, x.Each L) ∧ (∀ arm ∈ arms, arm.1.Each L ∧ arm.2.Each L) ∧
      ∀ x ∈ otherwise, x.Each L := by
  rw [each_iff, parts, forall_mem_append, forall_mem_append, forall_mem_flatMap]
  simp [and_assoc]

@[simp] theorem each_window :
    (window a partitionBy orderBy).Each L ↔ L (window a partitionBy orderBy) ∧ a.Each L ∧
      (∀ x ∈ partitionBy, x.Each L) ∧ ∀ o ∈ orderBy, o.expr.Each L := by
  rw [each_iff]
  simp only [parts, cons_append, forall_mem_cons, forall_mem_append, forall_mem_map]

@[simp] theorem each_sequence {parts : List Expr} :
    (sequence parts).Each L ↔ L (sequence parts) ∧ ∀ x ∈ parts, x.Each L := by
  rw [each_iff]
  simp [Expr.parts]

end Constructors

end Expr

def SelectItem.output? : SelectItem → Option String
  | ⟨_, some label⟩ => some label
  | ⟨.column _ name, none⟩ => some name
  | _ => none

namespace Query

def outputs (q : Query) : List String :=
  match q.unions with
  | [] => q.items.filterMap SelectItem.output?
  | first :: _ => first.items.filterMap SelectItem.output?

def exprs (q : Query) : List Expr :=
  q.items.map SelectItem.expr ++ q.joins.filterMap Join.condition ++ q.condition.toList ++ q.groupBy ++
    q.having.toList ++ q.orderBy.map OrderTerm.expr

def tables (q : Query) : List TableRef := q.source.toList ++ q.joins.map Join.table

inductive Within (x : Query) : Query → Prop where
  | self : Within x x
  | cte {q : Query} {c : Cte} (mem : c ∈ q.ctes) (inside : Within x c.query) : Within x q
  | union (mem : u ∈ q.unions) (inside : Within x u) : Within x q
  | table {q r : Query} {t : TableRef} (mem : t ∈ q.tables) (is : t.relation = .subquery r)
      (inside : Within x r) : Within x q
  | expr {q r : Query} {e : Expr} (mem : e ∈ q.exprs) (occurs : (Expr.subquery r).Occurs e)
      (inside : Within x r) : Within x q

end Query

end SemanticLayer.Sql
