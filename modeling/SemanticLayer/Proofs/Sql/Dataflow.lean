import SemanticLayer.Proofs.Sql.Parts

/-!
Where a statement takes its rows from, and which tables its expressions see. Tables stand after `FROM` and in
joins; a dialect that has no tree for a nested query spells its table out in text.
-/
namespace SemanticLayer.Sql

open List

namespace Expr

/-- Text in which a query of the `WITH` list is spelled out as a table. -/
def Spells (e : Expr) (t : TableRef) : Prop := ∃ before name label after,
  e = .sequence (before ++ [.raw " FROM ", .column none name, .raw " AS ", .column none label] ++ after) ∧
    t = ⟨.cte name, some label⟩

abbrev Quiet (e : Expr) : Prop := e.Each fun x => ∀ t, ¬x.Spells t

def bareName? : Expr → Option String
  | .column none name => some name
  | _ => none

theorem Spells.bare {parts : List Expr} (spells : (sequence parts).Spells t) :
    ∃ name label, [name, label] <:+: parts.filterMap bareName? ∧ t = ⟨.cte name, some label⟩ := by
  obtain ⟨before, name, label, after, is, rfl⟩ := spells
  cases is
  refine ⟨name, label, ⟨before.filterMap bareName?, after.filterMap bareName?, ?_⟩, rfl⟩
  rw [filterMap_append, filterMap_append]
  rfl

theorem spells_sequence {e : Expr} (spells : e.Spells t) : ∃ parts, e = .sequence parts := by
  obtain ⟨before, name, label, after, is, _⟩ := spells
  exact ⟨_, is⟩

theorem quiet_of_few {parts : List Expr} (few : (parts.filterMap bareName?).length < 2) (t : TableRef) :
    ¬(sequence parts).Spells t := by
  intro spells
  obtain ⟨name, label, inside, _⟩ := spells.bare
  have enough := inside.length_le
  rw [length_cons, length_singleton] at enough
  omega

theorem Spells.occurs {text : Expr} (spells : text.Spells t) : ∃ name, (column none name).Occurs text := by
  obtain ⟨before, name, label, after, rfl, _⟩ := spells
  exact ⟨name, .part (by simp [parts]) .here⟩

@[simp] theorem spells_raw {text : String} : ¬(raw text).Spells t := fun spells => by
  obtain ⟨_, is⟩ := spells_sequence spells
  cases is

@[simp] theorem spells_column :
    ¬(column table name).Spells t := fun spells => by
  obtain ⟨_, is⟩ := spells_sequence spells
  cases is

@[simp] theorem spells_literal : ¬(literal value).Spells t := fun spells => by
  obtain ⟨_, is⟩ := spells_sequence spells
  cases is

@[simp] theorem spells_call :
    ¬(call function args distinct).Spells t := fun spells => by
  obtain ⟨_, is⟩ := spells_sequence spells
  cases is

end Expr

/-- The columns that a relation offers, where they are known: the output of a query in the `WITH` list, or all
columns of such a relation with one more. -/
inductive Relation.Offers (ctes : List Cte) : Relation → List String → Prop where
  | cte {name : String} {query : Query} (mem : ⟨name, query⟩ ∈ ctes) : Offers ctes (.cte name) query.outputs
  | added
      (items : query.items = [⟨.star (some label), none⟩, .named value column])
      (source : query.source = some ⟨relation, some label⟩) (inner : Offers ctes relation columns) :
      Offers ctes (.subquery query) (columns ++ [column])

namespace Query

def body (q : Query) : Query := { q with ctes := [] }

def Takes (q : Query) (t : TableRef) : Prop :=
  t ∈ q.tables ∨ ∃ e ∈ q.exprs, ∃ text : Expr, text.Occurs e ∧ text.Spells t

def Reads (q : Query) (name : String) : Prop :=
  ∃ (x : Query) (t : TableRef), x.Within q ∧ x.Takes t ∧ t.relation = .cte name

/-- An expression in a query, with the tables that it sees: those of the `SELECT` or text around it, and further
out those of the expressions that it stands in. -/
inductive Sees (x : Expr) : Query → List TableRef → Prop where
  | own {q : Query} {e : Expr} (mem : e ∈ q.exprs) (occurs : x.Occurs e) : Sees x q q.tables
  | text {q : Query} {e text : Expr} {t : TableRef} (mem : e ∈ q.exprs) (inside : text.Occurs e)
      (spells : text.Spells t) (occurs : x.Occurs text) : Sees x q (t :: q.tables)
  | expr {q r : Query} {e : Expr} {tables : List TableRef} (mem : e ∈ q.exprs)
      (occurs : (Expr.subquery r).Occurs e) (inside : Sees x r tables) : Sees x q (tables ++ q.tables)
  | table {q r : Query} {t : TableRef} {tables : List TableRef} (mem : t ∈ q.tables)
      (is : t.relation = .subquery r) (inside : Sees x r tables) : Sees x q tables
  | union {q u : Query} {tables : List TableRef} (mem : u ∈ q.unions) (inside : Sees x u tables) : Sees x q tables
  | cte {q : Query} {c : Cte} {tables : List TableRef} (mem : c ∈ q.ctes) (inside : Sees x c.query tables) :
      Sees x q tables

/-- A column is among those that a table offers, if these are known and the column is read through its label. -/
def Covered (ctes : List Cte) (tables : List TableRef) (label : Option String) (name : String) : Prop :=
  ∀ t ∈ tables, t.label = label → ∀ columns, t.relation.Offers ctes columns → name ∈ columns

/-- Every column in a query is covered by the tables that it sees. -/
def Flows (ctes : List Cte) (q : Query) : Prop :=
  ∀ label name tables, q.Sees (.column label name) tables → Covered ctes tables label name

theorem covered_append {ctes : List Cte} {tables : List TableRef} (first : Covered ctes tables label name)
    (second : Covered ctes more label name) : Covered ctes (tables ++ more) label name := by
  intro t mem
  rcases mem_append.mp mem with mem | mem
  · exact first t mem
  · exact second t mem

end Query

end SemanticLayer.Sql
