import Mathlib.Data.List.Forall2
import SemanticLayer.Sql.Tree

/-!
Statements that are the same but for how tables are labelled in them.
-/
namespace SemanticLayer.Sql

mutual

def Expr.Alike (ρ : String → String → Prop) : Expr → Expr → Prop
  | .column table name, e => ∃ table', Option.Rel ρ table table' ∧ e = .column table' name
  | .binary op a b, e => ∃ a' b', Expr.Alike ρ a a' ∧ Expr.Alike ρ b b' ∧ e = .binary op a' b'
  | .unary op a, e => ∃ a', Expr.Alike ρ a a' ∧ e = .unary op a'
  | .call function args distinct, e => ∃ args', AlikeList ρ args args' ∧ e = .call function args' distinct
  | .choose operand arms otherwise, e => ∃ operand' arms' otherwise', AlikeOption ρ operand operand' ∧
      AlikeArms ρ arms arms' ∧ AlikeOption ρ otherwise otherwise' ∧ e = .choose operand' arms' otherwise'
  | .isIn a values negated, e => ∃ a' values', Expr.Alike ρ a a' ∧ AlikeList ρ values values' ∧
      e = .isIn a' values' negated
  | .isNull a negated, e => ∃ a', Expr.Alike ρ a a' ∧ e = .isNull a' negated
  | .nullSafeEq a b, e => ∃ a' b', Expr.Alike ρ a a' ∧ Expr.Alike ρ b b' ∧ e = .nullSafeEq a' b'
  | .cast a type kind, e => ∃ a', Expr.Alike ρ a a' ∧ e = .cast a' type kind
  | .paren a, e => ∃ a', Expr.Alike ρ a a' ∧ e = .paren a'
  | .sequence parts, e => ∃ parts', AlikeList ρ parts parts' ∧ e = .sequence parts'
  | other, e => e = other

def AlikeOption (ρ : String → String → Prop) : Option Expr → Option Expr → Prop
  | none, e => e = none
  | some a, e => ∃ a', Expr.Alike ρ a a' ∧ e = some a'

def AlikeList (ρ : String → String → Prop) : List Expr → List Expr → Prop
  | [], es => es = []
  | e :: rest, es => ∃ e' rest', Expr.Alike ρ e e' ∧ AlikeList ρ rest rest' ∧ es = e' :: rest'

def AlikeArms (ρ : String → String → Prop) : List (Expr × Expr) → List (Expr × Expr) → Prop
  | [], arms => arms = []
  | (condition, value) :: rest, arms => ∃ condition' value' rest', Expr.Alike ρ condition condition' ∧
      Expr.Alike ρ value value' ∧ AlikeArms ρ rest rest' ∧ arms = (condition', value') :: rest'

end

section

variable {ρ : String → String → Prop}

theorem alikeList_iff : AlikeList ρ es es' ↔ List.Forall₂ (Expr.Alike ρ) es es' := by
  induction es generalizing es' with
  | nil => rw [AlikeList, List.forall₂_nil_left_iff]
  | cons e rest ih =>
    rw [AlikeList, List.forall₂_cons_left_iff]
    simp only [ih]

theorem alikeOption_iff : AlikeOption ρ e e' ↔ Option.Rel (Expr.Alike ρ) e e' := by
  cases e with
  | none => cases e' <;> simp [AlikeOption]
  | some a => cases e' <;> simp [AlikeOption]

theorem alikeArms_iff :
    AlikeArms ρ arms arms' ↔ List.Forall₂ (fun x y => x.1.Alike ρ y.1 ∧ x.2.Alike ρ y.2) arms arms' := by
  induction arms generalizing arms' with
  | nil => rw [AlikeArms, List.forall₂_nil_left_iff]
  | cons arm rest ih =>
    rw [AlikeArms, List.forall₂_cons_left_iff]
    simp [ih, and_assoc]

mutual

theorem Expr.alike_eq : ∀ {e e' : Expr}, e.Alike Eq e' ↔ e' = e
  | .column table name, _ => by
    have labels (table' : Option String) : Option.Rel Eq table table' ↔ table' = table := by
      cases table <;> cases table' <;> simp [eq_comm]
    simp [Expr.Alike, labels]
  | .literal _, _ | .subquery _, _ | .star _, _ | .window _ _ _, _ | .raw _, _ => by simp [Expr.Alike]
  | .binary _ a b, _ | .nullSafeEq a b, _ => by simp [Expr.Alike, @Expr.alike_eq a, @Expr.alike_eq b]
  | .unary _ a, _ | .isNull a _, _ | .cast a _ _, _ | .paren a, _ => by simp [Expr.Alike, @Expr.alike_eq a]
  | .call _ parts _, _ | .sequence parts, _ => by simp [Expr.Alike, @alikeList_eq parts]
  | .choose operand arms otherwise, _ => by
    simp [Expr.Alike, @alikeOption_eq operand, @alikeArms_eq arms, @alikeOption_eq otherwise]
  | .isIn a values _, _ => by simp [Expr.Alike, @Expr.alike_eq a, @alikeList_eq values]

theorem alikeOption_eq : ∀ {e e' : Option Expr}, AlikeOption Eq e e' ↔ e' = e
  | none, _ => by simp [AlikeOption]
  | some a, _ => by simp [AlikeOption, @Expr.alike_eq a]

theorem alikeList_eq : ∀ {es es' : List Expr}, AlikeList Eq es es' ↔ es' = es
  | [], _ => by simp [AlikeList]
  | e :: rest, _ => by simp [AlikeList, @Expr.alike_eq e, @alikeList_eq rest]

theorem alikeArms_eq : ∀ {arms arms' : List (Expr × Expr)}, AlikeArms Eq arms arms' ↔ arms' = arms
  | [], _ => by simp [AlikeArms]
  | (condition, value) :: rest, _ => by
    simp [AlikeArms, @Expr.alike_eq condition, @Expr.alike_eq value, @alikeArms_eq rest]

end

variable {a a' b b' : Expr}

theorem Expr.Alike.parenthesized (alike : a.Alike ρ a') : a.parenthesized.Alike ρ a'.parenthesized := by
  have wrapped : (a.parenthesized = a ∧ a'.parenthesized = a') ∨
      (a.parenthesized = .paren a ∧ a'.parenthesized = .paren a') := by
    cases a <;> simp only [Alike] at alike
    case column | call | cast | paren =>
      obtain ⟨_, _, rfl⟩ := alike
      exact .inl ⟨rfl, rfl⟩
    case unary | isNull | sequence =>
      obtain ⟨_, _, rfl⟩ := alike
      exact .inr ⟨rfl, rfl⟩
    case binary | nullSafeEq | isIn =>
      obtain ⟨_, _, _, _, rfl⟩ := alike
      exact .inr ⟨rfl, rfl⟩
    case choose =>
      obtain ⟨_, _, _, _, _, _, rfl⟩ := alike
      exact .inl ⟨rfl, rfl⟩
    case literal | subquery | star =>
      subst alike
      exact .inl ⟨rfl, rfl⟩
    case window | raw =>
      subst alike
      exact .inr ⟨rfl, rfl⟩
  rcases wrapped with ⟨isSame, isSame'⟩ | ⟨isWrapped, isWrapped'⟩
  · rwa [isSame, isSame']
  · rw [isWrapped, isWrapped']
    simpa [Alike] using alike

/-- How two statements may differ: in labels of tables, and in what the fields of an index are called. -/
structure Spelling where
  labels : String → String → Prop
  fields : String → String → Prop

def Spelling.same : Spelling := ⟨Eq, Eq⟩

def indexedField : String := "fieldPath"

structure TableRef.Alike (ρ : Spelling) (t t' : TableRef) : Prop where
  relation : t'.relation = t.relation
  label : Option.Rel ρ.labels t.label t'.label

structure Join.Alike (ρ : Spelling) (j j' : Join) : Prop where
  type : j'.type = j.type
  table : j.table.Alike ρ j'.table
  condition : Option.Rel (Expr.Alike ρ.labels) j.condition j'.condition

structure SelectItem.Alike (ρ : Spelling) (i i' : SelectItem) : Prop where
  label : i'.label = i.label
  expr : i.expr.Alike ρ.labels i'.expr ∨
    i.label = some indexedField ∧ ∃ a b, ρ.fields a b ∧ i.expr = .string a ∧ i'.expr = .string b

structure Query.AlikeSelect (ρ : Spelling) (q q' : Query) : Prop where
  items : List.Forall₂ (SelectItem.Alike ρ) q.items q'.items
  source : Option.Rel (TableRef.Alike ρ) q.source q'.source
  joins : List.Forall₂ (Join.Alike ρ) q.joins q'.joins
  condition : Option.Rel (Expr.Alike ρ.labels) q.condition q'.condition
  groupBy : List.Forall₂ (Expr.Alike ρ.labels) q.groupBy q'.groupBy
  having : Option.Rel (Expr.Alike ρ.labels) q.having q'.having
  orderBy : q'.orderBy = q.orderBy
  limit : q'.limit = q.limit

mutual

/-- The same query, with the same `WITH` list and the same members of a union. Each `SELECT` in it is spelled
differently as a whole, or stays as it is. -/
inductive Query.Alike (ρ : Spelling) : Query → Query → Prop where
  | mk (select : q.AlikeSelect ρ q' ∨ q.AlikeSelect .same q')
      (ctes : List.Forall₂ (Cte.Alike ρ) q.ctes q'.ctes) (unions : List.Forall₂ (Query.Alike ρ) q.unions q'.unions) :
      Query.Alike ρ q q'

inductive Cte.Alike (ρ : Spelling) : Cte → Cte → Prop where
  | mk (name : c'.name = c.name) (query : Query.Alike ρ c.query c'.query) : Cte.Alike ρ c c'

end

theorem Query.alikeSelect_same (q : Query) : q.AlikeSelect .same q where
  items := List.forall₂_same.mpr fun i _ => ⟨rfl, .inl (Expr.alike_eq.mpr rfl)⟩
  source := by
    cases q.source with
    | none => exact .none
    | some t => exact .some ⟨rfl, by cases t.label <;> constructor; rfl⟩
  joins := List.forall₂_same.mpr fun j _ => by
    refine ⟨rfl, ⟨rfl, ?_⟩, ?_⟩
    · cases j.table.label <;> constructor
      rfl
    · exact alikeOption_iff.mp (alikeOption_eq.mpr rfl)
  condition := alikeOption_iff.mp (alikeOption_eq.mpr rfl)
  groupBy := alikeList_iff.mp (alikeList_eq.mpr rfl)
  having := alikeOption_iff.mp (alikeOption_eq.mpr rfl)
  orderBy := rfl
  limit := rfl

end

end SemanticLayer.Sql
