import Mathlib.Data.List.Induction
import Mathlib.Data.Multiset.Basic
import SemanticLayer.Plan.Basic

/-!
What the statements of a plan mean. A database engine says what literals, operators and aggregates are on
values that are present; null, the logic of three values, joins, groups and the order of `WITH` queries are
the same for all engines. Rows come in bags, so that `ORDER BY` has no meaning here.
-/
namespace SemanticLayer.Sql

open List

/-- How an engine computes with values that are present. -/
structure Engine where
  Datum : Type
  decEq : DecidableEq Datum
  bool : Bool → Datum
  isTrue : Datum → Bool
  isTrue_bool : ∀ b, isTrue (bool b) = b
  int : Int → Datum
  string : String → Datum
  number : String → Option Datum
  float : Float → Option Datum
  date : String → Option Datum
  timestamp : String → Option Datum
  operate : BinaryOp → Datum → Datum → Option Datum
  negate : Datum → Option Datum
  call : String → List (Option Datum) → Option Datum
  count : Nat → Datum
  sum : Multiset Datum → Datum
  avg : Multiset Datum → Datum
  min : Multiset Datum → Datum
  max : Multiset Datum → Datum

namespace Engine

variable (E : Engine)

instance : DecidableEq E.Datum := E.decEq

abbrev Value : Type := Option E.Datum

def holds (v : E.Value) : Bool := v.any E.isTrue

def truth (v : E.Value) : Option Bool := v.map E.isTrue

def ofTruth (b : Option Bool) : E.Value := b.map E.bool

end Engine

def and3 : Option Bool → Option Bool → Option Bool
  | some false, _ | _, some false => some false
  | some true, some true => some true
  | _, _ => none

def or3 : Option Bool → Option Bool → Option Bool
  | some true, _ | _, some true => some true
  | some false, some false => some false
  | _, _ => none

namespace Engine

variable (E : Engine)

abbrev Row : Type := List (String × E.Value)

def get (row : E.Row) (column : String) : E.Value := (row.lookup column).join

abbrev Scope : Type := List (String × E.Row)

def read (scope : E.Scope) (table column : String) : E.Value := E.get ((scope.lookup table).getD []) column

def literal : Literal → E.Value
  | .int n => some (E.int n)
  | .float x => E.float x
  | .number text => E.number text
  | .string text => some (E.string text)
  | .bool b => some (E.bool b)
  | .null => none

def unary (op : UnaryOp) (v : E.Value) : E.Value :=
  match op with
  | .not => E.ofTruth ((E.truth v).map not)
  | .neg => v.bind E.negate

/-- An operator on two values. All but the connectives are null where an operand is. -/
def binary (op : BinaryOp) (a b : E.Value) : E.Value :=
  match op with
  | .and => E.ofTruth (and3 (E.truth a) (E.truth b))
  | .or => E.ofTruth (or3 (E.truth a) (E.truth b))
  | op => a.bind fun x => b.bind (E.operate op x)

def coalesce : List E.Value → E.Value
  | [] => none
  | v :: rest => v.or (coalesce rest)

def choose (otherwise : E.Value) : List (E.Value × E.Value) → E.Value
  | [] => otherwise
  | (condition, value) :: rest => if E.holds condition then value else choose otherwise rest

def member (v : E.Value) (values : List E.Value) : Option Bool :=
  values.foldr (fun w found => or3 (E.truth (E.binary .eq v w)) found) (some false)

def isIn (v : E.Value) (values : List E.Value) (negated : Bool) : E.Value :=
  E.ofTruth ((E.member v values).map (negated != ·))

def isNull (v : E.Value) (negated : Bool) : E.Value := some (E.bool (negated != v.isNone))

def dated : List Expr → E.Value
  | [.raw "DATE ", .literal (.string text)] => E.date text
  | [.raw "TIMESTAMP ", .literal (.string text)] => E.timestamp text
  | _ => none

def present (f : Multiset E.Datum → E.Datum) (values : List E.Datum) : E.Value :=
  if values.isEmpty then none else some (f values)

def aggregate? (function : String) : Option (List E.Datum → E.Value) :=
  match function with
  | "COUNT" => some fun values => some (E.count values.length)
  | "SUM" => some (E.present E.sum)
  | "AVG" => some (E.present E.avg)
  | "MIN" => some (E.present E.min)
  | "MAX" => some (E.present E.max)
  | _ => none

mutual

/-- The value of an expression at a row, which stands in a group where there are aggregates. Forms that no
plain statement holds are null. -/
def eval (group : List E.Scope) (row : E.Scope) : Expr → E.Value
  | .column (some table) name => E.read row table name
  | .literal l => E.literal l
  | .binary op a b => E.binary op (eval group row a) (eval group row b)
  | .unary op a => E.unary op (eval group row a)
  | .call function args distinct =>
    match E.aggregate? function with
    | some aggregate =>
      let values := group.filterMap fun r => (evalList group r args).head?.join
      aggregate (if distinct then values.dedup else values)
    | none =>
      if function = "COALESCE" then E.coalesce (evalList group row args)
      else E.call function (evalList group row args)
  | .choose none arms otherwise => E.choose (evalOption group row otherwise) (evalArms group row arms)
  | .isIn a values negated => E.isIn (eval group row a) (evalList group row values) negated
  | .isNull a negated => E.isNull (eval group row a) negated
  | .paren a => eval group row a
  | .sequence parts => E.dated parts
  | _ => none

def evalOption (group : List E.Scope) (row : E.Scope) : Option Expr → E.Value
  | none => none
  | some e => eval group row e

def evalList (group : List E.Scope) (row : E.Scope) : List Expr → List E.Value
  | [] => []
  | e :: rest => eval group row e :: evalList group row rest

def evalArms (group : List E.Scope) (row : E.Scope) : List (Expr × Expr) → List (E.Value × E.Value)
  | [] => []
  | (condition, value) :: rest => (eval group row condition, eval group row value) :: evalArms group row rest

end

end Engine

mutual

def Expr.aggregates : Expr → Bool
  | .binary _ a b => Expr.aggregates a || Expr.aggregates b
  | .unary _ a | .isNull a _ | .paren a => Expr.aggregates a
  | .call function args _ => ["COUNT", "SUM", "AVG", "MIN", "MAX"].contains function || anyAggregates args
  | .choose _ arms otherwise => armsAggregate arms || optionAggregates otherwise
  | .isIn a values _ => Expr.aggregates a || anyAggregates values
  | _ => false

def optionAggregates : Option Expr → Bool
  | none => false
  | some e => Expr.aggregates e

def anyAggregates : List Expr → Bool
  | [] => false
  | e :: rest => Expr.aggregates e || anyAggregates rest

def armsAggregate : List (Expr × Expr) → Bool
  | [] => false
  | (condition, value) :: rest => Expr.aggregates condition || Expr.aggregates value || armsAggregate rest

end

section Groups

variable {α κ : Type} [DecidableEq κ] (key : α → κ)

def place : List (κ × List α) → α → List (κ × List α)
  | [], a => [(key a, [a])]
  | (k, group) :: rest, a => if k = key a then (k, group ++ [a]) :: rest else (k, group) :: place rest a

/-- Rows with equal keys together, in the order of the first of them. -/
def groupsBy (rows : List α) : List (List α) := (rows.foldl (place key) []).map Prod.snd

end Groups

section GroupLemmas

variable {α κ : Type} [DecidableEq κ] {key : α → κ}

theorem place_of_new {groups : List (κ × List α)} {a : α} (new : key a ∉ groups.map Prod.fst) :
    place key groups a = groups ++ [(key a, [a])] := by
  induction groups with
  | nil => rfl
  | cons first rest ih =>
    rw [map_cons, mem_cons, not_or] at new
    rw [place, if_neg (Ne.symm new.1), ih new.2]
    rfl

theorem place_of_known {a : α} (members : κ → List α) {keys : List κ} (nodup : keys.Nodup)
    (known : key a ∈ keys) :
    place key (keys.map fun k => (k, members k)) a =
      keys.map fun k => (k, if k = key a then members k ++ [a] else members k) := by
  induction keys with
  | nil => cases known
  | cons k rest ih =>
    obtain ⟨fresh, nodup⟩ := nodup_cons.mp nodup
    rw [map_cons, map_cons, place]
    by_cases same : k = key a
    · rw [if_pos same, if_pos same]
      congr 1
      refine map_congr_left fun k' mem => ?_
      rw [if_neg]
      rintro rfl
      exact fresh (same ▸ mem)
    · rw [if_neg same, if_neg same, ih nodup ((mem_cons.mp known).resolve_left (Ne.symm same))]

theorem eraseDups_concat (keys : List κ) (k : κ) :
    (keys ++ [k]).eraseDups = if k ∈ keys then keys.eraseDups else keys.eraseDups ++ [k] := by
  rw [eraseDups_append]
  split
  · next mem => simp [List.removeAll, mem]
  · next fresh => simp [List.removeAll, fresh, eraseDups_cons]

theorem nodup_eraseDups (keys : List κ) : keys.eraseDups.Nodup := by
  induction keys using List.reverseRecOn with
  | nil => exact nodup_nil
  | append_singleton keys k ih =>
    rw [eraseDups_concat]
    split
    · exact ih
    · next fresh =>
      refine nodup_append.mpr ⟨ih, by simp, ?_⟩
      rintro a mem b given rfl
      cases mem_singleton.mp given
      exact fresh (mem_eraseDups.mp mem)

theorem groupsBy_eq (rows : List α) :
    groupsBy key rows = (rows.map key).eraseDups.map fun k => rows.filter fun a => key a = k := by
  have placed : rows.foldl (place key) [] =
      (rows.map key).eraseDups.map fun k => (k, rows.filter fun a => key a = k) := by
    induction rows using List.reverseRecOn with
    | nil => rfl
    | append_singleton rows a ih =>
      rw [foldl_append, ih, foldl_cons, foldl_nil, map_append, map_singleton,
        eraseDups_concat]
      split
      · next known =>
        rw [place_of_known _ (nodup_eraseDups _) (mem_eraseDups.mpr known)]
        refine map_congr_left fun k _ => ?_
        by_cases same : k = key a
        · simp [same]
        · simp [same, Ne.symm same]
      · next new =>
        have keys : ((rows.map key).eraseDups.map fun k => (k, rows.filter fun a => key a = k)).map Prod.fst =
            (rows.map key).eraseDups := by
          rw [map_map]
          exact map_id _
        rw [place_of_new (by rw [keys, mem_eraseDups]; exact new), map_append]
        congr 1
        · refine map_congr_left fun k mem => ?_
          have other : key a ≠ k := by
            rintro rfl
            exact new (mem_eraseDups.mp mem)
          simp [other]
        · have none : rows.filter (fun b => key b = key a) = [] := by
            rw [filter_eq_nil_iff]
            intro b mem same
            exact new (mem_map.mpr ⟨b, mem, by simpa using same⟩)
          simp [none]
  rw [groupsBy, placed, map_map]
  rfl

theorem groupsBy_map {β : Type} (f : β → α) (rows : List β) :
    groupsBy key (rows.map f) = (groupsBy (fun b => key (f b)) rows).map (List.map f) := by
  rw [groupsBy_eq, groupsBy_eq, map_map, map_map]
  refine map_congr_left fun k _ => ?_
  rw [filter_map]
  rfl

theorem groupsBy_congr {κ' : Type} [DecidableEq κ'] {key' : α → κ'}
    (same : ∀ a b, key a = key b ↔ key' a = key' b) (rows : List α) :
    groupsBy key rows = groupsBy key' rows := by
  have placed (a : α) {groups : List (κ × List α)} {groups' : List (κ' × List α)}
      (matched : List.Forall₂ (fun g g' => (∃ b, g.1 = key b ∧ g'.1 = key' b) ∧ g.2 = g'.2) groups groups') :
      List.Forall₂ (fun g g' => (∃ b, g.1 = key b ∧ g'.1 = key' b) ∧ g.2 = g'.2)
        (place key groups a) (place key' groups' a) := by
    induction matched with
    | nil => exact .cons ⟨⟨a, rfl, rfl⟩, rfl⟩ .nil
    | @cons g g' rest rest' first later ih =>
      obtain ⟨k, group⟩ := g
      obtain ⟨k', group'⟩ := g'
      obtain ⟨⟨b, rfl, rfl⟩, rfl⟩ := first
      rw [place, place]
      by_cases equal : key b = key a
      · rw [if_pos equal, if_pos ((same b a).mp equal)]
        exact .cons ⟨⟨b, rfl, rfl⟩, rfl⟩ later
      · rw [if_neg equal, if_neg fun equal' => equal ((same b a).mpr equal')]
        exact .cons ⟨⟨b, rfl, rfl⟩, rfl⟩ ih
  have all : List.Forall₂ (fun g g' => (∃ b, g.1 = key b ∧ g'.1 = key' b) ∧ g.2 = g'.2)
      (rows.foldl (place key) []) (rows.foldl (place key') []) := by
    induction rows using List.reverseRecOn with
    | nil => exact .nil
    | append_singleton rows a ih =>
      rw [foldl_append, foldl_append]
      exact placed a ih
  rw [groupsBy, groupsBy, ← forall₂_eq_eq_eq, forall₂_map_left_iff, forall₂_map_right_iff]
  exact all.imp fun _ _ matched => matched.2

end GroupLemmas

/-- What a term of `GROUP BY` stands for: a number is the position of an output column. -/
def groupTerm (items : List SelectItem) (e : Expr) : Expr :=
  match e with
  | .literal (.number text) =>
    match text.toNat? with
    | some (n + 1) => (items[n]?).elim e SelectItem.expr
    | _ => e
  | e => e

theorem groupTerm_of_other (other : ∀ value, e ≠ .literal value) : groupTerm items e = e := by
  unfold groupTerm
  split
  · exact (other _ rfl).elim
  · rfl

/-- Whether a `SELECT` gives a row for each group: one of all rows where nothing is said about groups. -/
def Query.isGrouped (q : Query) : Bool :=
  !q.groupBy.isEmpty || q.having.isSome || q.items.any fun item => item.expr.aggregates

namespace Engine

variable (E : Engine)

structure Database where
  tables : String → List E.Row
  ctes : List (String × List E.Row)
  derived : Relation → List E.Row

def rowsOf (db : E.Database) : Relation → List E.Row
  | .table path => db.tables path
  | .cte name => (db.ctes.lookup name).getD []
  | relation => db.derived relation

def source (db : E.Database) : Option TableRef → List E.Scope
  | none => [[]]
  | some table => (E.rowsOf db table.relation).map fun row => [(table.label.getD "", row)]

def passes (condition : Option Expr) (row : E.Scope) : Bool :=
  condition.all fun e => E.holds (E.eval [] row e)

/-- One more join. A row without a match is kept with nulls. -/
def joined (db : E.Database) (rows : List E.Scope) (join : Join) : List E.Scope :=
  rows.flatMap fun row =>
    let label := join.table.label.getD ""
    let found := ((E.rowsOf db join.table.relation).map fun other => row ++ [(label, other)]).filter
      (E.passes join.condition)
    match join.type with
    | .cross => found
    | .left => if found.isEmpty then [row ++ [(label, [])]] else found

def frame (db : E.Database) (q : Query) : List E.Scope := q.joins.foldl (E.joined db) (E.source db q.source)

/-- The row that stands for a group; in a group without rows all columns are null. -/
def representative (q : Query) (group : List E.Scope) : E.Scope :=
  group.headD ((q.source.toList ++ q.joins.map Join.table).map fun table => (table.label.getD "", []))

def output (q : Query) (group : List E.Scope) (row : E.Scope) : E.Row :=
  q.items.map fun item => (item.label.getD "", E.eval group row item.expr)

def select (db : E.Database) (q : Query) : List E.Row :=
  let rows := (E.frame db q).filter (E.passes q.condition)
  let result :=
    if q.isGrouped then
      let groups := if q.groupBy.isEmpty then [rows]
        else groupsBy (fun row => q.groupBy.map fun e => E.eval [] row (groupTerm q.items e)) rows
      (groups.filter fun group => q.having.all fun e =>
          E.holds (E.eval group (E.representative q group) e)).map
        fun group => E.output q group (E.representative q group)
    else rows.map (E.output q [])
  match q.limit with
  | none => result
  | some n => result.take n

def withCtes (db : E.Database) (ctes : List Cte) : E.Database :=
  ctes.foldl (fun db cte => { db with ctes := (cte.name, E.select db cte.query) :: db.ctes }) db

def run (db : E.Database) (q : Query) : List E.Row := E.select (E.withCtes db q.ctes) q

variable {E}

theorem holds_and (a b : E.Value) : E.holds (E.binary .and a b) = (E.holds a && E.holds b) := by
  cases a with
  | none =>
    cases b with
    | none => rfl
    | some y => cases h : E.isTrue y <;> simp [holds, binary, truth, ofTruth, and3, h, E.isTrue_bool]
  | some x =>
    cases b with
    | none => cases h : E.isTrue x <;> simp [holds, binary, truth, ofTruth, and3, h, E.isTrue_bool]
    | some y =>
      cases h : E.isTrue x <;> cases h' : E.isTrue y <;>
        simp [holds, binary, truth, ofTruth, and3, h, h', E.isTrue_bool]

variable {group : List E.Scope} {row : E.Scope}

@[simp] theorem eval_parenthesized (e : Expr) : E.eval group row e.parenthesized = E.eval group row e := by
  unfold Expr.parenthesized
  split <;> rfl

theorem eval_operation (op : BinaryOp) (a b : Expr) :
    E.eval group row (Plan.operation op a b) = E.binary op (E.eval group row a) (E.eval group row b) := by
  rw [Plan.operation, eval, eval_parenthesized, eval_parenthesized]

theorem holds_allOf {v : Expr → E.Value} (both : ∀ a b, v (Plan.operation .and a b) = E.binary .and (v a) (v b))
    (conditions : List Expr) :
    (Plan.allOf? conditions).all (fun e => E.holds (v e)) = conditions.all fun e => E.holds (v e) := by
  have fold : ∀ (rest : List Expr) (first : Expr), E.holds (v (rest.foldl (Plan.operation .and) first)) =
      (E.holds (v first) && rest.all fun e => E.holds (v e)) := by
    intro rest
    induction rest with
    | nil => simp
    | cons e rest ih =>
      intro first
      rw [foldl_cons, ih, both, holds_and, all_cons, Bool.and_assoc]
  cases conditions with
  | nil => rfl
  | cons first rest => exact fold rest first

end Engine

@[simp] theorem Expr.aggregates_parenthesized (e : Expr) : e.parenthesized.aggregates = e.aggregates := by
  unfold Expr.parenthesized
  split <;> rfl

end SemanticLayer.Sql
