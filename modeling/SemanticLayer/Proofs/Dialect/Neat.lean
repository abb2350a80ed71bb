import SemanticLayer.Proofs.Plan.Lockstep
import SemanticLayer.Proofs.Sql.Grouping

/-!
The SQL that dialects write. Whatever is put together from neat expressions is neat: operators hold their
operands, apart from those that are taken bare, and no column is read but those of the expressions.
-/
namespace SemanticLayer

open List

open Sql (Expr)

namespace Sql.Expr

def aggregateNames : List String := ["COUNT", "SUM", "AVG", "MIN", "MAX"]

/-- No aggregate stands in the expression. -/
def Plain (e : Expr) : Prop :=
  e.Each fun x => ∀ function args distinct, x = .call function args distinct → function ∉ aggregateNames

/-- Sturdy, no query, and a column or a number only if it may be there. Aggregates do not stand inside one another. -/
def Node (d : Dialect) (N : String → Prop) (A : Option String → String → Prop) : Expr → Prop
  | .column table name => A table name
  | .literal (.number text) => N text
  | .subquery _ => False
  | .call function args _ => function ∈ aggregateNames → ∀ a ∈ args, a.Plain
  | e => e.Sturdy d

/-- An expression without queries in which all operators are sturdy, and all columns and numbers may be there. -/
abbrev Neat (d : Dialect) (N : String → Prop) (A : Option String → String → Prop) (e : Expr) : Prop :=
  e.Each (Node d N A)

variable {d : Dialect} {N M : String → Prop} {A B : Option String → String → Prop} {e a b : Expr}

theorem Node.sturdy (node : e.Node d N A) : e.Sturdy d := by
  cases e with
  | column | literal | call => exact (fits_operand rfl).sturdy
  | subquery => exact node.elim
  | _ => exact node

theorem Node.mono (numbers : ∀ text, N text → M text) (columns : ∀ table name, A table name → B table name)
    (node : e.Node d N A) : e.Node d M B := by
  cases e with
  | column table name => exact columns table name node
  | literal value =>
    cases value with
    | number text => exact numbers text node
    | _ => exact node
  | _ => exact node

theorem Neat.subquery (neat : e.Neat d N A) : ¬(subquery query).Occurs e := fun occurs =>
  neat _ occurs

theorem Neat.mono (le : ∀ table name, A table name → B table name) (neat : e.Neat d N A) : e.Neat d N B :=
  Each.mono (fun _ => Node.mono (fun _ => id) le) neat

section Strengths

@[simp] theorem strength_parenthesized : e.parenthesized.strength d = operandStrength := by
  cases e <;> rfl

theorem strength_mul : (binary .mul a b).strength d = 6 := by
  simp [strength, form, Form.strength, Between.strength, BinaryOp.strength]

theorem strength_isNotNull : a.isNotNull.strength d = 4 := rfl

theorem binary_weak (op : BinaryOp) : op.strength < operandStrength := by cases op <;> decide

end Strengths

section Nodes

@[simp] theorem node_column : (column table name).Node d N A ↔ A table name := Iff.rfl

@[simp] theorem node_literal : (literal value).Node d N A ↔ ∀ text, value = .number text → N text := by
  cases value with
  | number text => simp [Node]
  | _ => exact iff_of_true (fits_operand rfl).sturdy nofun

@[simp] theorem node_raw {text : String} : (raw text).Node d N A := (fits_operand rfl).sturdy

@[simp] theorem node_star : (star table).Node d N A := (fits_operand rfl).sturdy

theorem node_call (plain : function ∉ aggregateNames) : (call function args distinct).Node d N A :=
  fun aggregates => (plain aggregates).elim

@[simp] theorem node_cast : (cast a type kind).Node d N A :=
  (fits_operand rfl).sturdy

@[simp] theorem node_paren : (paren a).Node d N A := (fits_operand rfl).sturdy

@[simp] theorem node_choose :
    (choose operand arms otherwise).Node d N A := (fits_operand rfl).sturdy

@[simp] theorem node_window :
    (window a partitionBy orderBy).Node d N A := (fits_operand rfl).sturdy

theorem node_binary (left : op.strength ≤ a.strength d) (right : op.strength < b.strength d) :
    (binary op a b).Node d N A := by
  refine Fits.sturdy ?_
  by_cases called : op = .concat ∧ d.conventions.concatOperator = false
  · exact fits_operand (by rw [form, if_pos called])
  · have is : (binary op a b).form d = .between a (.binary op) b := by rw [form, if_neg called]
    exact (fits_between is).mpr ⟨left, right⟩

theorem node_unary (held : op.strength ≤ a.strength d) : (unary op a).Node d N A :=
  ((fits_leading rfl).mpr held).sturdy

theorem node_isNull (held : a.strength d = operandStrength) : (isNull a negated).Node d N A := by
  refine Fits.sturdy ?_
  have is : (isNull a negated).form d = .trailing a (.isNull negated) := rfl
  rw [fits_trailing is, held]
  simp [Trailing.strength, operandStrength]

theorem node_isNotNull : a.isNotNull.Node d N A := by
  intro held
  have is : a.isNotNull.form d = .trailing a (.isNull true) := rfl
  exact (fits_trailing is).mpr (held a rfl)

theorem node_isIn (held : a.strength d = operandStrength) : (isIn a values negated).Node d N A := by
  refine Fits.sturdy ?_
  by_cases empty : values.isEmpty = true
  · exact fits_operand (by rw [form, if_pos empty])
  · have is : (isIn a values negated).form d = .trailing a (.isIn values negated) := by rw [form, if_neg empty]
    rw [fits_trailing is, held]
    simp [Trailing.strength, operandStrength]

theorem node_nullSafeEq (right : b.strength d = operandStrength) : (nullSafeEq a b).Node d N A := by
  intro held
  rw [fits_between rfl, right]
  exact ⟨held a rfl, by decide⟩

theorem node_pair : (sequence [a, b]).Node d N A := by
  cases b with
  | raw text =>
    intro held
    by_cases shift : isShift text = true
    · have least := held a (by rw [bare?, if_pos shift]; rfl)
      rw [strength, form_shift shift] at least
      exact (fits_trailing (form_shift shift)).mpr least
    · exact fits_operand (by rw [form, if_neg shift])
  | _ => exact (fits_operand rfl).sturdy

theorem node_triple (left : a.strength d = operandStrength) (right : b.strength d = operandStrength) :
    (sequence [a, x, b]).Node d N A := by
  refine Fits.sturdy ?_
  cases x with
  | raw text =>
    by_cases sign : isSign text = true
    · have is : (sequence [a, raw text, b]).form d = .between a (.text text) b := by rw [form, if_pos sign]
      rw [fits_between is, left, right]
      simp [Between.strength, operandStrength]
    · exact fits_operand (by rw [form, if_neg sign])
  | _ => exact fits_operand rfl

theorem node_long {parts : List Expr} (long : 3 < parts.length) : (sequence parts).Node d N A := by
  have is : (sequence parts).form d = .operand := by
    unfold form
    split
    all_goals simp_all
  exact (fits_operand is).sturdy

end Nodes

/-- A relation between expressions that holds of whatever is put together in one way from expressions that are related,
aggregates apart. -/
class Congruent (d : outParam Dialect) (R : Expr → Expr → Prop) : Prop where
  held {a a'} : R a a' → R a.parenthesized a'.parenthesized
  raw (text) : R (raw text) (raw text)
  literal : (∀ text, value ≠ .number text) → R (literal value) (literal value)
  call : Forall₂ R args args' → (plain : function ∉ aggregateNames := by decide) →
    R (call function args distinct) (call function args' distinct)
  cast {a a'} : R a a' → R (cast a type kind) (cast a' type kind)
  unary {a a'} : (unary op a).Node d (fun _ => False) (fun _ _ => False) → R a a' → R (unary op a) (unary op a')
  binary {a a' b b'} : (binary op a b).Node d (fun _ => False) (fun _ _ => False) → R a a' → R b b' →
    R (binary op a b) (binary op a' b')
  isNull {a a'} : (isNull a negated).Node d (fun _ => False) (fun _ _ => False) → R a a' →
    R (isNull a negated) (isNull a' negated)
  isIn {a a'} : (isIn a values negated).Node d (fun _ => False) (fun _ _ => False) → R a a' → Forall₂ R values values' →
    R (isIn a values negated) (isIn a' values' negated)
  choose : Forall₂ (fun x y => R x.1 y.1 ∧ R x.2 y.2) arms arms' → Option.Rel R otherwise otherwise' →
    R (choose none arms otherwise) (choose none arms' otherwise')
  sequence : (sequence xs).Node d (fun _ => False) (fun _ _ => False) → Forall₂ R xs xs' → R (sequence xs) (sequence xs')

/-- A condition on expressions that holds of whatever is put together from expressions that satisfy it, aggregates
apart. -/
class Closed (d : outParam Dialect) (P : Expr → Prop) : Prop where
  node {e : Expr} (own : e.names = false) (sturdy : e.Node d (fun _ => False) fun _ _ => False)
    (plain : ∀ function args distinct, e = .call function args distinct → function ∉ aggregateNames)
    (parts : ∀ p ∈ e.parts, P p) : P e

instance : Closed d (Each (Node d N A)) where
  node _ sturdy _ parts := each_iff.mpr ⟨sturdy.mono (fun _ => False.elim) (fun _ _ => False.elim), parts⟩

instance : Closed .duckdb Plain where
  node _ _ plain parts := each_iff.mpr ⟨plain, parts⟩

instance [closed : Closed d P] : Closed d fun e => P e ∧ e.Plain where
  node own sturdy plain parts :=
    ⟨closed.node own sturdy plain fun p mem => (parts p mem).1, each_iff.mpr ⟨plain, fun p mem => (parts p mem).2⟩⟩

theorem rel_left {P : α → Prop} (related : Forall₂ (fun x _ => P x) xs ys) : ∀ x ∈ xs, P x := by
  induction related with
  | nil => nofun
  | cons holds _ ih => exact forall_mem_cons.mpr ⟨holds, ih⟩

theorem Closed.parenthesized (closed : Closed d P) (made : P e) : P e.parenthesized := by
  unfold Expr.parenthesized
  split
  all_goals first
    | exact made
    | exact closed.node rfl node_paren nofun (forall_mem_singleton.mpr made)

theorem Closed.binary (closed : Closed d P) (sturdy : (binary op a b).Node d (fun _ => False) fun _ _ => False)
    (left : P a) (right : P b) : P (binary op a b) :=
  closed.node rfl sturdy nofun (forall_mem_cons.mpr ⟨left, forall_mem_singleton.mpr right⟩)

instance [closed : Closed d P] : Congruent d fun x _ => P x where
  held := closed.parenthesized
  raw _ := closed.node rfl node_raw nofun nofun
  literal plain := closed.node rfl (node_literal.mpr fun text is => plain text is) nofun nofun
  call each plain := closed.node rfl (node_call plain) (fun _ _ _ is => by cases is; exact plain) (rel_left each)
  cast made := closed.node rfl node_cast nofun (forall_mem_singleton.mpr made)
  unary sturdy made := closed.node rfl sturdy nofun (forall_mem_singleton.mpr made)
  binary := closed.binary
  isNull sturdy made := closed.node rfl sturdy nofun (forall_mem_singleton.mpr made)
  isIn sturdy made each := closed.node rfl sturdy nofun (forall_mem_cons.mpr ⟨made, rel_left each⟩)
  choose {arms _ otherwise _} each last := by
    refine closed.node rfl node_choose nofun fun p mem => ?_
    simp only [parts, Option.toList_none, nil_append, mem_append, mem_flatMap, mem_cons,
      not_mem_nil, or_false, Option.mem_toList] at mem
    rcases mem with ⟨arm, given, rfl | rfl⟩ | is
    · exact (rel_left (P := fun arm => P arm.1 ∧ P arm.2) each arm given).1
    · exact (rel_left (P := fun arm => P arm.1 ∧ P arm.2) each arm given).2
    · cases is
      cases last
      assumption
  sequence sturdy each := closed.node rfl sturdy nofun (rel_left each)

structure Guards (R S : Expr → Expr → Prop) (condition condition' : Option Expr) : Prop where
  aggregate {a a'} : function ∈ aggregateNames → R a a' →
    S (call function [Plan.guarded condition a] distinct) (call function [Plan.guarded condition' a'] distinct)
  present {a a' b b'} : R a a' → R b b' → S (countDistinct (caseWhen (Dialect.SymmetricSum.present b condition) a))
    (countDistinct (caseWhen (Dialect.SymmetricSum.present b' condition') a'))

section Builders

variable {R : Expr → Expr → Prop} {a' b' : Expr} [congruent : Congruent d R]

include congruent

theorem Congruent.made : (∀ text, R (.raw text) (.raw text)) ∧
    (∀ value, (∀ text, value ≠ .number text) → R (.literal value) (.literal value)) ∧
    (∀ function args args' distinct, function ∉ ["COUNT", "SUM", "AVG", "MIN", "MAX"] → Forall₂ R args args' →
      R (.call function args distinct) (.call function args' distinct)) ∧
    (∀ a a' type kind, R a a' → R (.cast a type kind) (.cast a' type kind)) ∧
    ∀ a a' b b', R a a' → R b b' → R (.sequence [a, b]) (.sequence [a', b']) :=
  ⟨congruent.raw, fun _ => congruent.literal, fun _ _ _ _ plain each => congruent.call each plain, fun _ _ _ _ => congruent.cast,
    fun _ _ _ _ left right => congruent.sequence node_pair (.cons left (.cons right .nil))⟩

theorem related_binary (first : a.strength d = operandStrength) (second : b.strength d = operandStrength)
    (left : R a a') (right : R b b') : R (binary op a b) (binary op a' b') := by
  have held := binary_weak op
  exact congruent.binary (node_binary (by omega) (by omega)) left right

theorem related_operation (op : BinaryOp) (left : R a x) (right : R b y) :
    R (Plan.operation op a b) (Plan.operation op x y) :=
  related_binary strength_parenthesized strength_parenthesized (congruent.held left) (congruent.held right)

theorem related_allOf (related : Forall₂ R conditions conditions') :
    Option.Rel R (Plan.allOf? conditions) (Plan.allOf? conditions') := by
  cases related with
  | nil => exact .none
  | @cons a b _ _ first rest =>
    refine .some ?_
    induction rest generalizing a b with
    | nil => exact first
    | cons next _ ih => exact ih (related_operation .and first next)

theorem related_compileBinary (op : SemanticLayer.BinaryOp) (left : R a a') (right : R b b') :
    R (Plan.compileBinary op a b) (Plan.compileBinary op a' b') := by
  cases op with
  | coalesce => simp [congruent.made, Plan.compileBinary, coalesce, fn, left, right]
  | ne =>
    have inner := related_operation .ne left right
    simp [congruent.made, Plan.compileBinary, coalesce, fn, inner]
  | _ => exact related_operation _ left right

theorem related_compileUnary (op : SemanticLayer.UnaryOp) (related : R a a') :
    R (Plan.compileUnary op a) (Plan.compileUnary op a') := by
  cases op <;> refine congruent.unary (node_unary ?_) (congruent.held related) <;> rw [strength_parenthesized] <;> decide

theorem related_guarded (conditions : Option.Rel R condition condition') (related : R a x) :
    R (Plan.guarded condition a) (Plan.guarded condition' x) := by
  cases conditions with
  | none => exact related
  | some holds => exact congruent.choose (.cons ⟨holds, related⟩ .nil) .none

theorem related_literal (number : ∀ text, l = .number text → R (.literal (.number text)) (.literal (.number text))) :
    R (Dialect.literal l) (Dialect.literal l) := by
  cases l with
  | number text => exact number text rfl
  | _ => simp [congruent.made, Dialect.literal, string]

theorem related_now (d' : Dialect) : R d'.now d'.now := by
  cases d' <;> simp [congruent.made, Dialect.now, fn]

theorem related_cast (d' : Dialect) (type : AtomicType) (safe : Bool) (related : R a x) :
    Plan.Agree R (d'.cast a type safe) (d'.cast x type safe) := by
  unfold Dialect.cast
  split
  · split
    · exact .ok (congruent.cast related)
    · exact .error
  · exact .ok (congruent.cast related)

theorem related_shiftDay (d' : Dialect) (back : Bool) (related : R a a') : R (d'.shiftDay a back) (d'.shiftDay a' back) := by
  cases d' <;> simp [congruent.made, Dialect.shiftDay, fn, int, related]

theorem related_truncateMonday (d' : Dialect) (unit : TimeUnit) (related : R a a') :
    R (d'.truncateMonday a unit) (d'.truncateMonday a' unit) := by
  have truncated {x x' : Expr} (related : R x x') : R (fn "DATE_TRUNC" [string unit.name, x]) (fn "DATE_TRUNC" [string unit.name, x']) := by
    simp [congruent.made, fn, string, related]
  unfold Dialect.truncateMonday
  split
  · exact related_shiftDay d' true (truncated (related_shiftDay d' false related))
  · exact truncated related

theorem related_formatted (related : R a a') : R (Dialect.formatted a pattern type) (Dialect.formatted a' pattern type) :=
  congruent.cast (by simp [congruent.made, fn, string, related])

theorem related_interval (text text' : String) (related : R a a') :
    R (.sequence [.raw text, a, .raw text']) (.sequence [.raw text, a', .raw text']) :=
  congruent.sequence (node_triple rfl rfl) (by simp [congruent.made, related])

theorem related_lessOne (function : String) (related : R a a') (plain : function ∉ aggregateNames := by decide) :
    R (.binary .sub (fn function [a]) (int 1)) (.binary .sub (fn function [a']) (int 1)) :=
  related_binary rfl rfl (congruent.call (.cons related .nil) plain) (congruent.literal nofun)

theorem related_truncateCalendar (unit : TimeUnit) (type : AtomicType) (related : R a a') :
    R (Dialect.truncateCalendar a unit type) (Dialect.truncateCalendar a' unit type) := by
  have onDay {x x' : Expr} (related : R x x') : R (if type = .timestamp then plainCast x "DATETIME" else x)
      (if type = .timestamp then plainCast x' "DATETIME" else x') := by
    split
    · exact congruent.cast related
    · exact related
  cases unit with
  | second | minute | hour => exact related_formatted related
  | day => exact onDay (by simp [congruent.made, fn, related])
  | week =>
    have interval := related_interval "INTERVAL " " DAY" (related_lessOne "DAYOFWEEK" related)
    exact onDay (congruent.call (by simpa [congruent.made, fn, related] using interval))
  | month => exact onDay (related_formatted related)
  | quarter =>
    have interval := related_interval "INTERVAL " " QUARTER" (related_lessOne "QUARTER" related)
    exact onDay (congruent.call (by simpa [congruent.made, fn, int, related] using interval))
  | year => exact onDay (by simp [congruent.made, fn, int, related])

theorem related_timeTruncate (d' : Dialect) (unit : TimeUnit) (type : AtomicType) (related : R a a') :
    R (d'.timeTruncate a unit type) (d'.timeTruncate a' unit type) := by
  have truncated := related_truncateMonday d' unit related
  have cast : R (if type = .date then plainCast (d'.truncateMonday a unit) "DATE" else d'.truncateMonday a unit)
      (if type = .date then plainCast (d'.truncateMonday a' unit) "DATE" else d'.truncateMonday a' unit) := by
    split
    · exact congruent.cast truncated
    · exact truncated
  cases d' with
  | duckdb | postgres => exact cast
  | bigquery => exact congruent.call (by simp [congruent.made, related]) (by split <;> decide)
  | snowflake => exact truncated
  | mysql => exact related_truncateCalendar unit type related

theorem related_timeExtract (d' : Dialect) (unit : ExtractUnit) (related : R a a') :
    R (d'.timeExtract a unit) (d'.timeExtract a' unit) := by
  have part (name : String) : R (Dialect.extractPart name a) (Dialect.extractPart name a') := related_interval _ _ related
  unfold Dialect.timeExtract
  split
  · exact part _
  · exact related_binary rfl rfl (by simp [congruent.made, fn, related]) (by simp [congruent.made, int])
  · simp [congruent.made, fn, related]
  · simp [congruent.made, part]
  · exact part _
  · simp [congruent.made, fn, related]
  · simp [congruent.made, fn, related]
  · exact part _
  · exact part _

theorem related_intervalParts (unit : TimeUnit) (related : R a a') :
    R (Dialect.intervalParts a unit).1 (Dialect.intervalParts a' unit).1 := by
  cases unit with
  | quarter => exact related_binary strength_parenthesized rfl (congruent.held related) (by simp [congruent.made, int])
  | _ => exact related

theorem related_keepDate (unit : TimeUnit) (type : AtomicType) (related : R a a') :
    R (Dialect.keepDate a unit type) (Dialect.keepDate a' unit type) := by
  unfold Dialect.keepDate
  split
  · exact congruent.cast related
  · exact related

theorem related_timeOffset (d' : Dialect) (subtract : Bool) (unit : TimeUnit) (type : AtomicType) (related : R a a')
    (amount : R b b') : R (d'.timeOffset a subtract b unit type) (d'.timeOffset a' subtract b' unit type) := by
  have base := congruent.held related
  have count : R (plainCast _ "INTEGER") (plainCast _ "INTEGER") := congruent.cast (related_intervalParts unit amount)
  have counted : (Dialect.intervalParts b' unit).2 = (Dialect.intervalParts b unit).2 := by cases unit <;> rfl
  cases d' with
  | duckdb =>
    unfold Dialect.timeOffset
    simp only [counted]
    exact related_keepDate unit type <| related_binary strength_parenthesized rfl base (congruent.call (.cons count .nil) (by cases unit <;> simp [Dialect.intervalParts] <;> decide))
  | postgres =>
    unfold Dialect.timeOffset
    simp only [counted]
    refine related_keepDate unit type (congruent.sequence (node_triple strength_parenthesized rfl) ?_)
    refine .cons base (.cons (congruent.raw _) (.cons (congruent.call (.cons ?_ .nil)) .nil))
    exact congruent.sequence node_pair (.cons (congruent.raw _) (.cons count .nil))
  | bigquery =>
    have whole : R (plainCast b "INT64") (plainCast b' "INT64") := congruent.cast amount
    have interval := related_interval "INTERVAL " (" " ++ unit.name.toUpper) whole
    have verb {before : String} (mem : before ∈ ["DATE_", "TIMESTAMP_", "DATETIME_"]) :
        before ++ (if subtract then "SUB" else "ADD") ∉ aggregateNames := by
      cases subtract <;> revert before <;> decide
    unfold Dialect.timeOffset
    simp only
    split
    · exact congruent.call (.cons related (.cons interval .nil)) (verb (by simp))
    · split
      · exact congruent.call (.cons related (.cons interval .nil)) (verb (by simp))
      · have day : R (fn "DATETIME" [a]) (fn "DATETIME" [a']) := congruent.call (.cons related .nil)
        exact congruent.call (.cons (congruent.call (.cons day (.cons interval .nil)) (verb (by simp))) .nil)
  | snowflake =>
    have signed : R (if subtract then .unary .neg b.parenthesized else b) (if subtract then .unary .neg b'.parenthesized else b') := by
      split
      · exact related_compileUnary .neg amount
      · exact amount
    exact congruent.call (.cons (congruent.raw _) (.cons signed (.cons related .nil)))
  | mysql => exact congruent.call (.cons related (.cons (related_interval _ _ (congruent.held amount)) .nil)) (by cases subtract <;> decide)

theorem related_plainAggregate (function : AggregateFunction) (aggregate : ∀ {name distinct}, name ∈ aggregateNames →
    R (call name [x.getD (int 1)] distinct) (call name [y.getD (int 1)] distinct)) :
    R (Dialect.plainAggregate function x) (Dialect.plainAggregate function y) := by
  cases function with
  | sum => exact congruent.call (.cons (aggregate (by decide)) (.cons (congruent.literal nofun) .nil))
  | _ => exact aggregate (by decide)

theorem related_symmetricSum (d' : Dialect) (key : R a a') (value : R b b') :
    R (d'.symmetricSum a b).hash (d'.symmetricSum a' b').hash ∧ R (d'.symmetricSum a b).value (d'.symmetricSum a' b').value ∧
      BinaryOp.add.strength ≤ (d'.symmetricSum a b).hash.strength d ∧
      (d'.symmetricSum a b).value.strength d = operandStrength := by
  have scaled {x x' : Expr} (held : x.strength d = operandStrength) (related : R x x') :
      R (binary .mul x (int Dialect.integerScale)) (binary .mul x' (int Dialect.integerScale)) :=
    related_binary held rfl related (congruent.literal nofun)
  have zero : R (Dialect.orZero b) (Dialect.orZero b') := congruent.call (.cons value (.cons (congruent.literal nofun) .nil))
  have leading {x x' : Expr} (related : R x x') : R (Dialect.leadingHex x) (Dialect.leadingHex x') :=
    congruent.call (.cons related (.cons (congruent.literal nofun) (.cons (congruent.literal nofun) .nil)))
  have add := Nat.le_of_lt (binary_weak .add)
  cases d' with
  | duckdb =>
    refine ⟨scaled rfl (congruent.cast (congruent.call (.cons key .nil))), ?_, ?_, rfl⟩
    · exact congruent.cast (congruent.call (.cons (scaled rfl zero) .nil))
    · rw [Dialect.symmetricSum, strength_mul]
      decide
  | postgres =>
    refine ⟨congruent.cast (congruent.cast (congruent.cast (related_binary rfl rfl (congruent.literal nofun) ?_))), congruent.cast zero, add, rfl⟩
    exact leading (congruent.call (.cons (congruent.cast key) .nil))
  | bigquery =>
    refine ⟨congruent.cast (congruent.cast (congruent.call (.cons (congruent.literal nofun) (.cons ?_ .nil)))), congruent.cast zero, add, rfl⟩
    exact leading (congruent.call (.cons (congruent.call (.cons (congruent.cast key) .nil)) .nil))
  | snowflake =>
    refine ⟨congruent.cast (congruent.call (.cons ?_ (.cons (congruent.literal nofun) .nil))), congruent.cast zero, add, rfl⟩
    exact leading (congruent.call (.cons (congruent.cast key) .nil))
  | mysql =>
    refine ⟨congruent.cast (congruent.call (.cons (leading ?_) (.cons ?_ (.cons ?_ .nil)))), congruent.cast zero, add, rfl⟩
    · exact congruent.call (.cons key .nil)
    · exact congruent.literal nofun
    · exact congruent.literal nofun

theorem related_total {s s' : Dialect.SymmetricSum} (hash : R s.hash s'.hash) (value : R s.value s'.value)
    (type : s'.resultType = s.resultType) (scale : s'.scale = s.scale)
    (first : BinaryOp.add.strength ≤ s.hash.strength d) (second : s.value.strength d = operandStrength)
    [sums : Congruent d S]
    (guards : Guards R S condition condition') : S (s.total condition) (s'.total condition') := by
  have sum : S (sumDistinct _) (sumDistinct _) := guards.aggregate (by decide)
    (congruent.binary (node_binary first (by rw [second]; decide)) hash value)
  have hashes : S (sumDistinct _) (sumDistinct _) := guards.aggregate (by decide) hash
  have difference : S (plainCast (binary .sub _ _) s.resultType) (plainCast (binary .sub _ _) s.resultType) :=
    sums.cast (related_binary rfl rfl sum hashes)
  unfold Dialect.SymmetricSum.total
  rw [type, scale]
  cases s.scale with
  | none => exact difference
  | some scale => exact related_binary rfl rfl difference (sums.literal nofun)

theorem related_sumDistinct (d' : Dialect) (average : Bool) (key : R a x) (value : R b y)
    [sums : Congruent d S] (guards : Guards R S condition condition') :
    S (d'.sumDistinct a b condition average) (d'.sumDistinct x y condition' average) := by
  obtain ⟨hash, scaled, first, second⟩ := related_symmetricSum d' key value
  have total := related_total hash scaled (by cases d' <;> rfl) (by cases d' <;> rfl) first second guards
  unfold Dialect.sumDistinct Dialect.SymmetricSum.render
  split
  · have keys := guards.present key value
    exact related_binary strength_parenthesized rfl (sums.held total) (by simp [sums.made, fn, int, keys])
  · simp [sums.made, coalesce, fn, int, total]

theorem related_isNotNull (related : R a a') : R a.isNotNull a'.isNotNull :=
  congruent.isNull node_isNotNull related

theorem related_present (value : R a a') (conditions : Option.Rel R condition condition') :
    R (Dialect.SymmetricSum.present a condition) (Dialect.SymmetricSum.present a' condition') := by
  cases conditions with
  | none => exact related_isNotNull value
  | some holds =>
    refine congruent.binary (node_binary ?_ ?_) (related_isNotNull value) (congruent.held holds)
    · rw [strength_isNotNull]
      decide
    · rw [strength_parenthesized]
      decide

theorem guards_related (conditions : Option.Rel R condition condition') (aggregate : ∀ {function distinct a a'},
    R a a' → S (call function [a] distinct) (call function [a'] distinct)) : Guards R S condition condition' where
  aggregate _ inner := aggregate (related_guarded conditions inner)
  present key value := aggregate (congruent.choose (.cons ⟨related_present value conditions, key⟩ .nil) .none)

end Builders

section Made

theorem rel_self {P : α → Prop} : Option.Rel (fun x _ => P x) x x ↔ ∀ a ∈ x, P a := by
  cases x <;> simp

variable {P : Expr → Prop} [closed : Closed d P]

include closed

theorem made_operation (op : BinaryOp) (left : P a) (right : P b) : P (Plan.operation op a b) :=
  related_operation (R := fun x _ => P x) (x := a) (y := b) op left right

theorem made_cast (made : P a) {d' : Dialect} (ok : d'.cast a type safe = .ok b) : P b := by
  obtain ⟨_, _, holds⟩ := (related_cast (R := fun x _ => P x) (x := a) d' type safe made).found ok
  exact holds

theorem made_allOf (made : ∀ x ∈ conditions, P x) : ∀ x ∈ Plan.allOf? conditions, P x :=
  rel_self.mp (related_allOf (forall₂_same.mpr made))

theorem made_guarded (made : ∀ c ∈ condition, P c) (inner : P a) : P (Plan.guarded condition a) :=
  related_guarded (x := a) (rel_self.mpr made) inner

end Made

theorem neat_aggregate (inner : a.Neat d N A ∧ a.Plain) : (call function [a] distinct).Neat d N A :=
  each_call.mpr ⟨fun _ => forall_mem_singleton.mpr inner.2, forall_mem_singleton.mpr inner.1⟩

theorem neat_plainAggregate (function : AggregateFunction) (made : ∀ a ∈ arg, a.Neat d N A ∧ a.Plain) :
    (Dialect.plainAggregate function arg).Neat d N A := by
  have inner : (arg.getD (int 1)).Neat d N A ∧ (arg.getD (int 1)).Plain := by
    cases arg with
    | none => exact Congruent.literal (R := fun x _ => x.Neat d N A ∧ x.Plain) nofun
    | some a => exact made a rfl
  exact related_plainAggregate (R := fun x _ => x.Neat d N A) (y := arg) function fun _ => neat_aggregate inner

theorem neat_sumDistinct (d' : Dialect) (average : Bool) (key : a.Neat d N A ∧ a.Plain) (value : b.Neat d N A ∧ b.Plain)
    (made : ∀ c ∈ condition, c.Neat d N A ∧ c.Plain) : (d'.sumDistinct a b condition average).Neat d N A :=
  related_sumDistinct (S := fun x _ => x.Neat d N A) (x := a) (y := b) d' average
    key value (guards_related (rel_self.mpr made) neat_aggregate)

end Sql.Expr

end SemanticLayer
