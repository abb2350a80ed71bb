import SemanticLayer.Proofs.Model.Reach
import SemanticLayer.Proofs.Sql.Semantics

/-!
What the expressions and stages of a model mean, on rows of an engine. A field has the value of its
definition; a filter on an aggregate leaves fewer rows to it. Stages run one after the other.
-/
namespace SemanticLayer

open List

open Sql (Engine)

structure Context (E : Engine) where
  row : E.Row
  group : List E.Row

def Literal.value (E : Engine) : Literal → E.Value
  | .number text => E.number text
  | .string text => some (E.string text)
  | .boolean b => some (E.bool b)
  | .null => none
  | .date text => E.date text
  | .timestamp text => E.timestamp text

def UnaryOp.value (E : Engine) : UnaryOp → E.Value → E.Value
  | .not => E.unary .not
  | .neg => E.unary .neg

def BinaryOp.value (E : Engine) (op : BinaryOp) (a b : E.Value) : E.Value :=
  match op with
  | .coalesce => a.or b
  | .ne => (E.binary .ne a b).or (some (E.bool true))
  | .add => E.binary .add a b
  | .sub => E.binary .sub a b
  | .mul => E.binary .mul a b
  | .div => E.binary .div a b
  | .mod => E.binary .mod a b
  | .eq => E.binary .eq a b
  | .lt => E.binary .lt a b
  | .lte => E.binary .lte a b
  | .gt => E.binary .gt a b
  | .gte => E.binary .gte a b
  | .and => E.binary .and a b
  | .or => E.binary .or a b
  | .like => E.binary .like a b
  | .notLike => E.binary .notLike a b

/-- An aggregate of some rows, each with the value of the argument. A sum of no values is zero. -/
def AggregateFunction.value (E : Engine) (f : AggregateFunction) (rows : List E.Value) : E.Value :=
  let values := rows.filterMap id
  match f with
  | .count => some (E.count rows.length)
  | .countDistinct => some (E.count values.dedup.length)
  | .sum => some (if values.isEmpty then E.int 0 else E.sum values)
  | .avg => E.present E.avg values
  | .min => E.present E.min values
  | .max => E.present E.max values

namespace Expr

variable (E : Engine) (field : Context E → List String → E.Value)

mutual

/-- The value of an expression, given those of the fields that it names. Casts, times and widened aggregates
are left out. -/
def value (c : Context E) : Expr → E.Value
  | .literal l => l.value E
  | .column name => E.get c.row name
  | .field path => field c path
  | .unary op a => op.value E (value c a)
  | .binary op a b => op.value E (value c a) (value c b)
  | .aggregate f _ arg => f.value E (c.group.map fun row => valueOption { c with row } arg)
  | .filtered a condition =>
    value { c with group := c.group.filter fun row => E.holds (value { c with row } condition) } a
  | .choose arms otherwise => E.choose (valueOption c otherwise) (valueArms c arms)
  | .isNull a negated => E.isNull (value c a) negated
  | .isIn a values negated => E.isIn (value c a) (valueList c values) negated
  | .call .coalesce args => E.coalesce (valueList c args)
  | .call function args => E.call function.sqlName (valueList c args)
  | .now | .cast .. | .truncate .. | .extract .. | .offset .. | .ungroup .. => none

def valueOption (c : Context E) : Option Expr → E.Value
  | none => none
  | some e => value c e

def valueList (c : Context E) : List Expr → List E.Value
  | [] => []
  | e :: rest => value c e :: valueList c rest

def valueArms (c : Context E) : List (Expr × Expr) → List (E.Value × E.Value)
  | [] => []
  | (condition, v) :: rest => (value c condition, value c v) :: valueArms c rest

end

def applied : Expr → List E.Value → E.Value
  | .literal l, _ => l.value E
  | .unary op _, [a] => op.value E a
  | .binary op _ _, [a, b] => op.value E a b
  | .choose _ _, values => E.choose (Plan.armsOf values).2.join (Plan.armsOf values).1
  | .isNull _ negated, [a] => E.isNull a negated
  | .isIn _ _ negated, a :: values => E.isIn a values negated
  | .call .coalesce _, values => E.coalesce values
  | .call function _, values => E.call function.sqlName values
  | _, _ => none

def referred (follow : Namespace → Context E → Expr → E.Value) (ns : Namespace) (c : Context E)
    (path : List String) : E.Value :=
  match Plan.definitionOf ns path with
  | .ok (_, owner, definition) => follow owner c definition
  | .error _ => none

/-- The value of an expression whose definitions are at most `depth` deep. -/
def meaningWithin : Nat → Namespace → Context E → Expr → E.Value
  | 0, _, _, _ => none
  | depth + 1, ns, c, e => e.value E (referred E (meaningWithin depth) ns) c

/-- The value of an expression of a namespace. A chain of definitions visits no field twice. -/
def meaning (ns : Namespace) (c : Context E) (e : Expr) : E.Value := meaningWithin E (ns.size + 1) ns c e

def isExotic : Expr → Bool
  | .now | .cast .. | .truncate .. | .extract .. | .offset .. | .ungroup .. => true
  | _ => false

def isColumn : Expr → Bool
  | .column _ => true
  | _ => false

def isLiteral : Expr → Bool
  | .literal _ => true
  | _ => false

mutual

/-- Whether a subexpression outside of aggregates satisfies the test. The filter of an aggregate is read for
each of its rows. -/
def anyOuter (test : Expr → Bool) (e : Expr) : Bool :=
  test e ||
    match e with
    | .literal _ | .column _ | .field _ | .now | .aggregate _ _ _ => false
    | .unary _ a | .cast a _ _ | .truncate a _ _ | .extract a _ | .isNull a _ | .ungroup _ a _
    | .filtered a _ => anyOuter test a
    | .binary _ a b | .offset a b _ _ _ => anyOuter test a || anyOuter test b
    | .choose arms otherwise => anyOuterArm test arms || anyOuterOption test otherwise
    | .isIn a values _ => anyOuter test a || anyOuterList test values
    | .call _ args => anyOuterList test args

def anyOuterOption (test : Expr → Bool) : Option Expr → Bool
  | none => false
  | some e => anyOuter test e

def anyOuterList (test : Expr → Bool) : List Expr → Bool
  | [] => false
  | e :: rest => anyOuter test e || anyOuterList test rest

def anyOuterArm (test : Expr → Bool) : List (Expr × Expr) → Bool
  | [] => false
  | (condition, v) :: rest => anyOuter test condition || anyOuter test v || anyOuterArm test rest

end

/-- An expression one of whose parts satisfies the test, or the definition of one that it names there. -/
inductive Leads (parts : (Expr → Bool) → Expr → Bool) (test : Expr → Bool) : Namespace → Expr → Prop where
  | here (holds : parts test e = true) : Leads parts test ns e
  | definition
      (refers : parts (isFieldAt path) e = true) (defined : Plan.definitionOf ns path = .ok (joins, owner, d))
      (leads : Leads parts test owner d) : Leads parts test ns e

abbrev Exotic : Namespace → Expr → Prop := Leads (fun test e => e.any test) isExotic

abbrev ReadsRow : Namespace → Expr → Prop := Leads (fun test e => e.anyOuter test) isColumn

abbrev Constant : Namespace → Expr → Prop := Leads (fun test e => test e) isLiteral

section Values

variable {E : Engine} {f g : Context E → List String → E.Value}

theorem valueList_eq (c : Context E) (es : List Expr) : valueList E f c es = es.map (value E f c) := by
  induction es with
  | nil => rfl
  | cons e rest ih => rw [valueList, ih, map_cons]

theorem valueArms_eq (c : Context E) (arms : List (Expr × Expr)) :
    valueArms E f c arms = arms.map fun arm => (arm.1.value E f c, arm.2.value E f c) := by
  induction arms with
  | nil => rfl
  | cons arm rest ih => rw [valueArms, ih, map_cons]

theorem value_operation {e : Expr} (operation : e.isOperation = true) (c : Context E) :
    e.value E f c = e.applied E (e.parts.map (value E f c)) := by
  cases e with
  | column | field | aggregate | filtered | ungroup => cases operation
  | choose arms otherwise =>
    rw [value, parts, applied, armsOf_map, armsOf_parts, valueArms_eq]
    cases otherwise <;> rfl
  | isIn a values => rw [value, valueList_eq]; rfl
  | call function => cases function <;> exact congrArg _ (valueList_eq c _)
  | _ => rfl

theorem value_parts {e : Expr} (operation : e.isOperation = true)
    (same : ∀ p ∈ e.parts, p.value E f c = p.value E g c') : e.value E f c = e.value E g c' := by
  rw [value_operation operation, value_operation operation, map_congr_left same]

theorem value_congr (e : Expr) (agree : ∀ path, e.any (isFieldAt path) = true → ∀ c, f c path = g c path)
    (c : Context E) : e.value E f c = e.value E g c := by
  induction e using parts_induction generalizing c with
  | step e ih =>
    have each {p : Expr} (mem : p ∈ e.parts) (c : Context E) : p.value E f c = p.value E g c :=
      ih p mem (fun path h => agree path (any_part mem h)) c
    cases e with
    | column | ungroup => rfl
    | field path => exact agree path (field_refersTo path) c
    | aggregate function _ arg =>
      cases arg with
      | none => rfl
      | some a => simp only [value, valueOption, each mem_cons_self]
    | filtered a condition =>
      have rows := each (p := condition) (by simp [parts])
      simp only [value, rows, each (p := a) (by simp [parts])]
    | _ => exact value_parts rfl fun p mem => each mem c

/-- Outside of aggregates no column is named, and only fields whose value does not depend on the row. `has`
tells which parts there are. -/
structure RowFree (f : Context E → List String → E.Value) (has : (Expr → Bool) → Bool) : Prop where
  columns : has isColumn = false
  fields : ∀ path, has (isFieldAt path) = true → ∀ row row' group, f ⟨row, group⟩ path = f ⟨row', group⟩ path

theorem RowFree.part {part : (Expr → Bool) → Bool} (free : RowFree f has)
    (le : ∀ test, part test = true → has test = true) : RowFree f part :=
  ⟨Bool.eq_false_iff.mpr fun h => Bool.eq_false_iff.mp free.columns (le _ h),
    fun path h => free.fields path (le _ h)⟩

theorem anyOuterOption_eq (test : Expr → Bool) (e : Option Expr) :
    anyOuterOption test e = e.toList.any (anyOuter test) := by
  cases e <;> simp [anyOuterOption]

theorem anyOuterList_eq (test : Expr → Bool) (es : List Expr) : anyOuterList test es = es.any (anyOuter test) := by
  induction es with
  | nil => rfl
  | cons e rest ih => rw [anyOuterList, ih, any_cons]

theorem anyOuterArm_eq (test : Expr → Bool) (arms : List (Expr × Expr)) :
    anyOuterArm test arms = (arms.flatMap fun arm => [arm.1, arm.2]).any (anyOuter test) := by
  induction arms with
  | nil => rfl
  | cons arm rest ih => rw [anyOuterArm, ih, flatMap_cons, any_append]; simp

theorem anyOuter_part {e : Expr} (operation : e.isOperation = true) (mem : p ∈ e.parts)
    (holds : p.anyOuter test = true) : e.anyOuter test = true := by
  have inside : e.parts.any (anyOuter test) = true := any_eq_true.mpr ⟨p, mem, holds⟩
  rw [anyOuter.eq_def]
  cases e <;> simp_all [isOperation, parts, anyOuterList_eq, anyOuterOption_eq, anyOuterArm_eq]

theorem value_row (row row' : E.Row) (e : Expr) (group : List E.Row) (free : RowFree f (e.anyOuter ·)) :
    e.value E f ⟨row, group⟩ = e.value E f ⟨row', group⟩ := by
  induction e using parts_induction generalizing group with
  | step e ih =>
    cases e with
    | column => cases free.columns
    | field path => exact free.fields path (by simp [anyOuter, isFieldAt]) row row' group
    | aggregate | ungroup => rw [value, value]
    | filtered a condition =>
      exact ih a (by simp [parts]) _ (free.part fun test h => by simp [anyOuter, h])
    | _ => exact value_parts rfl fun p mem => ih p mem group (free.part fun test => anyOuter_part rfl mem)

end Values

section Meanings

variable {E : Engine} {ns : Namespace} {e : Expr} {l : Level}

/-- How deep definitions are followed does not matter once it is deep enough. -/
theorem meaningWithin_stable (sound : FieldsSound ns) (level : e.level? (Names.of ns) = some l)
    (enough : ns.size + 1 ≤ fuel) (more : Nat) (c : Context E) :
    meaningWithin E (fuel + more) ns c e = meaningWithin E fuel ns c e := by
  refine follow_bound (K := 0) (S := fun fuel _ ns e => ∀ c,
    meaningWithin E (fuel + more) ns c e = meaningWithin E fuel ns c e) ?_ ns.size rfl sound level [] enough c
  intro fuel place ns e l sound level _ follows c
  rw [Nat.add_right_comm, meaningWithin]
  refine value_congr e (fun path refers c => ?_) c
  unfold referred
  split
  · next defined => exact follows refers defined c
  · rfl

theorem meaning_eq (sound : FieldsSound ns) (level : e.level? (Names.of ns) = some l) (c : Context E) :
    e.meaning E ns c = e.value E (referred E (meaning E) ns) c := by
  rw [meaning, ← meaningWithin_stable sound level (Nat.le_refl _) 1]
  refine value_congr e (fun path refers c => ?_) c
  obtain ⟨l', named, _⟩ := refers_level level refers
  obtain ⟨joins, _, owner, d, _, within, inner, defined, level⟩ := sound.definition named
  obtain ⟨more, isMore⟩ := Nat.exists_eq_add_of_le (Nat.add_le_add_right (within_le within) 1)
  simp only [referred, defined]
  rw [isMore, meaningWithin_stable inner level (Nat.le_refl _), meaning]

theorem meaningWithin_row : ∀ (fuel : Nat) {ns : Namespace} {e : Expr}, ¬ ReadsRow ns e →
    ∀ (row row' : E.Row) (group : List E.Row),
      meaningWithin E fuel ns ⟨row, group⟩ e = meaningWithin E fuel ns ⟨row', group⟩ e
  | 0, _, _, _, _, _, _ => rfl
  | fuel + 1, ns, e, free, row, row', group => by
    refine value_row row row' e group ⟨Bool.eq_false_iff.mpr fun h => free (.here h), ?_⟩
    intro path refers row row' group
    unfold referred
    split
    · next defined =>
      exact meaningWithin_row fuel (fun leads => free (.definition refers defined leads)) row row' group
    · rfl

end Meanings

end Expr

def byKey {α κ : Type} [DecidableEq κ] (key : α → κ) (rows : List α) : List (κ × List α) :=
  (rows.map key).eraseDups.map fun k => (k, rows.filter fun a => key a = k)

section Stages

variable (E : Engine) (ns : Namespace)

def keeps (conditions : List Expr) (row : E.Row) : Bool :=
  conditions.all fun e => E.holds (e.meaning E ns ⟨row, []⟩)

namespace OutputField

def dimension? : OutputField → Option ExprField
  | .dimension f => some f
  | _ => none

def measure? : OutputField → Option ExprField
  | .measure f => some f
  | _ => none

def ofGroup (key : E.Row) (group : List E.Row) : OutputField → E.Value
  | .dimension f => E.get key f.name
  | .measure f => f.expr.meaning E ns ⟨[], group⟩
  | .nest _ => none

def ofRow (row : E.Row) : OutputField → E.Value
  | .dimension f | .measure f => f.expr.meaning E ns ⟨row, []⟩
  | .nest _ => none

end OutputField

def groupKey (fields : List OutputField) (row : E.Row) : E.Row :=
  (fields.filterMap OutputField.dimension?).map fun f => (f.name, f.expr.meaning E ns ⟨row, []⟩)

def groupsOf (fields : List OutputField) (rows : List E.Row) : List (E.Row × List E.Row) :=
  if (fields.filterMap OutputField.dimension?).isEmpty then [([], rows)]
  else byKey (groupKey E ns fields) rows

/-- The rows of a stage over some others, of which it reads those that pass the filters too. -/
def Stage.run (filters : List Expr) (rows : List E.Row) : Stage → List E.Row
  | .reduce fields having _ r =>
    let kept := rows.filter (keeps E ns (filters ++ r.filters.map Filter.expr))
    let groups := (groupsOf E ns fields kept).filter fun (_, group) =>
      having.all fun f => E.holds (f.expr.meaning E ns ⟨[], group⟩)
    groups.map fun (key, group) => fields.map fun f => (f.name, f.ofGroup E ns key group)
  | .project fields _ r =>
    let kept := rows.filter (keeps E ns (filters ++ r.filters.map Filter.expr))
    kept.map fun row => fields.map fun f => (f.name, f.ofRow E ns row)
  | .index .. => []

def runStages (location : Location) : Namespace → List Expr → List E.Row → List Stage → List E.Row
  | _, _, rows, [] => rows
  | ns, filters, rows, stage :: rest =>
    runStages location (.ofResult stage.outputSchema location) [] (stage.run E ns filters rows) rest

end Stages

def Query.rows (E : Engine) (tables : String → List E.Row) (q : Query) : List E.Row :=
  match q.source.origin with
  | .table path _ =>
    runStages E q.location q.source.fields (q.source.filters.map Filter.expr) (tables path) q.stages
  | _ => []

namespace Stage

def keyExprs : Stage → List Expr
  | .reduce fields _ _ _ => (fields.filterMap OutputField.dimension?).map ExprField.expr
  | _ => []

def groupExprs : Stage → List Expr
  | .reduce fields having _ _ =>
    (fields.filterMap OutputField.measure?).map ExprField.expr ++ having.map Filter.expr
  | _ => []

/-- A stage over a namespace that groups or lists rows, without nests, a limit or a sample. Its expressions have
a meaning, those of groups read no column outside of aggregates, and rows are not grouped by a literal. -/
structure Plain (ns : Namespace) (stage : Stage) : Prop where
  kind : stage.kind ≠ .index
  nests : stage.nests = []
  limit : stage.restriction.limit = none
  sample : stage.sample = none
  ordinary : ∀ e ∈ stage.exprs, ¬ e.Exotic ns
  groups : ∀ e ∈ stage.groupExprs, ¬ e.ReadsRow ns
  keys : ∀ e ∈ stage.keyExprs, ¬ e.Constant ns

end Stage

def StagesPlain (location : Location) : Namespace → List Stage → Prop
  | _, [] => True
  | ns, stage :: rest =>
    stage.Plain ns ∧ StagesPlain location (.ofResult stage.outputSchema location) rest

end SemanticLayer
