import SemanticLayer.Proofs.Model.Meaning
import SemanticLayer.Proofs.Plan.Query

/-!
What compiled expressions mean. Where nothing is joined, the SQL of an expression has the value of the
expression: definitions are followed, and conditions on the rows of an aggregate become guards of its argument.
-/
namespace SemanticLayer.Plan

open List

open Sql (Engine)

def baseScope {E : Engine} (row : E.Row) : E.Scope := [(baseAlias, row)]

section Evaluation

variable {E : Engine} {G : List E.Scope} {r : E.Scope}

theorem eval_literal (l : Literal) : E.eval G r (Dialect.literal l) = l.value E := by
  cases l <;> rfl

theorem eval_unary (op : UnaryOp) (x : Sql.Expr) :
    E.eval G r (compileUnary op x) = op.value E (E.eval G r x) := by
  cases op <;> simp only [compileUnary, Engine.eval, Engine.eval_parenthesized] <;> rfl

theorem eval_coalesce (x y : Sql.Expr) :
    E.eval G r (.coalesce [x, y]) = (E.eval G r x).or (E.eval G r y) := by
  show (E.eval G r x).or ((E.eval G r y).or none) = _
  rw [Option.or_none]

theorem eval_binary (op : BinaryOp) (x y : Sql.Expr) :
    E.eval G r (compileBinary op x y) = op.value E (E.eval G r x) (E.eval G r y) := by
  cases op with
  | coalesce => exact eval_coalesce x y
  | ne =>
    rw [compileBinary, eval_coalesce, Engine.eval_operation]
    rfl
  | _ => exact Engine.eval_operation _ x y

def Settled (x : Sql.Expr) : Prop :=
  ∀ (E : Engine) (G : List E.Scope) (row : E.Row),
    E.eval G (baseScope row) x = E.eval [] (baseScope row) x

def admits (E : Engine) (conditions : List Sql.Expr) (row : E.Row) : Bool :=
  conditions.all fun x => E.holds (E.eval [] (baseScope row) x)

theorem eval_guarded (settled : ∀ x ∈ conditions, Settled x) (row : E.Row) (x : Sql.Expr) :
    E.eval G (baseScope row) (guarded (allOf? conditions) x) =
      if admits E conditions row then E.eval G (baseScope row) x else none := by
  have same : admits E conditions row =
      (allOf? conditions).all fun x => E.holds (E.eval G (baseScope row) x) := by
    rw [Engine.holds_allOf (Engine.eval_operation .and), admits, Bool.eq_iff_iff, all_eq_true, all_eq_true]
    exact forall₂_congr fun x mem => by rw [settled x mem E G row]
  rw [same]
  cases allOf? conditions <;> rfl

theorem eval_count (x : Sql.Expr) :
    E.eval G r (Dialect.plainAggregate .count (some x)) =
      some (E.count (G.filterMap fun r => E.eval G r x).length) := rfl

theorem eval_aggregate (other : function ≠ .count) (x : Sql.Expr) :
    E.eval G r (Dialect.plainAggregate function (some x)) =
      function.value E (G.map fun r => E.eval G r x) := by
  have values : (G.map fun r => E.eval G r x).filterMap id = G.filterMap fun r => E.eval G r x := by
    rw [filterMap_map]
    rfl
  unfold AggregateFunction.value
  rw [values]
  cases function with
  | count => exact (other rfl).elim
  | sum =>
    generalize isValues : (G.filterMap fun r => E.eval G r x) = values
    show (E.present E.sum (G.filterMap fun r => E.eval G r x)).or ((some (E.int 0)).or none) = _
    rw [isValues]
    cases values <;> rfl
  | _ => rfl

theorem aggregates_plain (function : AggregateFunction) (x : Sql.Expr) :
    (Dialect.plainAggregate function (some x)).aggregates = true := by
  cases function <;> rfl

theorem value_guarded {function : AggregateFunction} (other : function ≠ .count) (rows : List E.Row)
    (test : E.Row → Bool) (v : E.Row → E.Value) :
    function.value E (rows.map fun row => if test row then v row else none) =
      function.value E ((rows.filter test).map v) := by
  have values : (rows.map fun row => if test row then v row else none).filterMap id =
      ((rows.filter test).map v).filterMap id := by
    rw [filterMap_map, filterMap_map, filterMap_filter]
    rfl
  unfold AggregateFunction.value
  rw [values]
  cases function with
  | count => exact (other rfl).elim
  | _ => rfl

end Evaluation

/-- What is evaluated has a value `v` that a model gives: over the rows of a group that pass the conditions, and
whatever the group is where there are no aggregates. -/
structure Means {α : Engine → Type} (conditions : List Sql.Expr) (l : SemanticLayer.Level)
    (v : ∀ E : Engine, Context E → α E) (aggregates : Bool)
    (eval : ∀ E : Engine, List E.Scope → E.Scope → α E) : Prop where
  level : aggregates = l.isAggregate
  value : ∀ (E : Engine) (group : List E.Row) (row : E.Row),
    eval E (group.map baseScope) (baseScope row) = v E ⟨row, group.filter (admits E conditions)⟩
  settled : l = .scalar → ∀ (E : Engine) (G : List E.Scope) (row : E.Row) (group : List E.Row),
    eval E G (baseScope row) = v E ⟨row, group⟩

namespace Means

variable {α β γ : Engine → Type} {conditions : List Sql.Expr} {l m : SemanticLayer.Level}
  {v : ∀ E : Engine, Context E → α E} {w : ∀ E : Engine, Context E → β E} {a b : Bool}
  {x : ∀ E : Engine, List E.Scope → E.Scope → α E} {y : ∀ E : Engine, List E.Scope → E.Scope → β E}

theorem const (c : ∀ E : Engine, α E) :
    Means conditions .scalar (fun E _ => c E) false fun E _ _ => c E :=
  ⟨rfl, fun _ _ _ => rfl, fun _ _ _ _ _ => rfl⟩

theorem map (f : ∀ E : Engine, α E → β E) (means : Means conditions l v a x) :
    Means conditions l (fun E c => f E (v E c)) a fun E G r => f E (x E G r) where
  level := means.level
  value E group row := by rw [means.value]
  settled scalar E G row group := by rw [means.settled scalar E G row group]

theorem map₂ (f : ∀ E : Engine, α E → β E → γ E) (first : Means conditions l v a x)
    (second : Means conditions m w b y) :
    Means conditions (l.sup m) (fun E c => f E (v E c) (w E c)) (a || b)
      fun E G r => f E (x E G r) (y E G r) where
  level := by
    rw [first.level, second.level]
    cases l <;> rfl
  value E group row := by rw [first.value, second.value]
  settled scalar E G row group := by
    cases l with
    | aggregate => cases scalar
    | scalar => rw [first.settled rfl E G row group, second.settled scalar E G row group]

end Means

/-- A compiled expression that means `v`. It is a literal only where `constant` says so. -/
structure Expresses (conditions : List Sql.Expr) (l : SemanticLayer.Level)
    (v : ∀ E : Engine, Context E → E.Value) (constant : Prop) (x : Sql.Expr) : Prop where
  means : Means conditions l v x.aggregates fun E G r => E.eval G r x
  literal : ∀ value, x = .literal value → constant

theorem Expresses.isSettled (expresses : Expresses conditions .scalar v constant x) : Settled x :=
  fun E G row => (expresses.means.settled rfl E G row []).trans (expresses.means.settled rfl E [] row []).symm

/-- What compiling is inside of: some conditions, and nothing that would change the frame of the `SELECT`. -/
structure Inside (conditions : List Sql.Expr) (s : Compilation) : Prop where
  filters : s.filters = conditions
  keyed : s.keyed = []
  ungroups : s.ungroups = []

theorem Reaches.withFilter {α : Type} {action : CompileM α} {Q : α → Prop}
    (compiles : Reaches (Inside (conditions ++ [condition])) action Q) :
    Reaches (Inside conditions) (CompileM.withFilter condition action) Q := by
  intro s inside
  obtain ⟨a, s', ran, inside', holds⟩ :=
    compiles { s with filters := s.filters ++ [condition] } ⟨by rw [inside.filters], inside.keyed, inside.ungroups⟩
  exact ⟨a, { s' with filters := s.filters }, gives_withFilter.mpr ⟨s', ran, rfl⟩,
    ⟨inside.filters, inside'.keyed, inside'.ungroups⟩, holds⟩

section Compile

variable {t : Target} {follow : CompileAt} {conditions : List Sql.Expr}

/-- Where nothing is joined, aggregates are plain; a row counts where its conditions hold. -/
theorem compileAggregate_bare (bare : t.tree.used = []) (function : AggregateFunction) (arg : Option Sql.Expr) :
    compileAggregate t follow function [] arg = do
      let condition := allOf? (← get).filters
      return Dialect.plainAggregate function
        (if function = .count then some (guarded condition (.int 1)) else arg.map (guarded condition)) := by
  unfold compileAggregate
  congr 1
  funext s
  simp only [JoinTree.fansOut, bare]
  cases function with
  | count => cases allOf? s.filters <;> rfl
  | _ => rfl

theorem compileAggregate_means (bare : t.tree.used = []) {function : AggregateFunction}
    (settled : ∀ x ∈ conditions, Settled x) {v : ∀ E : Engine, Context E → E.Value}
    (argued : arg.isSome = true ∨ function = .count)
    (means : ∀ x ∈ arg, ∀ (E : Engine) (G : List E.Scope) (row : E.Row) (group : List E.Row),
      E.eval G (baseScope row) x = v E ⟨row, group⟩) :
    Reaches (Inside conditions) (compileAggregate t follow function [] arg)
      (Expresses conditions .aggregate
        (fun E c => function.value E (c.group.map fun row => v E { c with row })) False) := by
  rw [compileAggregate_bare bare]
  refine .bind .get fun s inside => .pure ?_
  rw [inside.filters]
  by_cases counts : function = .count
  · subst counts
    refine ⟨⟨rfl, fun E group row => ?_, nofun⟩, fun value is => by cases is⟩
    rw [if_pos rfl, eval_count, filterMap_map]
    simp only [Function.comp_def, eval_guarded settled]
    have counted : (group.filterMap fun row => if admits E conditions row then some (E.int 1) else none).length =
        (group.filter (admits E conditions)).length := by
      rw [← filterMap_filter]
      simp
    simp only [AggregateFunction.value, length_map]
    exact congrArg (fun n => some (E.count n)) counted
  · obtain ⟨x, rfl⟩ := Option.isSome_iff_exists.mp (argued.resolve_right counts)
    rw [if_neg counts, Option.map_some]
    refine ⟨⟨aggregates_plain _ _, fun E group row => ?_, nofun⟩, fun value is => ?_⟩
    · rw [eval_aggregate counts, map_map, ← value_guarded counts]
      congr 1
      refine map_congr_left fun row _ => ?_
      rw [Function.comp_apply, eval_guarded settled, means x rfl]
    · have aggregates := aggregates_plain function (guarded (allOf? conditions) x)
      rw [is] at aggregates
      cases aggregates

variable {ns : Namespace} {fields : ∀ E : Engine, Context E → List String → E.Value}
  {constant : List String → Prop}

/-- References to the fields that are named are compiled to what the fields mean, and nothing that is left out
is there. `has` tells which parts there are. -/
structure Faithful (follow : CompileAt) (ns : Namespace)
    (fields : ∀ E : Engine, Context E → List String → E.Value) (constant : List String → Prop)
    (has : (Expr → Bool) → Bool) : Prop where
  refers : ∀ {path l conditions}, has (Expr.isFieldAt path) = true → (Names.of ns).level path = some l →
    (∀ x ∈ conditions, Settled x) → Reaches (Inside conditions) (compileField follow [] ns path)
      (Expresses conditions l (fun E c => fields E c path) (constant path))
  ordinary : has Expr.isExotic = false

theorem Faithful.part {part : (Expr → Bool) → Bool} (faithful : Faithful follow ns fields constant has)
    (le : ∀ test, part test = true → has test = true) : Faithful follow ns fields constant part :=
  ⟨fun h => faithful.refers (le _ h),
    Bool.eq_false_iff.mpr fun h => Bool.eq_false_iff.mp faithful.ordinary (le _ h)⟩

/-- Whether an expression is a literal, or a field that is one. -/
def IsConstant (constant : List String → Prop) (e : Expr) : Prop :=
  e.isLiteral = true ∨ ∃ path, e = .field path ∧ constant path

theorem aggregates_binary (op : BinaryOp) (x y : Sql.Expr) :
    (compileBinary op x y).aggregates = Sql.anyAggregates [x, y] := by
  cases op <;> simp [compileBinary, operation, Sql.Expr.coalesce, Sql.Expr.fn, Sql.Expr.aggregates,
    Sql.anyAggregates]

theorem aggregates_unary (op : UnaryOp) (x : Sql.Expr) :
    (compileUnary op x).aggregates = Sql.anyAggregates [x] := by
  cases op <;> simp [compileUnary, Sql.Expr.aggregates, Sql.anyAggregates]

theorem aggregates_arms (xs : List Sql.Expr) :
    (Sql.armsAggregate (armsOf xs).1 || Sql.optionAggregates (armsOf xs).2) = Sql.anyAggregates xs := by
  fun_induction armsOf xs with
  | case1 condition value rest ih => simp only [Sql.armsAggregate, Sql.anyAggregates, ← ih, Bool.or_assoc]
  | _ => simp [Sql.armsAggregate, Sql.optionAggregates, Sql.anyAggregates]

theorem eval_arms {E : Engine} {G : List E.Scope} {r : E.Scope} (xs : List Sql.Expr) :
    E.evalArms G r (armsOf xs).1 = (armsOf (E.evalList G r xs)).1 ∧
      E.evalOption G r (armsOf xs).2 = (armsOf (E.evalList G r xs)).2.join := by
  fun_induction armsOf xs with
  | case1 condition value rest ih => exact ⟨congrArg _ ih.1, ih.2⟩
  | _ => exact ⟨rfl, rfl⟩

theorem assemble_applied {e : Expr} (d : Dialect) (place : List String) (operation : e.isOperation = true)
    (ordinary : e.isExotic = false) (length : xs.length = e.parts.length) :
    ∃ x, assemble d place e xs = .ok x ∧ x.aggregates = Sql.anyAggregates xs ∧
      (∀ value, x = .literal value → e.isLiteral = true) ∧
      ∀ (E : Engine) (G : List E.Scope) (r : E.Scope), E.eval G r x = e.applied E (E.evalList G r xs) := by
  cases e with
  | column | field | aggregate | filtered | ungroup => cases operation
  | now | cast | truncate | extract | offset => cases ordinary
  | literal value =>
    cases length_eq_zero_iff.mp length
    exact ⟨_, rfl, by cases value <;> rfl, fun _ _ => rfl, fun E G r => eval_literal value⟩
  | unary op =>
    obtain ⟨a, rfl⟩ := length_eq_one_iff.mp length
    exact ⟨_, rfl, aggregates_unary op a, (fun value is => by cases op <;> cases is), fun E G r => eval_unary op a⟩
  | binary op =>
    obtain ⟨a, b, rfl⟩ := length_eq_two.mp length
    exact ⟨_, rfl, aggregates_binary op a b,
      (fun value is => by cases op <;> cases is),
      fun E G r => eval_binary op a b⟩
  | isNull a negated =>
    obtain ⟨a, rfl⟩ := length_eq_one_iff.mp length
    refine ⟨_, rfl, ?_, by simp, fun E G r => ?_⟩
    · simp [Sql.Expr.aggregates, Sql.anyAggregates]
    · simp only [Engine.eval, Engine.eval_parenthesized]
      rfl
  | isIn a values negated =>
    cases xs with
    | nil => cases length
    | cons x xs =>
      refine ⟨_, rfl, ?_, by simp, fun E G r => ?_⟩
      · simp [Sql.Expr.aggregates, Sql.anyAggregates]
      · simp only [Engine.eval, Engine.eval_parenthesized]
        rfl
  | choose arms otherwise =>
    refine ⟨_, rfl, aggregates_arms xs, by simp, fun E G r => ?_⟩
    rw [Engine.eval, (eval_arms xs).1, (eval_arms xs).2]
    rfl
  | call function args =>
    refine ⟨_, rfl, by cases function <;> rfl, by simp [Sql.Expr.fn], fun E G r => ?_⟩
    cases function <;> rfl

section Means

variable {fields : ∀ E : Engine, Context E → List String → E.Value}

abbrev CompilesTo (t : Target) (follow : CompileAt) (ns : Namespace)
    (fields : ∀ E : Engine, Context E → List String → E.Value) (constant : List String → Prop)
    (conditions : List Sql.Expr) (e : Expr) : Prop :=
  ∀ {l : SemanticLayer.Level}, e.level? (Names.of ns) = some l →
    Reaches (Inside conditions) (compile t follow [] ns e)
      (Expresses conditions l (fun E c => e.value E (fields E) c) (IsConstant constant e))

open SemanticLayer.Level (both_eq_some)

theorem compileParts_means (es : List Expr)
    (each : ∀ e ∈ es, CompilesTo t follow ns fields constant conditions e) :
    ∀ {l : SemanticLayer.Level}, Expr.levelList (Names.of ns) es = some l →
    Reaches (Inside conditions) (es.mapM (compile t follow [] ns)) fun xs => xs.length = es.length ∧
      Means conditions l (fun E c => es.map (Expr.value E (fields E) c)) (Sql.anyAggregates xs)
        fun E G r => E.evalList G r xs := by
  induction es with
  | nil =>
    intro l level
    cases level
    exact .pure ⟨rfl, .const fun E => []⟩
  | cons e rest ih =>
    intro l level
    obtain ⟨_, _, first, second, rfl⟩ := both_eq_some level
    rw [mapM_cons]
    refine .bind (each e mem_cons_self first) fun x left => ?_
    refine .bind (ih (fun e mem => each e (mem_cons_of_mem _ mem)) second) fun xs right => .pure ?_
    exact ⟨congrArg (· + 1) right.1, left.means.map₂ (fun E v values => v :: values) right.2⟩

theorem compileOperation_means (operation : e.isOperation = true) (ordinary : e.isExotic = false)
    (each : ∀ p ∈ e.parts, CompilesTo t follow ns fields constant conditions p) :
    CompilesTo t follow ns fields constant conditions e := by
  intro l level
  rw [Expr.level?_operation operation] at level
  rw [compile_operator (by cases e <;> first | rfl | cases operation)]
  refine .bind (compileParts_means _ each level) fun xs parts => ?_
  obtain ⟨length, means⟩ := parts
  obtain ⟨x, is, aggregates, literal, eval⟩ := assemble_applied t.dialect [] operation ordinary length
  rw [is]
  refine .pure ⟨?_, fun value is => .inl (literal value is)⟩
  simpa only [eval, aggregates, Expr.value_operation operation] using means.map fun E => e.applied E

theorem compile_means (bare : t.tree.used = []) (joinless : ∀ path, (Names.of ns).joins path = true → path = [])
    (e : Expr) (faithful : Faithful follow ns fields constant (e.any ·)) (settled : ∀ x ∈ conditions, Settled x) :
    CompilesTo t follow ns fields constant conditions e := by
  induction e using Expr.parts_induction generalizing conditions with
  | step e ih =>
    intro l level
    have each {p : Expr} (mem : p ∈ e.parts) {conditions : List Sql.Expr} (settled : ∀ x ∈ conditions, Settled x) :
        CompilesTo t follow ns fields constant conditions p :=
      ih p mem (faithful.part fun test => Expr.any_part mem) settled
    have ordinary := faithful.ordinary
    rw [Expr.any_parts, Bool.or_eq_false_iff] at ordinary
    replace ordinary := ordinary.1
    cases e with
    | column name =>
      obtain ⟨rfl, _⟩ := Expr.column_level level
      exact .pure ⟨⟨rfl, fun _ _ _ => rfl, fun _ _ _ _ _ => rfl⟩, fun value is => by cases is⟩
    | field path =>
      exact (faithful.refers (Expr.field_refersTo path) level settled).weaken fun x expresses =>
        ⟨expresses.means, fun value is => .inr ⟨path, rfl, expresses.literal value is⟩⟩
    | aggregate function locality arg =>
      obtain ⟨rfl, joins, argued, scalar⟩ := Expr.aggregate_level level
      obtain rfl := joinless locality joins
      have plain {v : ∀ E : Engine, Context E → E.Value} {x : Sql.Expr}
          (expresses : Expresses conditions .aggregate v False x) :
          Expresses conditions .aggregate v (IsConstant constant (.aggregate function [] arg)) x :=
        ⟨expresses.means, fun value is => (expresses.literal value is).elim⟩
      rw [compile]
      cases arg with
      | none =>
        rw [compileOption, pure_bind]
        exact (compileAggregate_means (v := fun E _ => none) bare settled argued fun x is => by cases is).weaken
          fun x => plain
      | some e =>
        rw [compileOption, bind_assoc]
        refine .bind (each mem_cons_self settled scalar) fun x expresses => ?_
        rw [pure_bind]
        refine (compileAggregate_means (v := fun E c => e.value E (fields E) c) bare settled (.inl rfl)
          fun y is => ?_).weaken fun y => plain
        cases is
        exact expresses.means.settled rfl
    | filtered a condition =>
      obtain ⟨rfl, first, second⟩ := Expr.filtered_level level
      refine .bind (each (by simp [Expr.parts]) settled second) fun y holds => ?_
      have settled' : ∀ x ∈ conditions ++ [y], Settled x := by
        intro x mem
        rcases mem_append.mp mem with mem | mem
        · exact settled x mem
        · exact mem_singleton.mp mem ▸ holds.isSettled
      refine .withFilter ((each (by simp [Expr.parts]) settled' first).weaken fun x expresses => ⟨?_, ?_⟩)
      · refine ⟨expresses.means.level, fun E group row => ?_, fun scalar => by cases scalar⟩
        rw [expresses.means.value, Expr.value]
        congr 2
        rw [filter_filter]
        refine filter_congr fun row _ => ?_
        rw [admits, all_append, all_cons, all_nil, Bool.and_true, holds.means.settled rfl, Bool.and_comm, admits]
      · rintro value rfl
        cases expresses.means.level
    | ungroup => cases ordinary
    | _ => exact compileOperation_means rfl ordinary (fun p mem => each mem settled) level

end Means

/-- An expression over fields without joins is compiled to what it means. -/
theorem compileWithin_means (bare : t.tree.used = []) (joinless : Joinless ns) (sound : FieldsSound ns)
    (level : e.level? (Names.of ns) = some l) (ordinary : ¬ e.Exotic ns) (settled : ∀ x ∈ conditions, Settled x)
    (enough : ns.size + 1 ≤ fuel) :
    Reaches (Inside conditions) (t.compileWithin fuel [] ns e)
      (Expresses conditions l (fun E c => e.meaning E ns c) (e.Constant ns)) := by
  refine follow_bound (K := 0) (S := fun fuel place ns e => place = [] → Joinless ns → ¬ e.Exotic ns →
    ∀ {l : SemanticLayer.Level} {conditions : List Sql.Expr}, e.level? (Names.of ns) = some l →
      (∀ x ∈ conditions, Settled x) → Reaches (Inside conditions) (t.compileWithin fuel place ns e)
        (Expresses conditions l (fun E c => e.meaning E ns c) (e.Constant ns)))
    ?_ ns.size rfl sound level [] enough rfl joinless ordinary level settled
  rintro fuel _ ns e _ sound _ _ follows rfl joinless ordinary l conditions level settled
  have faithful : Faithful (t.compileWithin fuel) ns (fun E => Expr.referred E (Expr.meaning E) ns)
      (fun path => ∃ joins owner d, definitionOf ns path = .ok (joins, owner, d) ∧ d.Constant owner)
      (e.any ·) := by
    refine ⟨fun {path l conditions} refers named settled => ?_,
      Bool.eq_false_iff.mpr fun h => ordinary (.here h)⟩
    obtain ⟨joins, _, owner, d, _, within, _, defined, inner⟩ := sound.definition named
    obtain ⟨rfl, rfl⟩ := joinless.within within
    rw [compileField_eq defined]
    simp only [Expr.referred, defined]
    refine (follows refers defined rfl joinless (fun leads => ordinary (.definition refers defined leads))
      inner settled).weaken fun x expresses => ⟨expresses.means, fun value is => ?_⟩
    exact ⟨[], owner, d, rfl, expresses.literal value is⟩
  have joins (path : List String) (joined : (Names.of ns).joins path = true) : path = [] := by
    obtain ⟨inner, within⟩ := Option.isSome_iff_exists.mp joined
    exact (joinless.within within).1
  refine (compile_means bare joins e faithful settled level).weaken fun x expresses => ⟨?_, fun value is => ?_⟩
  · simpa only [Expr.meaning_eq sound level] using expresses.means
  · rcases expresses.literal value is with literal | ⟨path, rfl, joins, owner, d, defined, leads⟩
    · exact .here literal
    · exact .definition (by simp [Expr.isFieldAt]) defined leads

end Compile

end SemanticLayer.Plan
