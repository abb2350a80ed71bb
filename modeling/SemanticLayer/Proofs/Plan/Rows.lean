import SemanticLayer.Plan.Nest
import SemanticLayer.Proofs.Plan.Expr
import SemanticLayer.Proofs.Sorted

/-!
Planning the rows of one level, and those of an index. Where the input is sound, all of a `SELECT` can be
planned: its joins, what they draw on, its columns and its conditions.
-/
namespace SemanticLayer.Plan

open List

theorem liftExcept_bind {α β : Type} {r : Except Fault α} {a : α} (ok : r = .ok a) (f : α → PlanM β) :
    (liftExcept r : PlanM α) >>= f = f a := by
  rw [ok]
  rfl

namespace Succeeds

variable {α β : Type}

theorem define (stem : String) (query : Sql.Query) : Succeeds (define stem query) := fun _ _ =>
  ⟨_, _, gives_define.mpr ⟨rfl, rfl⟩, trivial, trivial⟩

theorem compiling {action : CompileM α} (succeeds : Succeeds action) : Succeeds (RowsM.compiling action) := by
  rintro ⟨c, s⟩ _
  obtain ⟨a, c', ran, _⟩ := succeeds c trivial
  exact ⟨a, (c', s), gives_compiling.mpr ⟨ran, rfl⟩, trivial, trivial⟩

theorem compiled_bind {r : Except Fault α} {a : α} (ok : r = .ok a) (f : α → RowsM β) :
    RowsM.compiling (CompileM.ofExcept r) >>= f = f a := by
  rw [ok]
  rfl

theorem lift {action : PlanM α} (plans : Succeeds action) : Succeeds (liftM action : RowsM α) := by
  rintro ⟨c, s⟩ _
  obtain ⟨a, s', ran, _⟩ := plans s trivial
  exact ⟨a, (c, s'), gives_lift.mpr ⟨ran, rfl⟩, trivial, trivial⟩

theorem compilation : Succeeds (MonadState.get : RowsM Compilation) :=
  fun s _ => ⟨s.1, s, gives_compilation.mpr ⟨rfl, rfl, rfl⟩, trivial, trivial⟩

theorem rows {action : RowsM α} (succeeds : Succeeds action) (c : Compilation) : Succeeds (action.run c) := by
  intro s _
  obtain ⟨a, s', ran, _⟩ := succeeds (c, s) trivial
  exact ⟨(a, s'.1), s'.2, ran, trivial, trivial⟩

end Succeeds

def Planned (R : Namespace → Expr → Prop) (ns : Namespace) (e : Expr) : Prop :=
  (∃ l, e.level? (Names.of ns) = some l) ∧ R ns e

def levelOf? : Stage → Option Level
  | .reduce fields having orderBy r => some (.ofReduce fields having orderBy r)
  | .project fields orderBy r => some (.ofProject fields orderBy r)
  | .index _ _ _ => none

def Level.exprs (level : Level) (parents inherited : List Expr) : List Expr :=
  parents ++ level.columns.map (fun c => c.1.expr) ++ (inherited ++ level.filters) ++ level.having

structure Level.All (P : Expr → Prop) (level : Level) : Prop where
  rows : ∀ e ∈ level.filters, P e
  columns : ∀ c ∈ level.columns, P c.1.expr
  groups : ∀ e ∈ level.having, P e

structure Enclosure.All (P : Expr → Prop) (e : Enclosure) : Prop where
  parents : ∀ x ∈ e.parents, P x
  inherited : ∀ x ∈ e.inherited, P x

section Levels

variable {P : Expr → Prop} {level : Level}

theorem dimension_column : f ∈ level.dimensions ↔ (f, false) ∈ level.columns := by
  simp only [Level.dimensions, Level.columns, mem_filterMap]
  constructor
  all_goals
    rintro ⟨output, mem, is⟩
    refine ⟨output, mem, ?_⟩
    cases output <;> cases is
    rfl

theorem column_expr (mem : c ∈ level.columns) : c.1.expr ∈ level.fields.filterMap OutputField.expr? := by
  obtain ⟨output, given, is⟩ := mem_filterMap.mp mem
  refine mem_filterMap.mpr ⟨output, given, ?_⟩
  cases output <;> cases is <;> rfl

theorem Level.All.of_stage (is : levelOf? stage = some level) (all : ∀ e ∈ stage.exprs, P e) : level.All P := by
  cases stage with
  | reduce fields having orderBy r =>
    cases is
    refine ⟨fun e mem => all e (mem_append_right _ mem), fun c mem => all _ ?_, fun e mem => all e ?_⟩
    · exact mem_append_left _ (mem_append_left _ (column_expr mem))
    · exact mem_append_left _ (mem_append_right _ mem)
  | project fields orderBy r =>
    cases is
    refine ⟨fun e mem => all e (mem_append_right _ mem), fun c mem => all _ ?_, forall_mem_nil _⟩
    exact mem_append_left _ (column_expr mem)
  | index => cases is

theorem Level.All.exprs (own : level.All P) (keys : ∀ e ∈ parents, P e) (outer : ∀ e ∈ inherited, P e) :
    ∀ e ∈ level.exprs parents inherited, P e := by
  simp only [Level.exprs, mem_append, mem_map]
  rintro e (((mem | ⟨c, mem, rfl⟩) | mem | mem) | mem)
  · exact keys e mem
  · exact own.columns c mem
  · exact outer e mem
  · exact own.rows e mem
  · exact own.groups e mem

theorem Enclosure.All.within {e : Enclosure} (outer : e.All P) (own : level.All P) : (e.within level).All P where
  parents x mem := by
    rcases mem_append.mp mem with mem | mem
    · exact outer.parents x mem
    · obtain ⟨f, given, rfl⟩ := mem_map.mp mem
      exact own.columns (f, false) (dimension_column.mp given)
  inherited x mem := (mem_append.mp mem).elim (outer.inherited x) (own.rows x)

end Levels

def nestPredicate (position : Nat) (keyColumns : List String) (cut : Option Nat) : Option Sql.Expr :=
  allOf? ((keyColumns.zipIdx.map fun (column, i) =>
    Sql.Expr.nullSafeEq (.ofTable s!"__n{position}" (parentKey i)) (.ofTable rowsAlias column)) ++
      (cut.map fun limit => operation .lte (.ofTable s!"__n{position}" rowNumberColumn) (.int limit)).toList)

def nestSource (keyColumns : List String) (position : Nat) (n : Nest) (cte : String) (cut : Option Nat) :
    Dialect.NestSource :=
  { cte, label := s!"__n{position}", fields := (pipelineSchema n.stages).map ResultField.name
    predicate := nestPredicate position keyColumns cut, orderColumn := rowNumberColumn }

def nestColumn (d : Dialect) (keyColumns : List String) (position : Nat) (n : Nest) (rows : NestRows) :
    Except Fault Sql.SelectItem :=
  if rows.limit.all (· ≤ maxNestLimit) then
    ((d.nest (nestSource keyColumns position n rows.cte rows.limit)).mapError .unsupported).map (.named · n.name)
  else .error (.stage (.nestLimit n.name (rows.limit.getD 0)))

theorem nestItem_eq (p : Planner) (keyColumns : List String) (position : Nat) (n : Nest) (rows : NestRows) :
    nestItem p keyColumns position n rows = liftExcept (nestColumn p.dialect keyColumns position n rows) := by
  obtain ⟨cte, limit⟩ := rows
  have column (cut : Option Nat) {result : Except Unsupported Sql.Expr}
      (built : p.dialect.nest (nestSource keyColumns position n cte cut) = result) :
      liftExcept (((p.dialect.nest (nestSource keyColumns position n cte cut)).mapError Fault.unsupported).map
        (Sql.SelectItem.named · n.name)) =
      (liftExcept ((result.mapError Fault.unsupported).map (Sql.SelectItem.named · n.name)) : PlanM _) := by rw [built]
  unfold nestItem nestColumn
  cases limit with
  | none =>
    simp only [pure_bind]
    split
    · next is => exact (column none is).symm
    · next is => exact (column none is).symm
  | some limit =>
    by_cases small : limit ≤ maxNestLimit
    · simp only [if_pos small, Option.all_some, decide_eq_true small, pure_bind]
      split
      · next is => exact (column (some limit) is).symm
      · next is => exact (column (some limit) is).symm
    · simp only [if_neg small, Option.all_some, decide_eq_false small]
      rfl

def joinOn (keyed : JoinPaths) (path : List String) (relation : Sql.Relation) (conditions : List Sql.Expr) :
    Sql.Join :=
  match allOf? conditions with
  | some condition => ⟨.left, aliased keyed path relation, some condition⟩
  | none => ⟨.cross, aliased keyed path relation, none⟩

def ungroupQuery (frame : Frame) (u : Ungroup) : Sql.Query :=
  { frame.query (parentItems u.partition ++ [.named u.value ungroupColumn]) with groupBy := u.partition }

def ungroupJoin (name : String) (u : Ungroup) : Sql.Join :=
  ⟨.left, ⟨.cte name, some u.label⟩, some ((allOf? (u.partition.zipIdx.map fun (key, i) =>
    Sql.Expr.nullSafeEq key (.ofTable u.label (parentKey i)))).getD (.literal (.bool true)))⟩

def rowsQuery (level : Level) (parts : LevelParts) (frame : Frame) (ungroups : List Sql.Join) : Sql.Query :=
  let query := frame.query (parentItems parts.keys ++ parts.items)
  { query with
    joins := query.joins ++ ungroups
    groupBy := if level.grouped then parts.keys ++ parts.dimensions.map Prod.snd else []
    having := allOf? parts.having }

def indexQuery (field : IndexField) (column weighed text : Sql.Expr) (frame : Frame) : Sql.Query :=
  { frame.query [.named (.string (dotted field.path)) "fieldPath", .named text "fieldValue",
      .named weighed "weight"] with
    groupBy := if indexesValues field.type then [column] else [] }

def levelItem (t : Target) (dimensions : List (String × Sql.Expr)) (column : ExprField × Bool) :
    CompileM Sql.SelectItem := do
  if column.2 then return .named (← t.compileRoot column.1.expr) column.1.name
  else
    match dimensions.lookup column.1.name with
    | some e => return .named e column.1.name
    | none => throw (.undefinedField column.1.name)

theorem levelItems_eq (t : Target) (dimensions : List (String × Sql.Expr)) (level : Level) :
    levelItems t dimensions level = level.columns.mapM (levelItem t dimensions) := rfl

section Inversions

variable {p : Planner} {t : Target} {c c' : Compilation} {s s' : Progress} {after : Compilation × Progress}

theorem planJoin_inv (run : Gives (planJoin p t path) (c, s) join after) :
    ∃ j conditions relation, t.tree.join path = .ok j ∧ Gives (joinConditions t path j) c conditions after.1 ∧
      Gives (sourceRelation p j.source none) s relation after.2 ∧
      join = joinOn after.1.keyed path relation conditions := by
  unfold planJoin at run
  rw [gives_compiling_bind] at run
  obtain ⟨j, mid, first, run⟩ := run
  obtain ⟨found, rfl⟩ := gives_ofExcept.mp first
  rw [gives_compiling_bind] at run
  obtain ⟨conditions, mid, compiled, run⟩ := run
  rw [gives_lift_bind] at run
  obtain ⟨relation, done, read, run⟩ := run
  rw [gives_compilation_bind] at run
  have planned : Gives (pure (joinOn mid.keyed path relation conditions) : RowsM _) (mid, done) join after := by
    unfold joinOn
    cases h : allOf? conditions <;> simpa only [h] using run
  obtain ⟨rfl, rfl⟩ := gives_pure.mp planned
  exact ⟨j, conditions, relation, found, compiled, read, rfl⟩

theorem planFrame_inv (run : Gives (planFrame p t input conditions) (c, s) frame after) : ∃ filters mid joins,
    Gives (input.filters.mapM fun f => RowsM.compiling (t.compileRoot f)) (c, s) filters mid ∧
      Gives (t.tree.ordered.mapM (planJoin p t)) mid joins after ∧
      frame = ⟨aliased after.1.keyed [] input.relation, joins, allOf? (filters ++ conditions)⟩ := by
  obtain ⟨filters, mid, first, run⟩ := gives_bind.mp run
  obtain ⟨joins, ⟨last, done'⟩, second, run⟩ := gives_bind.mp run
  rw [gives_compilation_bind, gives_pure] at run
  obtain ⟨rfl, same⟩ := run
  cases same
  exact ⟨filters, mid, joins, first, second, rfl⟩

theorem levelItem_inv (run : Gives (levelItem t dimensions column) c item c') : ∃ x, item = .named x column.1.name ∧
    if column.2 then Gives (t.compileRoot column.1.expr) c x c' else (column.1.name, x) ∈ dimensions ∧ c' = c := by
  unfold levelItem at run
  split at run
  · next measure =>
    obtain ⟨x, _, compiled, rest⟩ := gives_bind.mp run
    obtain ⟨rfl, rfl⟩ := gives_pure.mp rest
    exact ⟨x, rfl, by rwa [if_pos measure]⟩
  · next dimension =>
    split at run
    · next x found =>
      obtain ⟨rfl, rfl⟩ := gives_pure.mp run
      exact ⟨x, rfl, by rw [if_neg dimension]; exact ⟨mem_of_lookup found, rfl⟩⟩
    · exact (not_gives_throw run).elim

theorem levelParts_eq (t : Target) (parents filters : List Expr) (level : Level) : levelParts t parents filters level = do
    let keys ← parents.mapM t.compileRoot
    let dimensions ← level.dimensions.mapM fun f => do return (f.name, ← t.compileRoot f.expr)
    modify fun s => if level.grouped then { s with frame := some ⟨dimensions, keys⟩ } else s
    let items ← levelItems t dimensions level
    let having ← level.having.mapM t.compileRoot
    let conditions ← filters.mapM t.compileRoot
    return ⟨keys, dimensions, items, having, conditions⟩ := by
  unfold levelParts
  split <;> rfl

theorem planRows_inv (run : Gives (planRows p input parents inherited level) s query s') :
    ∃ tree parts c c' frame mid ungroups, treeFor input (level.exprs parents inherited) = .ok tree ∧
      Gives (levelParts ⟨p.dialect, tree⟩ parents (inherited ++ level.filters) level) .empty parts c ∧
      Gives (planFrame p ⟨p.dialect, tree⟩ input parts.conditions) (c, s) frame (c', mid) ∧
      Gives (c'.ungroups.mapM (planUngroup frame)) mid ungroups s' ∧
      query = rowsQuery level parts frame ungroups := by
  obtain ⟨tree, _, lifted, rest⟩ := gives_bind.mp run
  obtain ⟨isTree, rfl⟩ := gives_liftExcept.mp lifted
  obtain ⟨⟨⟨parts, frame⟩, c'⟩, mid, shared, rest⟩ := gives_bind.mp rest
  obtain ⟨ungroups, _, widened, rest⟩ := gives_bind.mp rest
  obtain ⟨rfl, rfl⟩ := gives_pure.mp rest
  change Gives (_ : RowsM (LevelParts × Frame)) (Compilation.empty, _) (parts, frame) (c', mid) at shared
  rw [gives_compiling_bind] at shared
  obtain ⟨_, c, compiled, shared⟩ := shared
  obtain ⟨_, _, framed, shared⟩ := gives_bind.mp shared
  obtain ⟨same, rfl⟩ := gives_pure.mp shared
  cases same
  exact ⟨tree, parts, c, c', frame, mid, ungroups, isTree, compiled, framed, widened, rfl⟩

theorem planIndexField_inv (run : Gives (planIndexField p input weight filters field) s query s') :
    ∃ tree column weighed conditions text c₁ c₂ c₃ c c' frame,
      treeFor input (.field field.path :: weight :: filters) = .ok tree ∧
      Gives (Target.compileRoot ⟨p.dialect, tree⟩ (.field field.path)) .empty column c₁ ∧
      Gives (Target.compileRoot ⟨p.dialect, tree⟩ weight) c₁ weighed c₂ ∧
      Gives (filters.mapM (Target.compileRoot ⟨p.dialect, tree⟩)) c₂ conditions c₃ ∧
      Gives (indexText p.dialect field.type column) c₃ text c ∧
      Gives (planFrame p ⟨p.dialect, tree⟩ input
        (conditions ++ if indexesValues field.type then [column.isNotNull] else [])) (c, s) frame (c', s') ∧
      query = indexQuery field column weighed text frame := by
  obtain ⟨tree, _, lifted, rest⟩ := gives_bind.mp run
  obtain ⟨isTree, rfl⟩ := gives_liftExcept.mp lifted
  obtain ⟨⟨⟨shared, column⟩, c'⟩, done, planned, rest⟩ := gives_bind.mp rest
  obtain ⟨rfl, rfl⟩ := gives_pure.mp rest
  change Gives (_ : RowsM (Sql.Query × Sql.Expr)) (Compilation.empty, _) (shared, column) (c', s') at planned
  rw [gives_compiling_bind] at planned
  obtain ⟨⟨_, items, conditions⟩, c, compiled, planned⟩ := planned
  obtain ⟨_, c₁, value, compiled⟩ := gives_bind.mp compiled
  obtain ⟨weighed, c₂, weighing, compiled⟩ := gives_bind.mp compiled
  obtain ⟨_, c₃, restricting, compiled⟩ := gives_bind.mp compiled
  obtain ⟨text, _, spelled, compiled⟩ := gives_bind.mp compiled
  obtain ⟨same, rfl⟩ := gives_pure.mp compiled
  cases same
  obtain ⟨frame, ⟨_, _⟩, framed, planned⟩ := gives_bind.mp planned
  obtain ⟨same, same'⟩ := gives_pure.mp planned
  cases same
  cases same'
  refine ⟨tree, column, weighed, conditions, text, c₁, c₂, c₃, c, c', frame, isTree, value, weighing, restricting, spelled,
    framed, ?_⟩
  unfold indexQuery
  split <;> rfl

end Inversions
/-- An input that a planner can read: its expressions compile, and so does what is behind its joins. -/
structure Input.Ready (p : Planner) (R : Namespace → Expr → Prop) (J : Namespace → Join → Prop)
    (input : Input) : Prop where
  dialect : p.dialect = .duckdb
  base : Base R J input.fields input.key
  filters : ∀ e ∈ input.filters, Planned R input.fields e
  drawn : ∀ {path parent name j inner}, Placed J input.fields path parent →
    parent.lookup? name = some (.join j) → J parent j → j.source.origin = .query inner → Succeeds (p.plan inner)

theorem duckdb_samples (relation : String) (sampling : Sampling) :
    ∃ text, Dialect.sample .duckdb relation sampling = .ok text := by
  unfold Dialect.sample
  cases Dialect.sampleSize .duckdb sampling <;> exact ⟨_, rfl⟩

theorem sourceRelation_ok (duck : p.dialect = .duckdb) (inner : ∀ q, s.origin = .query q → Succeeds (p.plan q))
    (sampled : sample.isSome = true → s.origin.isTable = true) : Succeeds (sourceRelation p s sample) := by
  unfold sourceRelation
  cases origin : s.origin with
  | table path connection =>
    cases sample with
    | none => exact .pure _
    | some sampling =>
      obtain ⟨text, drawn⟩ := duckdb_samples (Dialect.quoteTablePath .duckdb path) sampling
      simp only [duck, drawn]
      exact .pure _
  | query q =>
    cases sample with
    | none => exact .bind (inner q origin) fun query => .bind (.define _ query) fun _ => .pure _
    | some sampling => cases origin ▸ sampled rfl
  | sql block =>
    cases sample with
    | none => exact .pure _
    | some sampling => cases origin ▸ sampled rfl

section Rows

variable {p : Planner} {R : Namespace → Expr → Prop} {J : Namespace → Join → Prop} {input : Input}
  {tree : JoinTree}

theorem Input.Ready.casts (ready : input.Ready p R J) : p.dialect.conventions.safeCast.isSome = true := by
  rw [ready.dialect]
  rfl

section

variable (ready : input.Ready p R J) (spans : tree.Over J input.fields input.key)

include ready spans

theorem Input.Ready.compileRoot
    (planned : Planned R input.fields e) : Succeeds (Target.compileRoot ⟨p.dialect, tree⟩ e) := by
  obtain ⟨⟨l, level⟩, reached⟩ := planned
  unfold Target.compileRoot
  rw [spans.root_eq]
  exact Target.compileAt_ok ready.casts ready.base spans (.here _) level reached

theorem joinConditions_ok
    (placed : Placed J input.fields place parent) (found : parent.lookup? name = some (.join j))
    (holds : J parent j) : Succeeds (joinConditions ⟨p.dialect, tree⟩ (place ++ [name]) j) := by
  have placed' : Placed J input.fields (place ++ [name]) j.source.fields :=
    placed.append (.join found holds (.here _))
  obtain ⟨source, correlated⟩ := (ready.base.sound.within placed.within).joined found
  have condition {e : Expr} (is : j.correlation.condition? = some e)
      (level : e.level? (Names.of parent) = some .scalar) :
      Succeeds (Target.compileAt ⟨p.dialect, tree⟩ place parent e) :=
    Target.compileAt_ok ready.casts ready.base spans placed level (ready.base.closed.condition holds is)
  cases source with
  | mk fields origin _ key rows _ =>
    have filters : Succeeds (j.source.filters.mapM fun f =>
        Target.compileAt ⟨p.dialect, tree⟩ (place ++ [name]) j.source.fields f.expr) :=
      .mapM _ fun f mem => Target.compileAt_ok ready.casts ready.base spans placed' (rows f mem)
        (ready.base.closed.restriction holds mem)
    unfold joinConditions
    rw [dropLast_concat, ofExcept_bind (spans.fieldsAt placed)]
    unfold Join.Correlated at correlated
    cases h : j.correlation with
    | key e =>
      rw [h] at correlated
      obtain ⟨level, isKey⟩ := correlated
      obtain ⟨own, is⟩ := Option.isSome_iff_exists.mp isKey
      simp only [is]
      refine .bind (condition (by rw [h]; rfl) level) fun _ => ?_
      refine .bind (Target.scalarAt_ok ready.casts spans fields placed' ?_) fun _ => ?_
      · exact key own is
      · exact .bind (.pure _) fun _ => .bind filters fun _ => .pure _
    | on e =>
      rw [h] at correlated
      refine .bind (condition (by rw [h]; rfl) correlated) fun _ => ?_
      exact .bind (.pure _) fun _ => .bind filters fun _ => .pure _
    | free => exact .bind (.pure _) fun _ => .bind filters fun _ => .pure _

theorem planJoin_ok
    (used : path ∈ tree.used) : Succeeds (planJoin p ⟨p.dialect, tree⟩ path) := by
  obtain ⟨nonempty, inner, placed⟩ := spans.along path used
  obtain ⟨place, name, rfl⟩ := (eq_nil_or_concat' path).resolve_left nonempty
  obtain ⟨parent, j, before, found, holds, rfl⟩ := placed.last
  have relation : Succeeds (sourceRelation p j.source none) :=
    sourceRelation_ok ready.dialect (fun q origin => ready.drawn before found holds origin) nofun
  unfold planJoin
  rw [Succeeds.compiled_bind (spans.join before found)]
  refine .bind (.compiling (joinConditions_ok ready spans before found holds)) fun conditions => ?_
  refine .bind (.lift relation) fun _ => .bind .compilation fun _ => ?_
  cases allOf? conditions <;> exact .pure _

theorem planFrame_ok
    (conditions : List Sql.Expr) : Succeeds (planFrame p ⟨p.dialect, tree⟩ input conditions) := by
  refine .bind (.mapM _ fun e mem => .compiling (ready.compileRoot spans (ready.filters e mem))) fun _ => ?_
  refine .bind (.mapM _ fun path mem => planJoin_ok ready spans (tree.ordered_used mem)) fun _ => ?_
  exact .bind .compilation fun _ => .pure _

end

variable {level : Level}

theorem levelItems_ok (ready : input.Ready p R J) (spans : tree.Over J input.fields input.key)
    (columns : ∀ c ∈ level.columns, Planned R input.fields c.1.expr)
    (named : level.dimensions.map ExprField.name = dimensions.map Prod.fst) :
    Succeeds (levelItems ⟨p.dialect, tree⟩ dimensions level) := by
  refine .mapM _ fun (field, measure) mem => ?_
  cases measure with
  | true => exact .bind (ready.compileRoot spans (columns _ mem)) fun _ => .pure _
  | false =>
    have found : (dimensions.lookup field.name).isSome = true := by
      have mem := mem_map_of_mem (f := ExprField.name) (dimension_column.mpr mem)
      rw [named] at mem
      obtain ⟨d, mem, same⟩ := mem_map.mp mem
      exact lookup_isSome_iff.mpr ⟨d, mem, by simp [same]⟩
    obtain ⟨e, found⟩ := Option.isSome_iff_exists.mp found
    simp only [found]
    exact .pure _

theorem levelParts_ok (ready : input.Ready p R J) (spans : tree.Over J input.fields input.key)
    (outer : ∀ e ∈ parents, Planned R input.fields e) (rows : ∀ e ∈ filters, Planned R input.fields e)
    (own : level.All (Planned R input.fields)) : Succeeds (levelParts ⟨p.dialect, tree⟩ parents filters level) := by
  rw [levelParts_eq]
  refine .bind (.mapM _ fun e mem => ready.compileRoot spans (outer e mem)) fun keys => ?_
  have dimensions : Reaches (fun _ => True) (level.dimensions.mapM fun f => do
      return (f.name, ← Target.compileRoot ⟨p.dialect, tree⟩ f.expr))
      fun found => level.dimensions.map ExprField.name = found.map Prod.fst := by
    refine (Reaches.mapM (S := fun f d => f.name = d.1) level.dimensions fun f mem => ?_).weaken ?_
    · exact .bind (ready.compileRoot spans (own.columns (f, false) (dimension_column.mp mem))) fun _ _ => .pure rfl
    · intro found named
      rw [← forall₂_eq_eq_eq, forall₂_map_left_iff, forall₂_map_right_iff]
      exact named
  refine Reaches.bind dimensions fun found named => Succeeds.bind (.modify _) fun _ => ?_
  refine .bind (levelItems_ok ready spans own.columns named) fun _ => ?_
  refine .bind (.mapM _ fun e mem => ready.compileRoot spans (own.groups e mem)) fun _ => ?_
  exact .bind (.mapM _ fun e mem => ready.compileRoot spans (rows e mem)) fun _ => .pure _

theorem planRows_ok (ready : input.Ready p R J) (outer : ∀ e ∈ parents, Planned R input.fields e)
    (kept : ∀ e ∈ inherited, Planned R input.fields e) (own : level.All (Planned R input.fields)) :
    Succeeds (planRows p input parents inherited level) := by
  have reads : ∀ e ∈ input.filters ++ level.exprs parents inherited, Planned R input.fields e :=
    forall_mem_append.mpr ⟨ready.filters, own.exprs outer kept⟩
  obtain ⟨tree, isTree, spans⟩ := treeFor_ok ready.base.closed ready.base.sound reads
  rw [Level.exprs] at isTree
  unfold planRows
  rw [liftExcept_bind isTree]
  have plan : Succeeds (do
      let parts ← RowsM.compiling (levelParts ⟨p.dialect, tree⟩ parents (inherited ++ level.filters) level)
      let frame ← planFrame p ⟨p.dialect, tree⟩ input parts.conditions
      return (parts, frame)) := by
    refine .bind (.compiling (levelParts_ok ready spans outer (forall_mem_append.mpr ⟨kept, own.rows⟩) own)) fun parts => ?_
    exact .bind (planFrame_ok ready spans _) fun _ => .pure _
  refine .bind (plan.rows .empty) fun result => .bind (.mapM _ fun u _ => ?_) fun _ => .pure _
  exact .bind (.define _ _) fun _ => .pure _

theorem indexText_ok (duck : p.dialect = .duckdb) (type : AtomicType) (column : Sql.Expr) :
    Succeeds (indexText p.dialect type column) := by
  have text (e : Sql.Expr) : Succeeds (asText p.dialect e) := by
    exact .ofExcept rfl
  unfold indexText
  split
  · exact text _
  · exact .bind (text _) fun _ => .bind (text _) fun _ => .pure _

theorem planIndexField_ok (ready : input.Ready p R J) (value : Planned R input.fields (.field field.path))
    (weighed : Planned R input.fields weight) (rows : ∀ e ∈ filters, Planned R input.fields e) :
    Succeeds (planIndexField p input weight filters field) := by
  have reads : ∀ e ∈ input.filters ++ (.field field.path :: weight :: filters), Planned R input.fields e := by
    intro e mem
    rcases mem_append.mp mem with mem | mem
    · exact ready.filters e mem
    · rcases mem_cons.mp mem with rfl | mem
      · exact value
      · exact (mem_cons.mp mem).elim (fun same => same ▸ weighed) (rows e)
  obtain ⟨tree, isTree, spans⟩ := treeFor_ok ready.base.closed ready.base.sound reads
  unfold planIndexField
  rw [liftExcept_bind isTree]
  refine .bind (.rows (.bind (.compiling ?_) fun _ => ?_) .empty) fun _ => ?_
  · refine .bind (ready.compileRoot spans value) fun _ => .bind (ready.compileRoot spans weighed) fun _ => ?_
    refine .bind (.mapM _ fun e mem => ready.compileRoot spans (rows e mem)) fun _ => ?_
    exact .bind (indexText_ok ready.dialect _ _) fun _ => .pure _
  · exact .bind (planFrame_ok ready spans _) fun _ => .pure _
  · exact .pure _

theorem planIndex_ok (ready : input.Ready p R J) (nonempty : fields ≠ [])
    (values : ∀ f ∈ fields, Planned R input.fields (.field f.path))
    (weighed : Planned R input.fields (weight.getD standardWeight))
    (rows : ∀ f ∈ r.filters, Planned R input.fields f.expr) : Succeeds (planIndex p input fields weight r) := by
  unfold planIndex
  rw [if_neg (by simpa using nonempty)]
  refine .bind (.mapM _ fun f mem => ?_) fun parts => ?_
  · refine planIndexField_ok ready (values f mem) weighed fun e isFilter => ?_
    obtain ⟨filter, given, rfl⟩ := mem_map.mp isFilter
    exact rows filter given
  · exact .bind (.define _ _) fun _ => .pure _

end Rows

end SemanticLayer.Plan
