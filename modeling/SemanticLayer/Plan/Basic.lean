import SemanticLayer.Dialect.Nest
import SemanticLayer.Dialect.Sample
import SemanticLayer.Plan.Expr
import SemanticLayer.Text.Blank

/-!
What planning one statement carries along: the queries of its `WITH` list, and a counter by which they are
named. A stage reads an input: a relation with fields, a key and filters.
-/
namespace SemanticLayer.Plan

structure Progress where
  ctes : List Sql.Cte
  counter : Nat

abbrev PlanM := StateT Progress (Except Fault)

def define (stem : String) (query : Sql.Query) : PlanM String := do
  let progress ← get
  let name := s!"__{stem}{progress.counter}"
  set (⟨progress.ctes ++ [⟨name, query⟩], progress.counter + 1⟩ : Progress)
  return name

structure Planner where
  dialect : Dialect
  plan : Query → PlanM Sql.Query

structure Input where
  relation : Sql.Relation
  fields : Namespace
  key : Option String
  filters : List Expr

def Input.ofCte (name : String) (fields : List ResultField) (location : Location) : Input :=
  ⟨.cte name, .ofResult fields location, none, []⟩

def sourceRelation (p : Planner) (source : Source) (sample : Option Sampling) : PlanM Sql.Relation :=
  match source.origin, sample with
  | .table path _, none => return .table path
  | .table path _, some sampling =>
    match p.dialect.sample (p.dialect.quoteTablePath path) sampling with
    | .ok text => return .raw text
    | .error reason => throw (.unsupported reason)
  | .query query, none => do return .cte (← define "source" (← p.plan query))
  | .sql block, none => return .raw (Text.trimmed block.select)
  | _, some _ => throw (.stage (.sampledSource source.name))

def sourceInput (p : Planner) (source : Source) (sample : Option Sampling) : PlanM Input := do
  return ⟨← sourceRelation p source sample, source.fields, source.primaryKey,
    source.filters.map Filter.expr⟩

def treeFor (input : Input) (exprs : List Expr) : Except Fault JoinTree := do
  let tree ← (input.filters ++ exprs).foldlM JoinTree.read (.ofRoot input.fields input.key)
  tree.close

abbrev RowsM := StateT Compilation PlanM

def RowsM.compiling (action : CompileM α) : RowsM α := fun s =>
  match action.run.run s with
  | (.ok a, s) => pure (a, s)
  | (.error fault, _) => throw fault

structure Frame where
  source : Sql.TableRef
  joins : List Sql.Join
  condition : Option Sql.Expr

def Frame.query (f : Frame) (items : List Sql.SelectItem) : Sql.Query :=
  { Sql.Query.empty with
    items, source := some f.source, joins := f.joins, condition := f.condition }

def withKey (relation : Sql.Relation) : Sql.Relation :=
  .subquery
    { Sql.Query.empty with
      items := [⟨.star (some "__keyed"), none⟩, .named Dialect.distinctKey distinctKeyColumn]
      source := some ⟨relation, some "__keyed"⟩ }

/-- The relation at a path under its alias, with a generated key where one is needed. -/
def aliased (keyed : JoinPaths) (path : List String) (relation : Sql.Relation) : Sql.TableRef :=
  ⟨if keyed.contains path then withKey relation else relation, some (aliasOf path)⟩

def joinConditions (t : Target) (path : List String) (join : Join) : CompileM (List Sql.Expr) := do
  let parent := path.dropLast
  let parentFields ← CompileM.ofExcept (t.tree.fieldsAt parent)
  let correlation ← match join.correlation with
    | .key e =>
      match join.source.primaryKey with
      | none => throw (.stage (.joinWithoutKey join.name join.source.name))
      | some key => do
        let left ← t.compileAt parent parentFields e
        let right ← t.compileAt path join.source.fields (.field [key])
        pure [operation .eq left right]
    | .on e => do pure [← t.compileAt parent parentFields e]
    | .free => pure []
  let filters ← join.source.filters.mapM fun f => t.compileAt path join.source.fields f.expr
  return correlation ++ filters

/-- The join at a path. Without any condition it is a cross join. -/
def planJoin (p : Planner) (t : Target) (path : List String) : RowsM Sql.Join := do
  let join ← RowsM.compiling (CompileM.ofExcept (t.tree.join path))
  let conditions ← RowsM.compiling (joinConditions t path join)
  let relation ← sourceRelation p join.source none
  let table := aliased (← get).keyed path relation
  match allOf? conditions with
  | some condition => return ⟨.left, table, some condition⟩
  | none => return ⟨.cross, table, none⟩

def planFrame (p : Planner) (t : Target) (input : Input) (conditions : List Sql.Expr) : RowsM Frame := do
  let filters ← input.filters.mapM fun f => RowsM.compiling (t.compileRoot f)
  let joins ← t.tree.ordered.mapM (planJoin p t)
  return ⟨aliased (← get).keyed [] input.relation, joins, allOf? (filters ++ conditions)⟩

def orderTerms (d : Dialect) (column : String → Sql.Expr) (orderBy : List OrderBy) :
    List Sql.OrderTerm :=
  orderBy.map fun o =>
    match o.direction with
    | .asc => .asc (column o.field)
    | .desc => ⟨column o.field, .desc, if d.conventions.nullsOrdering then some .last else none⟩

end SemanticLayer.Plan
