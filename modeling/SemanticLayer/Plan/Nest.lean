import SemanticLayer.Plan.Level

/-!
Nested results. The rows of a level with nests become a query of their own; a second one reads them back
and adds a column for each nest. The rows of a nest are computed from the input of the stage, grouped by
the keys of all enclosing rows, and numbered within each enclosing row. Each later stage of a nest reads
the numbered rows of the stage before it.
-/
namespace SemanticLayer.Plan

def rowNumberColumn : String := "__row_number"

def rowsAlias : String := "__r"

/-- What a nest is planned against: the input of the stage, the keys of the enclosing rows and the filters
of the enclosing levels. -/
structure Enclosure where
  input : Input
  parents : List Expr
  inherited : List Expr

namespace Enclosure

def ofInput (input : Input) : Enclosure := ⟨input, [], []⟩

def within (e : Enclosure) (level : Level) : Enclosure :=
  { e with
    parents := e.parents ++ level.dimensions.map ExprField.expr
    inherited := e.inherited ++ level.filters }

def keyColumns (e : Enclosure) (level : Level) : List String :=
  (List.range e.parents.length).map parentKey ++ level.dimensions.map ExprField.name

end Enclosure

structure NestRows where
  cte : String
  limit : Option Nat

def maxNestLimit : Nat := 0x7FFFFFFFFFFFFFFF

def nestItem (p : Planner) (keyColumns : List String) (position : Nat) (nest : Nest) (rows : NestRows) :
    PlanM Sql.SelectItem := do
  let label := s!"__n{position}"
  let matched := keyColumns.zipIdx.map fun (column, i) =>
    Sql.Expr.nullSafeEq (.ofTable label (parentKey i)) (.ofTable rowsAlias column)
  let cut ← match rows.limit with
    | none => pure []
    | some limit =>
      if limit ≤ maxNestLimit then
        pure [operation .lte (.ofTable label rowNumberColumn) (.int limit)]
      else throw (.stage (.nestLimit nest.name limit))
  let source : Dialect.NestSource :=
    { cte := rows.cte, label, fields := (pipelineSchema nest.stages).map ResultField.name
      predicate := allOf? (matched ++ cut), orderColumn := rowNumberColumn }
  match p.dialect.nest source with
  | .ok e => return .named e nest.name
  | .error reason => throw (.unsupported reason)

/-- The input of a later stage of a nest: the numbered rows of the stage before it, cut to its limit. -/
def chainedInput (cte : String) (parents : Nat) (previous : Stage) (location : Location) : Input :=
  let columns := (List.range parents).map (fun i => ResultField.atomic (parentKey i) .null) ++
    previous.outputSchema ++ [.atomic rowNumberColumn .number]
  let filters := match previous.restriction.limit with
    | some limit => [Expr.binary .lte (.field [rowNumberColumn]) (.number (toString limit))]
    | none => []
  { Input.ofCte cte columns location with filters }

def chainedKeys (parents : Nat) : List Expr := (List.range parents).map fun i => .field [parentKey i]

def planCollect (p : Planner) (e : Enclosure) (level : Level)
    (columns : PlanM (List Sql.SelectItem)) : PlanM Sql.Query := do
  let rows ← define "rows" (← planRows p e.input e.parents e.inherited level)
  let keys := (List.range e.parents.length).map fun i =>
    Sql.SelectItem.named (.ofTable rowsAlias (parentKey i)) (parentKey i)
  return { Sql.Query.empty with
    items := keys ++ (← columns), source := some ⟨.cte rows, some rowsAlias⟩ }

def defineNumbered (p : Planner) (e : Enclosure) (level : Level) (rows : Sql.Query) : PlanM String := do
  let partition := (List.range e.parents.length).map fun i => Sql.Expr.ofTable rowsAlias (parentKey i)
  let number := Sql.Expr.rowNumber partition (orderTerms p.dialect (.ofTable rowsAlias) level.orderBy)
  define "nest" { rows with items := rows.items ++ [.named number rowNumberColumn] }

mutual

def planColumns (p : Planner) (e : Enclosure) (level : Level) (position : Nat) :
    List OutputField → PlanM (List Sql.SelectItem)
  | [] => pure []
  | field :: rest => do
    let item ← planColumn p e level position field
    return item :: (← planColumns p e level (position + 1) rest)

def planColumn (p : Planner) (e : Enclosure) (level : Level) (position : Nat) :
    OutputField → PlanM Sql.SelectItem
  | .dimension f => pure (.named (.ofTable rowsAlias f.name) f.name)
  | .measure f => pure (.named (.ofTable rowsAlias f.name) f.name)
  | .nest nest => do
    let rows ← planNest p (e.within level) nest
    nestItem p (e.keyColumns level) position nest rows

def planNest (p : Planner) (e : Enclosure) : Nest → PlanM NestRows
  | ⟨name, stages, location⟩ =>
    match stages with
    | [] => throw (.stage (.emptyNest name))
    | first :: rest => do
      let rows ← planNestStage p e name first
      planNestStages p e.parents.length name location first rows rest

def planNestStages (p : Planner) (parents : Nat) (name : String) (location : Location)
    (previous : Stage) (rows : NestRows) : List Stage → PlanM NestRows
  | [] => pure rows
  | stage :: rest => do
    let input := chainedInput rows.cte parents previous location
    let rows ← planNestStage p ⟨input, chainedKeys parents, []⟩ name stage
    planNestStages p parents name location stage rows rest

def planNestStage (p : Planner) (e : Enclosure) (name : String) : Stage → PlanM NestRows
  | .reduce fields having orderBy r => do
    let level := Level.ofReduce fields having orderBy r
    let rows ← planCollect p e level (planColumns p e level 0 fields)
    return ⟨← defineNumbered p e level rows, r.limit⟩
  | .project fields orderBy r => do
    let level := Level.ofProject fields orderBy r
    let rows ← planCollect p e level (planColumns p e level 0 fields)
    return ⟨← defineNumbered p e level rows, r.limit⟩
  | .index _ _ _ => throw (.stage (.indexAsNest name))

end

def planLevel (p : Planner) (input : Input) (level : Level) : PlanM Sql.Query := do
  let e := Enclosure.ofInput input
  let query ← if level.hasNests then planCollect p e level (planColumns p e level 0 level.fields)
    else planRows p input [] [] level
  return { query with
    orderBy := orderTerms p.dialect .ofColumn level.orderBy, limit := level.limit }

end SemanticLayer.Plan
