import SemanticLayer.Plan.Basic

/-!
Levels: a stage that groups or lists rows, or such a stage inside a nest. The rows of a level come from one
`SELECT` over the input of its stage, grouped by the keys of the enclosing rows and by its dimensions.
-/
namespace SemanticLayer.Plan

structure Level where
  fields : List OutputField
  filters : List Expr
  having : List Expr
  orderBy : List OrderBy
  limit : Option Nat
  grouped : Bool

namespace Level

def ofReduce (fields : List OutputField) (having : List Filter) (orderBy : List OrderBy)
    (r : Restriction) : Level :=
  ⟨fields, r.filters.map Filter.expr, having.map Filter.expr, orderBy, r.limit, true⟩

def ofProject (fields : List OutputField) (orderBy : List OrderBy) (r : Restriction) : Level :=
  ⟨fields, r.filters.map Filter.expr, [], orderBy, r.limit, false⟩

def columns (l : Level) : List (ExprField × Bool) :=
  l.fields.filterMap fun
    | .dimension f => some (f, false)
    | .measure f => some (f, true)
    | .nest _ => none

def dimensions (l : Level) : List ExprField :=
  l.fields.filterMap fun
    | .dimension f => some f
    | _ => none

def hasNests (l : Level) : Bool := l.fields.any OutputField.isNest

end Level

def parentKey (i : Nat) : String := s!"__p{i}"

def parentItems (keys : List Sql.Expr) : List Sql.SelectItem :=
  keys.zipIdx.map fun (key, i) => .named key (parentKey i)

def planUngroup (frame : Frame) (u : Ungroup) : PlanM Sql.Join := do
  let items := parentItems u.partition ++ [.named u.value ungroupColumn]
  let name ← define "ungroup" { frame.query items with groupBy := u.partition }
  let matched := u.partition.zipIdx.map fun (key, i) =>
    Sql.Expr.nullSafeEq key (.ofTable u.label (parentKey i))
  return ⟨.left, ⟨.cte name, some u.label⟩, some ((allOf? matched).getD (.literal (.bool true)))⟩

def levelItems (t : Target) (dimensions : List (String × Sql.Expr)) (level : Level) :
    CompileM (List Sql.SelectItem) :=
  level.columns.mapM fun (field, measure) => do
    if measure then return .named (← t.compileRoot field.expr) field.name
    else
      match dimensions.lookup field.name with
      | some e => return .named e field.name
      | none => throw (.undefinedField field.name)

structure LevelParts where
  keys : List Sql.Expr
  dimensions : List (String × Sql.Expr)
  items : List Sql.SelectItem
  having : List Sql.Expr
  conditions : List Sql.Expr

def levelParts (t : Target) (parents filters : List Expr) (level : Level) : CompileM LevelParts := do
  let keys ← parents.mapM t.compileRoot
  let dimensions ← level.dimensions.mapM fun f => do return (f.name, ← t.compileRoot f.expr)
  if level.grouped then modify fun s => { s with frame := some ⟨dimensions, keys⟩ }
  let items ← levelItems t dimensions level
  let having ← level.having.mapM t.compileRoot
  let conditions ← filters.mapM t.compileRoot
  return ⟨keys, dimensions, items, having, conditions⟩

/-- The rows of a level: the keys of the enclosing rows, then the columns of the level. `inherited` are
the filters of the enclosing levels. -/
def planRows (p : Planner) (input : Input) (parents inherited : List Expr) (level : Level) :
    PlanM Sql.Query := do
  let filters := inherited ++ level.filters
  let tree ← liftExcept (treeFor input
    (parents ++ level.columns.map (fun (f, _) => f.expr) ++ filters ++ level.having))
  let target : Target := ⟨p.dialect, tree⟩
  let plan : RowsM (LevelParts × Frame) := do
    let parts ← RowsM.compiling (levelParts target parents filters level)
    let frame ← planFrame p target input parts.conditions
    return (parts, frame)
  let ((parts, frame), compilation) ← plan.run .empty
  let ungroups ← compilation.ungroups.mapM (planUngroup frame)
  let query := frame.query (parentItems parts.keys ++ parts.items)
  return { query with
    joins := query.joins ++ ungroups
    groupBy := if level.grouped then parts.keys ++ parts.dimensions.map Prod.snd else []
    having := allOf? parts.having }

end SemanticLayer.Plan
