import SemanticLayer.Plan.Index
import SemanticLayer.Plan.Nest

/-!
The SQL statement of a query. Every stage but the last becomes a query of the `WITH` list that the next
stage reads.
-/
namespace SemanticLayer

mutual

def Query.depth : Query → Nat
  | ⟨_, source, _, _⟩ => Source.depth source + 1

def Source.depth : Source → Nat
  | ⟨_, origin, ⟨entries⟩, _, _, _⟩ => max (Origin.depth origin) (slotsDepth entries)

def Origin.depth : Origin → Nat
  | .query query => Query.depth query
  | _ => 0

def slotsDepth : List (Slot FieldDef) → Nat
  | [] => 0
  | ⟨_, field, _⟩ :: rest => max (FieldDef.depth field) (slotsDepth rest)

def FieldDef.depth : FieldDef → Nat
  | .join join => Join.depth join
  | _ => 0

def Join.depth : Join → Nat
  | ⟨_, _, source, _, _⟩ => Source.depth source

end

namespace Plan

def planStage (p : Planner) (input : Input) (stage : Stage) : PlanM Sql.Query :=
  match stage with
  | .index fields weight r => planIndex p input fields weight r
  | .reduce fields having orderBy r => planLevel p input (.ofReduce fields having orderBy r)
  | .project fields orderBy r => planLevel p input (.ofProject fields orderBy r)

def planStages (p : Planner) (location : Location) (input : Input) : List Stage → PlanM Sql.Query
  | [] => throw (.stage .noStages)
  | [last] => planStage p input last
  | stage :: rest => do
    let name ← define "stage" (← planStage p input stage)
    planStages p location (.ofCte name stage.outputSchema location) rest

def planPipeline (p : Planner) (query : Query) : PlanM Sql.Query :=
  match query.stages with
  | [] => throw (.stage .noStages)
  | first :: rest => do
    let input ← sourceInput p query.source first.sample
    planStages p query.location input (first :: rest)

def planWithin (d : Dialect) : Nat → Query → PlanM Sql.Query
  | 0, _ => throw (.stage .noStages)
  | depth + 1, query => planPipeline ⟨d, planWithin d depth⟩ query

end Plan

/-- The statement of a query. `limit` bounds its rows where the query sets no bound itself. -/
def Query.plan (d : Dialect) (limit : Option Nat) (query : Query) : Except Fault Sql.Query := do
  let (select, progress) ← (Plan.planWithin d query.depth query).run ⟨[], 0⟩
  return { select with ctes := progress.ctes, limit := select.limit.or limit }

end SemanticLayer
