import SemanticLayer.Location
import SemanticLayer.Fault
import SemanticLayer.Model.Sampling
import SemanticLayer.Model.Schema

/-!
Stages of a query. The output of a stage is its fields in order, and the next stage reads them as plain
columns.
-/
namespace SemanticLayer

structure ExprField where
  name : String
  expr : Expr
  type : AtomicType
  location : Location

structure Filter where
  expr : Expr
  location : Location

structure OrderBy where
  field : String
  direction : SortDirection
  deriving DecidableEq, Repr

structure IndexField where
  path : List String
  type : AtomicType
  deriving DecidableEq, Repr

structure Restriction where
  filters : List Filter
  limit : Option Nat
  sample : Option Sampling

mutual

inductive Stage where
  | reduce (fields : List OutputField) (having : List Filter) (orderBy : List OrderBy)
      (restriction : Restriction)
  | project (fields : List OutputField) (orderBy : List OrderBy) (restriction : Restriction)
  /-- One row per value of each field, weighted by an aggregate, or by the number of rows. -/
  | index (fields : List IndexField) (weight : Option Expr) (restriction : Restriction)

inductive OutputField where
  | dimension (field : ExprField)
  | measure (field : ExprField)
  | nest (nest : Nest)

structure Nest where
  name : String
  stages : List Stage
  location : Location

end

namespace OutputField

def name : OutputField → String
  | dimension f | measure f => f.name
  | nest n => n.name

def location : OutputField → Location
  | dimension f | measure f => f.location
  | nest n => n.location

def isNest : OutputField → Bool
  | nest _ => true
  | _ => false

end OutputField

def indexSchema : List ResultField :=
  [.atomic "fieldPath" .string, .atomic "fieldValue" .string, .atomic "weight" .number]

mutual

def Stage.outputSchema : Stage → List ResultField
  | .reduce fields _ _ _ => outputFieldSchemas fields
  | .project fields _ _ => outputFieldSchemas fields
  | .index _ _ _ => indexSchema

def OutputField.resultField : OutputField → ResultField
  | .dimension f => .atomic f.name f.type
  | .measure f => .atomic f.name f.type
  | .nest n => Nest.resultField n

def Nest.resultField : Nest → ResultField
  | ⟨name, stages, _⟩ => ⟨name, .repeated (pipelineSchema stages)⟩

def outputFieldSchemas : List OutputField → List ResultField
  | [] => []
  | f :: rest => OutputField.resultField f :: outputFieldSchemas rest

def pipelineSchema : List Stage → List ResultField
  | [] => []
  | [stage] => Stage.outputSchema stage
  | _ :: rest => pipelineSchema rest

end

namespace Stage

def kind : Stage → StageKind
  | reduce .. => .reduce
  | project .. => .project
  | index .. => .index

def restriction : Stage → Restriction
  | reduce _ _ _ r => r
  | project _ _ r => r
  | index _ _ r => r

def filters (s : Stage) : List Filter := s.restriction.filters

def sample (s : Stage) : Option Sampling := s.restriction.sample

end Stage

end SemanticLayer
