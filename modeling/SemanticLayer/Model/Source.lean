import SemanticLayer.Model.Slots
import SemanticLayer.Model.Stage

/-!
Sources, their fields, and queries over them.
-/
namespace SemanticLayer

structure View where
  name : String
  stages : List Stage
  location : Location

inductive Correlation where
  | key (expr : Expr)
  /-- A condition over the parent, which sees the joined source as one of its joins. -/
  | on (expr : Expr)
  | free

structure SqlBlock where
  name : String
  connection : Option String
  select : String
  schema : TableSchema
  location : Location

def SqlBlock.key (b : SqlBlock) : String := schemaKey b.connection b.name

mutual

inductive FieldDef where
  | dimension (field : ExprField)
  | measure (field : ExprField)
  | join (join : Join)
  | view (view : View)
  /-- A repeated column of a query's result, of which only its presence is known. -/
  | nested (field : ResultField) (location : Location)

structure Join where
  name : String
  relationship : JoinKind
  source : Source
  correlation : Correlation
  location : Location

inductive Origin where
  | table (path : String) (connection : Option String)
  | query (query : Query)
  | sql (block : SqlBlock)

structure Source where
  name : String
  origin : Origin
  fields : Slots FieldDef
  primaryKey : Option String
  filters : List Filter
  location : Location

structure Query where
  name : Option String
  source : Source
  stages : List Stage
  location : Location

end

abbrev Namespace := Slots FieldDef

namespace FieldDef

def name : FieldDef → String
  | dimension f | measure f => f.name
  | join j => j.name
  | view v => v.name
  | nested f _ => f.name

def kind : FieldDef → FieldKind
  | dimension _ => .dimension
  | measure _ => .measure
  | join _ => .join
  | view _ => .view
  | nested _ _ => .nestedResult

def location : FieldDef → Location
  | dimension f | measure f => f.location
  | join j => j.location
  | view v => v.location
  | nested _ l => l

def join? : FieldDef → Option Join
  | join j => some j
  | _ => none

def isJoin (f : FieldDef) : Bool := f.join?.isSome

def ofColumn (name : String) (type : AtomicType) (location : Location) : FieldDef :=
  .dimension ⟨name, .column name, type, location⟩

def ofResult (location : Location) (field : ResultField) : FieldDef :=
  match field.type with
  | .atomic type => ofColumn field.name type location
  | .repeated _ => .nested field location

end FieldDef

def Origin.isTable : Origin → Bool
  | .table _ _ => true
  | _ => false

mutual

def Origin.connection : Origin → Option String
  | .table _ connection => connection
  | .query query => Query.connection query
  | .sql block => block.connection

def Source.connection : Source → Option String
  | ⟨_, origin, _, _, _, _⟩ => Origin.connection origin

def Query.connection : Query → Option String
  | ⟨_, source, _, _⟩ => Source.connection source

end

def Query.outputSchema (q : Query) : List ResultField := pipelineSchema q.stages

namespace Namespace

def ofColumns (columns : TableSchema) (location : Location) : Namespace :=
  Slots.ofList (columns.map fun c => (c.name, .ofColumn c.name c.type location))

def ofResult (fields : List ResultField) (location : Location) : Namespace :=
  Slots.ofList (fields.map fun f => (f.name, .ofResult location f))

end Namespace

structure Resolved where
  joinPath : List String
  relationships : List JoinKind
  owner : Namespace
  field : FieldDef

namespace Resolved

def crossesMany (r : Resolved) : Bool := r.relationships.any JoinKind.isMany

def under (join : Join) (name : String) (r : Resolved) : Resolved :=
  { r with joinPath := name :: r.joinPath, relationships := join.relationship :: r.relationships }

end Resolved

namespace Namespace

/-- Walks a path: every name but the last is a join. `walked` holds the names before the path, for
messages; `find` says which fields of a namespace are seen. -/
def resolveWith (find : Namespace → String → Option FieldDef) (walked : List String)
    (ns : Namespace) : List String → Except Fault Resolved
  | [] => .error (.undefinedField "")
  | [last] =>
    match find ns last with
    | some field => .ok ⟨[], [], ns, field⟩
    | none => .error (.undefinedField (dotted (walked ++ [last])))
  | name :: rest =>
    match find ns name with
    | none => .error (.undefinedField (dotted (walked ++ [name])))
    | some (.join join) =>
      (resolveWith find (walked ++ [name]) join.source.fields rest).map (Resolved.under join name)
    | some field => .error (.wrongFieldKind (dotted (walked ++ [name])) field.kind [.join])

def resolve (ns : Namespace) (path : List String) : Except Fault Resolved :=
  resolveWith Slots.get? [] ns path

/-- The field that a path of a built definition names, hidden or not. -/
def resolveDefined (ns : Namespace) (path : List String) : Except Fault Resolved :=
  resolveWith Slots.lookup? [] ns path

end Namespace

mutual

def FieldDef.size : FieldDef → Nat
  | .join join => Join.size join + 1
  | _ => 1

def Join.size : Join → Nat
  | ⟨_, _, source, _, _⟩ => Source.size source

def Source.size : Source → Nat
  | ⟨_, _, ⟨entries⟩, _, _, _⟩ => slotsSize entries

def slotsSize : List (Slot FieldDef) → Nat
  | [] => 0
  | ⟨_, field, _⟩ :: rest => FieldDef.size field + slotsSize rest

end

def Namespace.size (ns : Namespace) : Nat := slotsSize ns.entries

end SemanticLayer
