import SemanticLayer.Catalog
import SemanticLayer.Elaborate.Stage
import SemanticLayer.Model.Basic

/-!
Sources and the queries over them. The body of a refinement is elaborated in passes: inherited fields
are reshaped, names are claimed, joins are built, then fields, join conditions and filters are resolved
in any order they need one another, and last come the views. All faults of a body are found; the first
one is its own, the others are reported beside it.
-/
namespace SemanticLayer.Elaborate

structure Surroundings where
  url : String
  catalog : Catalog
  entities : List (String × Entity)
  invalid : List (String × Diagnostic)
  /-- The source that the statement defines; a join that leads back to it closes a cycle. -/
  building : Option String

abbrev BuildM := ReaderT Surroundings (ExceptT LocatedFault (StateM (List Diagnostic)))

namespace BuildM

def location (span : Span) : BuildM Location := do return ⟨(← read).url, span⟩

def fail (span : Span) (fault : Fault) : BuildM α := do throw ⟨fault, ← location span⟩

def located (span : Span) (result : Except Fault α) : BuildM α :=
  match result with
  | .ok a => pure a
  | .error fault => fail span fault

def attempt (action : BuildM α) : BuildM (Except LocatedFault α) := fun surroundings =>
  ExceptT.lift (action surroundings).run

/-- Reports a fault, unless it only echoes one that has been reported. -/
def report (f : LocatedFault) : BuildM Unit :=
  if f.fault.isCascade then pure () else modify (· ++ [f.diagnostic])

def settle : List LocatedFault → BuildM Unit
  | [] => pure ()
  | first :: rest => do
    rest.forM report
    throw first

end BuildM

inductive FieldRole where
  | dimension | measure
  | inferred
  deriving DecidableEq

inductive Declaration where
  | field (decl : Document.FieldDecl) (role : FieldRole)
  | join (decl : Document.JoinDecl) (source : BuildM Source)
  | view (decl : Document.ViewDecl)

namespace Declaration

def name : Declaration → Document.Name
  | field decl _ => decl.name
  | join decl _ => decl.name
  | view decl => decl.name

def isJoin : Declaration → Bool
  | join _ _ => true
  | _ => false

def field? : Declaration → Option (Document.FieldDecl × FieldRole)
  | field decl role => some (decl, role)
  | _ => none

def view? : Declaration → Option Document.ViewDecl
  | view decl => some decl
  | _ => none

end Declaration

def faults (outcomes : List (Except LocatedFault α)) : List LocatedFault :=
  outcomes.filterMap fun
    | .error fault => some fault
    | .ok _ => none

def values (outcomes : List (Except LocatedFault α)) : List α :=
  outcomes.filterMap fun
    | .error _ => none
    | .ok value => some value

def listed (url : String) (fields : Namespace) (names : List Document.Name) :
    List String × List LocatedFault :=
  (names.filterMap fun name => if fields.contains name.node then some name.node else none,
    names.filterMap fun name =>
      if fields.contains name.node then none
      else some ⟨.undefinedField name.node, ⟨url, name.span⟩⟩)

def renameOne (url : String) (fields : Namespace) (r : Document.RenameDecl) :
    Namespace × List LocatedFault :=
  if !fields.contains r.oldName.node then
    (fields, [⟨.undefinedField r.oldName.node, ⟨url, r.oldName.span⟩⟩])
  else if fields.defines r.newName.node then
    (fields, [⟨.duplicateName r.newName.node, ⟨url, r.newName.span⟩⟩])
  else (fields.rename r.oldName.node r.newName.node, [])

def reshapeBy (url : String) (fields : Namespace) : Document.SourceProperty → Namespace × List LocatedFault
  | .accept names =>
    let (found, faults) := listed url fields names
    (fields.restrict fun name => found.contains name, faults)
  | .except names =>
    let (found, faults) := listed url fields names
    (fields.restrict fun name => !found.contains name, faults)
  | .rename renames =>
    renames.foldl (fun (fields, faults) r =>
      let (fields, more) := renameOne url fields r
      (fields, faults ++ more)) (fields, [])
  | _ => (fields, [])

def reshape (url : String) (fields : Namespace) (body : List Document.SourceProperty) :
    Namespace × List LocatedFault :=
  body.foldl (fun (fields, faults) property =>
    let (fields, more) := reshapeBy url fields property
    (fields, faults ++ more)) (fields, [])

def nameClash? (inherited : Namespace) (earlier : List Declaration) (d : Declaration) : Option Fault :=
  let name := d.name.node
  let namesakes := earlier.filter fun other => other.name.node == name
  if namesakes.isEmpty && !inherited.defines name then none
  else if d.isJoin &&
      (namesakes.any Declaration.isJoin || (inherited.lookup? name).any FieldDef.isJoin) then
    some (.ambiguousJoin name)
  else some (.duplicateName name)

def claimNames (url : String) (inherited : Namespace) (declarations : List Declaration) :
    List Declaration × List LocatedFault :=
  declarations.foldl (fun (kept, faults) d =>
    match nameClash? inherited kept d with
    | some fault => (kept, faults ++ [⟨fault, ⟨url, d.name.span⟩⟩])
    | none => (kept ++ [d], faults)) ([], [])

def bodyFilters (body : List Document.SourceProperty) : List Document.Expr :=
  body.flatMap fun
    | .filter filters => filters
    | _ => []

def bodyPrimaryKey (body : List Document.SourceProperty) : Option Document.Name :=
  (body.filterMap fun
    | .primaryKey field => some field
    | _ => none).getLast?

def fieldOf (scope : Scope) (decl : Document.FieldDecl) (role : FieldRole) : M Memo FieldDef := do
  let typed ← scope.resolve decl.name.node
  let name := decl.name.node
  let fault := match role, typed.level with
    | .dimension, .aggregate => some (AggregateFault.inDimension name)
    | .measure, .scalar => some (AggregateFault.scalarMeasure name)
    | _, _ => none
  if let some fault := fault then
    throw ⟨.aggregation fault, scope.location decl.name.span⟩
  let field : ExprField := ⟨name, typed.expr, typed.type, scope.location decl.span⟩
  return if typed.isAggregate then .measure field else .dimension field

def primaryKeyType? (s : Source) : Option AtomicType := do
  match s.fields.lookup? (← s.primaryKey) with
  | some (.dimension f) => some f.type
  | _ => none

def keyCorrelation (join : String) (source : Source) (key : Typed) : Except Fault Correlation :=
  if key.isAggregate then .error (.aggregation (.inJoinKey join))
  else
    match primaryKeyType? source with
    | none => .error (.typing (.joinWithoutKey join source.name))
    | some type =>
      if key.type.isCompatible type then .ok (.key key.expr)
      else .error (.typing (.joinKey join key.type source.name type))

def onCorrelation (condition : Typed) : Except Fault Correlation :=
  if condition.isAggregate then .error (.aggregation .inJoinCondition)
  else if condition.type.isCompatible .boolean then .ok (.on condition.expr)
  else .error (.typing (.joinConditionNotBoolean condition.type))

/-- The condition of a join that gives none: a dimension of the parent that is named like the primary
key of the joined source. -/
def impliedCorrelation (parent : Namespace) (join : String) (source : Source) :
    Except Fault Correlation :=
  let missing : Except Fault Correlation := .error (.typing (.joinUncorrelated join))
  match source.primaryKey with
  | none => missing
  | some key =>
    match parent.resolve [key] with
    | .ok ⟨_, _, _, .dimension _⟩ => .ok (.key (.field [key]))
    | _ => missing

def correlate (scope : Scope) (join : Document.JoinDecl) (source : Source) : M Memo Correlation := do
  let located (span : Span) (result : Except Fault Correlation) := scope.context.located span result
  match join.condition with
  | some (.key e) => located e.span (keyCorrelation join.name.node source (← scope.typed e))
  | some (.on e) => located e.span (onCorrelation (← scope.typed e))
  | none =>
    if join.kind = .cross then return .free
    else located join.name.span (impliedCorrelation scope.root join.name.node source)

def sourceFilter (scope : Scope) (filter : Document.Expr) : M Memo Filter := do
  let typed ← scope.typed filter
  if typed.isAggregate then
    throw ⟨.aggregation .inSourceFilter, scope.location filter.span⟩
  if !typed.type.isCompatible .boolean then
    throw ⟨.typing (.filterNotBoolean typed.type), scope.location filter.span⟩
  return ⟨typed.expr, scope.location filter.span⟩

def primaryKey (url : String) (fields : Namespace) (key : Document.Name) : Except LocatedFault String :=
  match fields.get? key.node with
  | some (.dimension _) => .ok key.node
  | some other => .error ⟨.wrongFieldKind key.node other.kind [.dimension], ⟨url, key.span⟩⟩
  | none => .error ⟨.undefinedField key.node, ⟨url, key.span⟩⟩

structure BuiltJoin where
  decl : Document.JoinDecl
  source : Source

namespace BuiltJoin

def field (j : BuiltJoin) (url : String) (correlation : Correlation) : FieldDef :=
  .join ⟨j.decl.name.node, j.decl.kind, j.source, correlation, ⟨url, j.decl.span⟩⟩

end BuiltJoin

def buildJoins (declarations : List Declaration) : BuildM (List (Except LocatedFault BuiltJoin)) :=
  declarations.filterMapM fun
    | .join decl source => do return some ((← BuildM.attempt source).map (⟨decl, ·⟩))
    | _ => pure none

structure BodyOutcome where
  fields : List (Except LocatedFault (String × FieldDef))
  joins : List (Except LocatedFault (String × FieldDef))
  filters : List (Except LocatedFault Filter)

def resolveBody (scope : Scope) (fields : List (Document.FieldDecl × FieldRole)) (joins : List BuiltJoin)
    (filters : List Document.Expr) : StateM Memo BodyOutcome := do
  let fields ← fields.mapM fun (decl, role) => do
    return (← (fieldOf scope decl role).run).map fun field => (decl.name.node, field)
  let joins ← joins.mapM fun join => do
    return (← (correlate scope join.decl join.source).run).map fun correlation =>
      (join.decl.name.node, join.field scope.url correlation)
  let filters ← filters.mapM fun filter => (sourceFilter scope filter).run
  return ⟨fields, joins, filters⟩

/-- Adds views one by one; each sees the fields and the views before it. -/
def addViews (url : String) (sampling : Bool) (fields : Namespace) (views : List Document.ViewDecl) :
    Namespace × List LocatedFault :=
  views.foldl (fun (fields, faults) view =>
    match pipelineStages url false fields sampling view.pipeline with
    | .ok stages =>
      (fields.insert view.name.node (.view ⟨view.name.node, stages, ⟨url, view.span⟩⟩), faults)
    | .error fault => (fields, faults ++ [fault])) (fields, [])

def refine (base : Source) (body : List Document.SourceProperty) (declarations : List Declaration)
    (span : Span) : BuildM Source := do
  let url := (← read).url
  let (inherited, reshaping) := reshape url base.fields body
  let (kept, clashes) := claimNames url inherited declarations
  let built ← buildJoins kept
  let draft := (values built).foldl (fun fields join =>
    fields.insert join.decl.name.node (join.field url .free)) inherited
  let fieldDecls := kept.filterMap Declaration.field?
  let scope : Scope := ⟨url, draft, fieldDecls.map Prod.fst, false⟩
  let (outcome, _) := (resolveBody scope fieldDecls (values built) (bodyFilters body)).run []
  let resolved := values outcome.fields ++ values outcome.joins
  let fields := kept.foldl (fun fields d =>
    match resolved.lookup d.name.node with
    | some field => fields.insert d.name.node field
    | none => fields) inherited
  let key := (bodyPrimaryKey body).map (primaryKey url fields)
  BuildM.settle (reshaping ++ clashes ++ faults built ++ faults outcome.fields ++
    faults outcome.joins ++ faults outcome.filters ++ faults key.toList)
  let key := match key with
    | some (.ok name) => some name
    | _ => base.primaryKey
  let (fields, viewFaults) :=
    addViews url base.origin.isTable fields (kept.filterMap Declaration.view?)
  BuildM.settle viewFaults
  return ⟨base.name, base.origin, fields, key, base.filters ++ values outcome.filters, ⟨url, span⟩⟩

def sourceOfQuery (query : Query) (location : Location) : Source :=
  ⟨query.name.getD "from_query", .query query, Namespace.ofResult query.outputSchema location, none, [],
    location⟩

def sourceOfSql (block : SqlBlock) (location : Location) : Source :=
  ⟨block.name, .sql block, Namespace.ofColumns block.schema location, none, [], location⟩

def tableSource (connection : Option String) (path : String) (span : Span) : BuildM Source := do
  let schema ← BuildM.located span ((← read).catalog.table (schemaKey connection path))
  let location ← BuildM.location span
  return ⟨path, .table path connection, Namespace.ofColumns schema location, none, [], location⟩

def entityOf? (name : Document.Name) : BuildM (Option Entity) := do
  let surroundings ← read
  if (surroundings.invalid.lookup name.node).isSome then
    BuildM.fail name.span (.invalidReference name.node)
  return surroundings.entities.lookup name.node

def namedSource (name : Document.Name) : BuildM Source := do
  if (← read).building = some name.node then BuildM.fail name.span (.joinCycle name.node)
  match ← entityOf? name with
  | some (.source source) => return source
  | some (.query query) => return sourceOfQuery query (← BuildM.location name.span)
  | some (.sqlBlock block) => return sourceOfSql block (← BuildM.location name.span)
  | none => BuildM.fail name.span (.undefinedEntity .source name.node)

def namedQuery (name : Document.Name) : BuildM Query := do
  match ← entityOf? name with
  | some (.query query) => return query
  | _ => BuildM.fail name.span (.undefinedEntity .query name.node)

def namedSql (name : Document.Name) : BuildM Source := do
  match ← entityOf? name with
  | some (.sqlBlock block) => return sourceOfSql block (← BuildM.location name.span)
  | _ => BuildM.fail name.span (.undefinedEntity .sqlBlock name.node)

def queryOver (name : Option String) (source : Source) (stages : List Stage)
    (pipeline : List Document.PipeElement) (span : Span) : BuildM Query := do
  let location ← BuildM.location span
  let input := after location.url span source.fields stages
  let sampling := stages.isEmpty && source.origin.isTable
  let added ← match pipelineStages location.url false input sampling pipeline with
    | .ok added => pure added
    | .error fault => throw fault
  let stages := stages ++ added
  if stages.isEmpty then BuildM.fail span (.stage .noStages)
  return ⟨name, source, stages, location⟩

mutual

def source : Document.SourceExpr → BuildM Source
  | .named name => namedSource name
  | .table connection path span => tableSource connection path span
  | .fromQuery inner span => do
    let inner ← query none inner
    return sourceOfQuery inner (← BuildM.location span)
  | .fromSql name => namedSql name
  | .refine base body span => do
    let base ← source base
    refine base body (bodyDeclarations body) span

def query (name : Option String) : Document.QueryExpr → BuildM Query
  | ⟨head, pipeline, span⟩ => do
    let (source, stages) ← queryHead head
    queryOver name source stages pipeline span

def queryHead : Document.QueryHead → BuildM (Source × List Stage)
  | .source inner => do return (← source inner, [])
  | .query name => do
    let base ← namedQuery name
    return (base.source, base.stages)

def bodyDeclarations : List Document.SourceProperty → List Declaration
  | [] => []
  | property :: rest => propertyDeclarations property ++ bodyDeclarations rest

def propertyDeclarations : Document.SourceProperty → List Declaration
  | .dimension fields => fields.map (.field · .dimension)
  | .measure fields => fields.map (.field · .measure)
  | .declare fields => fields.map (.field · .inferred)
  | .join joins => joinDeclarations joins
  | .view views => views.map .view
  | _ => []

def joinDeclarations : List Document.JoinDecl → List Declaration
  | [] => []
  | ⟨name, kind, inner, condition, span⟩ :: rest =>
    .join ⟨name, kind, inner, condition, span⟩ (joinSource name inner) :: joinDeclarations rest

def joinSource (name : Document.Name) : Option Document.SourceExpr → BuildM Source
  | none => namedSource name
  | some inner => source inner

end

end SemanticLayer.Elaborate
