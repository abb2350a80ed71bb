import SemanticLayer.Decimal.Notation
import SemanticLayer.Elaborate.Scope

/-!
Stages of a query, one property after the other. A stage reads the namespace of its input: the source
for the first stage, the output columns of the stage before for the others. Names that a stage declares
are replaced by their expressions, so a finished stage does not refer to them.
-/
namespace SemanticLayer.Elaborate

structure StagePosition where
  sampling : Bool
  nested : Bool

structure Draft where
  kind : Option StageKind
  fields : List OutputField
  indexFields : List IndexField
  weight : Option Expr
  having : List Filter
  orderBy : List OrderBy
  restriction : Restriction

namespace Draft

def empty : Draft := ⟨none, [], [], none, [], [], ⟨[], none, none⟩⟩

def ofStage : Stage → Draft
  | .reduce fields having orderBy restriction =>
    { empty with kind := some .reduce, fields, having, orderBy, restriction }
  | .project fields orderBy restriction =>
    { empty with kind := some .project, fields, orderBy, restriction }
  | .index indexFields weight restriction =>
    { empty with kind := some .index, indexFields, weight, restriction }

def ofKind (d : Draft) (kind : StageKind) : Except Fault Draft :=
  match d.kind with
  | some existing =>
    if existing = kind then .ok d else .error (.stage (.mixedKinds kind existing))
  | none => .ok { d with kind := some kind }

def addFields (d : Draft) (fields : List OutputField) : Draft := { d with fields := d.fields ++ fields }

def addFilter (d : Draft) (filter : Filter) : Draft :=
  { d with restriction.filters := d.restriction.filters ++ [filter] }

def addHaving (d : Draft) (filter : Filter) : Draft := { d with having := d.having ++ [filter] }

def withLimit (d : Draft) (limit : Nat) : Draft := { d with restriction.limit := some limit }

end Draft

/-- A block of properties: the names it sees, where the stage stands, and where the block stands. -/
structure Site where
  scope : Scope
  position : StagePosition
  span : Span

namespace Site

def input (s : Site) : Namespace := s.scope.root

def location (s : Site) (span : Span) : Location := s.scope.location span

def fail (s : Site) (span : Span) (fault : Fault) : M Memo α := throw ⟨fault, s.location span⟩

def located (s : Site) (span : Span) (result : Except Fault α) : M Memo α :=
  s.scope.context.located span result

end Site

def definitions (items : List Document.QueryItem) : List Document.FieldDecl :=
  items.filterMap fun
    | .define decl => some decl
    | _ => none

def declared : Document.StageProperty → List Document.FieldDecl
  | .declare fields => fields
  | .groupBy items | .project items | .aggregate items => definitions items
  | _ => []

def outputTyped (input : Namespace) : OutputField → Option (String × Typed)
  | .dimension f =>
    let reads := f.expr.reads ⟨input, [], false⟩
    some (f.name, ⟨f.expr, f.type, .scalar, reads, if reads.crosses then some f.name else none⟩)
  | .measure f => some (f.name, ⟨f.expr, f.type, .aggregate, [], none⟩)
  | .nest _ => none

def levelKind : Level → FieldKind
  | .scalar => .dimension
  | .aggregate => .measure

def stageItem (s : Site) (wanted : Level) : Document.QueryItem → M Memo ExprField
  | .reference path filters => do
    let reference : Document.Expr := ⟨.field path, path.span⟩
    let typed ← s.scope.typed
      (if filters.isEmpty then reference else ⟨.filtered reference filters, path.span⟩)
    if typed.level ≠ wanted then
      s.fail path.span (.wrongFieldKind path.text (levelKind typed.level) [levelKind wanted])
    return ⟨path.last, typed.expr, typed.type, s.location path.span⟩
  | .define decl => do
    let typed ← s.scope.resolve decl.name.node
    if typed.level ≠ wanted then
      s.fail decl.name.span (.aggregation (match wanted with
        | .scalar => .inScalarItem decl.name.node
        | .aggregate => .scalarItem decl.name.node))
    return ⟨decl.name.node, typed.expr, typed.type, s.location decl.span⟩
  | .wildcard _ span => s.fail span (.stage .strayWildcard)

def wildcardNamespace (input : Namespace) (path : List String) : Except Fault Namespace :=
  if path.isEmpty then .ok input
  else do
    let reference ← input.refer path
    match reference.shape with
    | .join source => .ok source.fields
    | other => .error (.wrongFieldKind (dotted path) other.kind [.join])

def wildcard (input : Namespace) (path : List String) : Except Fault (List (String × AtomicType)) := do
  let ns ← wildcardNamespace input path
  return ns.visible.filterMap fun slot =>
    match slot.field with
    | .dimension f => some (slot.name, f.type)
    | _ => none

def projectItem (s : Site) (item : Document.QueryItem) : M Memo (List OutputField) :=
  match item with
  | .wildcard path span => do
    let names ← s.located span (wildcard s.input path)
    return names.map fun (name, type) =>
      .dimension ⟨name, .field (path ++ [name]), type, s.location span⟩
  | item => do return [.dimension (← stageItem s .scalar item)]

def indexItem (s : Site) : Document.QueryItem → M Memo (List IndexField)
  | .reference path _ => do
    let reference ← s.located path.span (s.input.refer path.names)
    match reference.shape with
    | .dimension => return [⟨path.names, reference.type⟩]
    | other => s.fail path.span (.wrongFieldKind path.text other.kind [.dimension])
  | .wildcard path span => do
    let names ← s.located span (wildcard s.input path)
    return names.map fun (name, type) => ⟨path ++ [name], type⟩
  | .define decl => s.fail decl.name.span (.stage .definedIndexField)

def indexWeight (s : Site) (name : Document.Name) : M Memo Expr := do
  let typed ← s.scope.typed ⟨.field (.ofDotted name.node), name.span⟩
  if !typed.isAggregate then
    s.fail name.span (.wrongFieldKind name.node .dimension [.measure])
  return typed.expr

def condition (s : Site) (filter : Document.Expr) : M Memo (Filter × Level) := do
  let typed ← s.scope.typed filter
  if !typed.type.isCompatible .boolean then
    s.fail filter.span (.typing (.filterNotBoolean typed.type))
  return (⟨typed.expr, s.location filter.span⟩, typed.level)

def whereItem (s : Site) (d : Draft) (filter : Document.Expr) : M Memo Draft := do
  let (condition, level) ← condition s filter
  if level.isAggregate then s.fail filter.span (.aggregation .inRowFilter)
  return d.addFilter condition

def havingItem (s : Site) (d : Draft) (filter : Document.Expr) : M Memo Draft := do
  let (condition, level) ← condition s filter
  return if level.isAggregate then d.addHaving condition else d.addFilter condition

def samplingOf : Document.SampleSpec → Except Fault (Option Sampling)
  | .enabled enabled => .ok (if enabled then some .standard else none)
  | .rows rows => .ok (some (.rows rows.toNat))
  | .percent percent =>
    if percent > 0 && percent ≤ 100 then .ok (some (.percent percent))
    else .error (.stage (.samplePercent (Decimal.plainText percent)))

def viewOf (url : String) (input : Namespace) (name : Document.Name) : Except LocatedFault View :=
  let found := do
    let reference ← input.refer [name.node]
    match reference.shape with
    | .view view => .ok view
    | other => .error (.wrongFieldKind name.node other.kind [.view])
  found.mapError fun fault => ⟨fault, ⟨url, name.span⟩⟩

def orderItems : List Document.StageProperty → List Document.OrderByItem
  | [] => []
  | .orderBy items :: rest => items ++ orderItems rest
  | .top _ (some item) _ :: rest => item :: orderItems rest
  | _ :: rest => orderItems rest

/-- The direction of an entry that gives none: `top: … by` anywhere in the block turns it around. -/
def fallbackDirection (properties : List Document.StageProperty) : SortDirection :=
  let topped := properties.any fun
    | .top _ (some _) _ => true
    | _ => false
  if topped then .desc else .asc

def orderTarget (fields : List OutputField) : Document.OrderTarget → Except Fault OutputField
  | .name name =>
    match fields.find? fun f => f.name == name with
    | some field => .ok field
    | none => .error (.undefinedField name)
  | .ordinal position =>
    match position.toNat with
    | 0 => .error (.stage (.ordinal 0))
    | n + 1 =>
      match fields[n]? with
      | some field => .ok field
      | none => .error (.stage (.ordinal (n + 1)))

def orderEntry (fields : List OutputField) (fallback : SortDirection) (item : Document.OrderByItem) :
    Except Fault OrderBy := do
  let field ← orderTarget fields item.field
  if field.isNest then .error (.wrongFieldKind field.name .nest [.dimension, .measure])
  else .ok ⟨field.name, item.direction.getD fallback⟩

/-- The order of groups where none is given: the first time dimension, latest first; else the first
measure, largest first; else the first field. -/
def defaultOrder (fields : List OutputField) : List OrderBy :=
  let temporal := fields.find? fun
    | .dimension f => f.type.isTemporal
    | _ => false
  let measure := fields.find? fun
    | .measure _ => true
    | _ => false
  match temporal.or measure with
  | some field => [⟨field.name, .desc⟩]
  | none =>
    match fields.find? fun f => !f.isNest with
    | some field => [⟨field.name, .asc⟩]
    | none => []

def repeated? (fields : List OutputField) : Option OutputField :=
  go [] fields
where
  go (seen : List String) : List OutputField → Option OutputField
    | [] => none
    | f :: rest => if seen.contains f.name then some f else go (f.name :: seen) rest

def Draft.stage (d : Draft) (kind : StageKind) : Except StageFault Stage :=
  match kind with
  | .reduce =>
    if d.fields.isEmpty then .error .emptyReduce
    else
      let orderBy := if d.orderBy.isEmpty then defaultOrder d.fields else d.orderBy
      .ok (.reduce d.fields d.having orderBy d.restriction)
  | .project =>
    if !d.having.isEmpty then .error .havingInProject
    else if d.fields.isEmpty then .error .emptyProject
    else .ok (.project d.fields d.orderBy d.restriction)
  | .index =>
    if !d.having.isEmpty then .error .havingInIndex
    else if d.indexFields.isEmpty then .error .emptyIndex
    else .ok (.index d.indexFields d.weight d.restriction)

def finish (url : String) (properties : List Document.StageProperty) (span : Span) (d : Draft) :
    Except LocatedFault Stage := do
  let fail {α : Type} (span : Span) (fault : Fault) : Except LocatedFault α :=
    .error ⟨fault, ⟨url, span⟩⟩
  let kind ← match d.kind with
    | some kind => .ok kind
    | none => fail span (.stage .withoutKind)
  if let some field := repeated? d.fields then
    fail field.location.span (.duplicateName field.name)
  let items := orderItems properties
  if !items.isEmpty && kind = .index then fail span (.stage .orderedIndex)
  let orderBy ← items.mapM fun item =>
    match orderEntry d.fields (fallbackDirection properties) item with
    | .ok entry => .ok entry
    | .error fault => fail item.span fault
  let d := if items.isEmpty then d else { d with orderBy }
  match d.stage kind with
  | .ok stage => .ok stage
  | .error fault => fail span (.stage fault)

def declarations (url : String) (input : Namespace) (known : Memo)
    (properties : List Document.StageProperty) : Except LocatedFault (List Document.FieldDecl) :=
  (properties.flatMap declared).foldlM (fun earlier decl =>
    let name := decl.name.node
    if earlier.any (fun d => d.name.node == name) || (known.lookup name).isSome || input.contains name
    then .error ⟨.duplicateName name, ⟨url, decl.name.span⟩⟩
    else .ok (earlier ++ [decl])) []

/-- Builds a stage, or refines `base`. `fill` enters the properties into the draft. -/
def stageWith (url : String) (input : Namespace) (base : Option Stage) (position : StagePosition)
    (properties : List Document.StageProperty) (span : Span) (fill : Site → Draft → M Memo Draft) :
    Except LocatedFault Stage := do
  let draft := (base.map Draft.ofStage).getD Draft.empty
  let known : Memo := (draft.fields.filterMap (outputTyped input)).map fun (name, t) => (name, .ok t)
  let decls ← declarations url input known properties
  let site : Site := ⟨⟨url, input, decls, true⟩, position, span⟩
  let draft ← ((fill site draft).run.run known).1
  finish url properties span draft

def nestedPosition : StagePosition := ⟨false, true⟩

def nestable (url : String) (name : String) (span : Span) (stages : List Stage) :
    Except LocatedFault Nest := do
  let fail (fault : StageFault) : Except LocatedFault Nest := .error ⟨.stage fault, ⟨url, span⟩⟩
  let offence := stages.findSome? fun stage =>
    if stage.kind = .index then some StageFault.nestedIndex
    else if stage.sample.isSome then some .nestedSample
    else none
  match offence with
  | some fault => fail fault
  | none =>
    if stages.isEmpty then fail (.emptyNest name)
    else .ok ⟨name, stages, ⟨url, span⟩⟩

def isHeadProperty : Document.StageProperty → Bool
  | .filter _ => true
  | _ => false

def isTailProperty : Document.StageProperty → Bool
  | .orderBy _ | .limit _ _ | .top _ _ _ => true
  | _ => false

def after (url : String) (span : Span) (input : Namespace) (stages : List Stage) : Namespace :=
  match stages.getLast? with
  | some last => .ofResult last.outputSchema ⟨url, span⟩
  | none => input

def refineStages (url : String) (input : Namespace) (view : View) (position : StagePosition)
    (properties : List Document.StageProperty) (span : Span)
    (build : (Document.StageProperty → Bool) → Namespace → Stage → StagePosition →
      Except LocatedFault Stage) : Except LocatedFault (List Stage) :=
  match view.stages with
  | [] => .error ⟨.stage (.emptyView view.name), ⟨url, span⟩⟩
  | [stage] => do return [← build (fun _ => true) input stage position]
  | first :: second :: rest => do
    let allowed := properties.all fun p => isHeadProperty p || isTailProperty p
    if !allowed then .error ⟨.stage .illegalRefinement, ⟨url, span⟩⟩
    let first ← if properties.any isHeadProperty then build isHeadProperty input first position
      else .ok first
    let stages := first :: second :: rest
    match stages.getLast? with
    | some last =>
      if properties.any isTailProperty then do
        let input := after url span input stages.dropLast
        let last ← build isTailProperty input last { position with sampling := false }
        return stages.dropLast ++ [last]
      else return stages
    | none => return stages

mutual

def properties (s : Site) (keep : Document.StageProperty → Bool) :
    List Document.StageProperty → Draft → M Memo Draft
  | [], d => pure d
  | p :: rest, d => do
    let d ← if keep p then property s p d else pure d
    properties s keep rest d

def property (s : Site) : Document.StageProperty → Draft → M Memo Draft
  | .groupBy items, d => do
    let d ← s.located s.span (d.ofKind .reduce)
    return d.addFields ((← items.mapM (stageItem s .scalar)).map .dimension)
  | .aggregate items, d => do
    let d ← s.located s.span (d.ofKind .reduce)
    return d.addFields ((← items.mapM (stageItem s .aggregate)).map .measure)
  | .project items, d => do
    let d ← s.located s.span (d.ofKind .project)
    return d.addFields (← items.mapM (projectItem s)).flatten
  | .index items weight, d => do
    let d ← s.located s.span (d.ofKind .index)
    if s.position.nested then s.fail s.span (.stage .nestedIndex)
    let d := { d with indexFields := d.indexFields ++ (← items.mapM (indexItem s)).flatten }
    match weight with
    | some name => return { d with weight := some (← indexWeight s name) }
    | none => return d
  | .nest entries, d => do
    let d ← s.located s.span (d.ofKind .reduce)
    return d.addFields ((← liftExcept (nests s.scope.url s.input entries)).map .nest)
  | .filter filters, d => filters.foldlM (whereItem s) d
  | .having filters, d => filters.foldlM (havingItem s) d
  | .orderBy _, d => pure d
  | .limit count _, d => pure (d.withLimit count.toNat)
  | .top count _ _, d => pure (d.withLimit count.toNat)
  | .sample spec span, d => do
    if !s.position.sampling || s.position.nested then s.fail span (.stage .misplacedSample)
    let sample ← s.located span (samplingOf spec)
    return { d with restriction.sample := sample }
  | .declare _, d => pure d

def nests (url : String) (input : Namespace) :
    List Document.NestItem → Except LocatedFault (List Nest)
  | [] => .ok []
  | entry :: rest => do
    let first ← nest url input entry
    return first :: (← nests url input rest)

def nest (url : String) (input : Namespace) : Document.NestItem → Except LocatedFault Nest
  | .reference name refinement => do
    let view ← viewOf url input name
    nestable url name.node name.span (← refined url input view nestedPosition refinement)
  | .define name pipeline span => do
    nestable url name.node span (← pipelineStages url true input false pipeline)

def refined (url : String) (input : Namespace) (view : View) (position : StagePosition) :
    Option Document.StageBlock → Except LocatedFault (List Stage)
  | none => .ok view.stages
  | some ⟨block, span⟩ =>
    refineStages url input view position block span fun keep input stage position =>
      stageWith url input (some stage) position (block.filter keep) span fun site =>
        properties site keep block

def pipelineStages (url : String) (nested : Bool) (input : Namespace) (sampling : Bool) :
    List Document.PipeElement → Except LocatedFault (List Stage)
  | [] => .ok []
  | element :: rest => do
    let (added, span) ← pipeElement url input ⟨sampling, nested⟩ element
    return added ++ (← pipelineStages url nested (after url span input added) false rest)

def pipeElement (url : String) (input : Namespace) (position : StagePosition) :
    Document.PipeElement → Except LocatedFault (List Stage × Span)
  | .stage ⟨block, span⟩ => do
    let stage ← stageWith url input none position block span fun site =>
      properties site (fun _ => true) block
    return ([stage], span)
  | .view name refinement => do
    let view ← viewOf url input name
    return (← refined url input view position refinement, name.span)

end

end SemanticLayer.Elaborate
