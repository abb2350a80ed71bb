import SemanticLayer.Diagnostic
import SemanticLayer.Model.Expr
import SemanticLayer.Dialect.Basic

/-!
Why a model cannot be built or a query cannot be compiled. A fault is a cause; its kind and its
message follow from it.
-/
namespace SemanticLayer

inductive FieldKind where
  | dimension | measure | join | view | nestedResult | nest
  deriving DecidableEq, Repr

def FieldKind.name : FieldKind → String
  | dimension => "dimension"
  | measure => "measure"
  | join => "join"
  | view => "view"
  | nestedResult => "nested result"
  | nest => "nest"

inductive EntityKind where
  | source | query | sqlBlock | function
  deriving DecidableEq, Repr

def EntityKind.name : EntityKind → String
  | source => "source"
  | query => "query"
  | sqlBlock => "sql block"
  | function => "function"

def dotted (path : List String) : String := String.intercalate "." path

inductive TypeFault where
  | operand (op : UnaryOp) (wanted found : AtomicType)
  | operands (op : BinaryOp) (left right : AtomicType)
  | dateTruncation (unit : TimeUnit)
  | notTemporal (operation : String) (found : AtomicType)
  | strayDuration
  | strayRange
  | mixedList (wanted found : AtomicType)
  | durationAmount (found : AtomicType)
  | missingArgument (function : AggregateFunction)
  | aggregateArgument (function : AggregateFunction) (found : AtomicType)
  | unrelatedJoins (path deepest : List String)
  | filterNotBoolean (found : AtomicType)
  | whenNotBoolean (found : AtomicType)
  | mixedPick (wanted found : AtomicType)
  | argumentCount (name : String) (function : ScalarFunction) (found : Nat)
  | joinWithoutKey (join source : String)
  | joinKey (join : String) (key : AtomicType) (source : String) (primaryKey : AtomicType)
  | joinConditionNotBoolean (found : AtomicType)
  | joinUncorrelated (join : String)
  deriving DecidableEq, Repr

def ScalarFunction.arityText (f : ScalarFunction) : String :=
  match f.arity with
  | (least, some most) => if least = most then toString least else s!"{least} to {most}"
  | (least, none) => s!"at least {least}"

def TypeFault.message : TypeFault → String
  | operand op wanted found =>
    s!"'{op.symbol}' requires a {wanted.name} operand, found {found.name}"
  | operands op left right => s!"'{op.symbol}' cannot be applied to {left.name} and {right.name}"
  | dateTruncation unit => s!"cannot truncate a date to {unit.name}"
  | notTemporal operation found => s!"'{operation}' requires a date or timestamp, found {found.name}"
  | strayDuration => "a duration is only meaningful in time arithmetic or a range"
  | strayRange => "a range is only meaningful on the right of '?'"
  | mixedList wanted found => s!"'in' list mixes {wanted.name} with {found.name}"
  | durationAmount found => s!"a duration needs a number, found {found.name}"
  | missingArgument function => s!"'{function.name}' requires an argument"
  | aggregateArgument function found => s!"'{function.name}' requires a number, found {found.name}"
  | unrelatedJoins path deepest =>
    s!"aggregate reads from unrelated joins '{dotted path}' and '{dotted deepest}'"
  | filterNotBoolean found => s!"a filter must be boolean, found {found.name}"
  | whenNotBoolean found => s!"'when' needs a boolean, found {found.name}"
  | mixedPick wanted found => s!"pick mixes {wanted.name} with {found.name}"
  | argumentCount name function found =>
    s!"'{name}' takes {function.arityText} arguments, found {found}"
  | joinWithoutKey join source => s!"join '{join}' uses 'with' but source '{source}' has no primary key"
  | joinKey join key source primaryKey =>
    s!"join '{join}' key is {key.name} but the primary key of '{source}' is {primaryKey.name}"
  | joinConditionNotBoolean found => s!"join condition must be boolean, found {found.name}"
  | joinUncorrelated join => s!"join '{join}' needs 'with' or 'on'"

inductive AggregateFault where
  | inSourceFilter
  | inJoinKey (join : String)
  | inJoinCondition
  | inDimension (name : String)
  | scalarMeasure (name : String)
  | ungroupedScalar
  | nestedUngroup
  | nestedAggregate
  | filteredScalar
  | inFilter
  | inRowFilter
  | inScalarItem (name : String)
  | scalarItem (name : String)
  | withoutArgument (function : AggregateFunction)
  deriving DecidableEq, Repr

def AggregateFault.message : AggregateFault → String
  | inSourceFilter => "source filters cannot contain aggregates"
  | inJoinKey join => s!"join '{join}' cannot be keyed by an aggregate"
  | inJoinCondition => "join conditions cannot contain aggregates"
  | inDimension name => s!"dimension '{name}' cannot contain an aggregate"
  | scalarMeasure name => s!"measure '{name}' must be an aggregate"
  | ungroupedScalar => "all() and exclude() require an aggregate expression"
  | nestedUngroup => "all() and exclude() cannot be nested"
  | nestedAggregate => "aggregate functions cannot be nested"
  | filteredScalar => "only aggregates can be filtered"
  | inFilter => "filter conditions cannot contain aggregates"
  | inRowFilter => "where: cannot contain aggregates; use having:"
  | inScalarItem name => s!"'{name}' cannot contain an aggregate"
  | scalarItem name => s!"'{name}' must be an aggregate"
  | withoutArgument function => function.name ++ "() needs an argument"

inductive StageKind where
  | reduce | project | index
  deriving DecidableEq, Repr

namespace StageKind

def name : StageKind → String
  | reduce => "reduce"
  | project => "project"
  | index => "index"

def keywords : StageKind → String
  | reduce => "group_by:/aggregate:/nest:"
  | project => "project:"
  | index => "index:"

end StageKind

inductive StageFault where
  | mixedKinds (added existing : StageKind)
  | noStages
  | emptyView (name : String)
  | illegalRefinement
  | nestedIndex
  | nestedSample
  | misplacedSample
  | emptyNest (name : String)
  | strayWildcard
  | definedIndexField
  | samplePercent (text : String)
  | withoutKind
  | orderedIndex
  | ordinal (position : Nat)
  | emptyReduce
  | havingInProject
  | emptyProject
  | havingInIndex
  | emptyIndex
  | nestLimit (name : String) (limit : Nat)
  | indexAsNest (name : String)
  | joinWithoutKey (join source : String)
  | sampledSource (source : String)
  | strayUngroup
  deriving DecidableEq, Repr

def StageFault.message : StageFault → String
  | mixedKinds added existing =>
    added.keywords ++ " cannot be combined with " ++ existing.keywords ++ " in one stage"
  | noStages => "a query needs at least one stage"
  | emptyView name => s!"view '{name}' has no stages"
  | illegalRefinement => "illegal in refinement of a query with more than one stage"
  | nestedIndex => "index: cannot be nested"
  | nestedSample => "sample: cannot be nested"
  | misplacedSample => "sample: is only allowed in the first stage of a query against a table"
  | emptyNest name => s!"nest '{name}' has no stages"
  | strayWildcard => "'*' is only allowed in project: and index:"
  | definedIndexField => "index: only lists existing fields"
  | samplePercent text => s!"sample percent must be in (0, 100], found {text}"
  | withoutKind => "a query stage needs group_by:, aggregate:, nest:, project: or index:"
  | orderedIndex => "order_by: is not allowed in index:"
  | ordinal position => s!"order_by: {position} is out of range"
  | emptyReduce => "a reduce stage needs at least one output field"
  | havingInProject => "having: requires group_by: or aggregate:"
  | emptyProject => "project: needs at least one field"
  | havingInIndex => "having: is not allowed in index:"
  | emptyIndex => "index: needs at least one field"
  | nestLimit name limit => s!"nest '{name}' limit {limit} is out of range"
  | indexAsNest name => s!"nest '{name}' cannot be an index"
  | joinWithoutKey join source => s!"join '{join}' uses with: but '{source}' has no primary key"
  | sampledSource source => s!"sample: needs a table source, '{source}' is not one"
  | strayUngroup => "all() and exclude() are only allowed in group_by/aggregate stages"

inductive Fault where
  | timeLiteral (text : String)
  | undefinedField (path : String)
  | undefinedEntity (kind : EntityKind) (name : String)
  | duplicateName (name : String)
  | importCollision (name url : String)
  | wrongFieldKind (path : String) (found : FieldKind) (wanted : List FieldKind)
  | typing (fault : TypeFault)
  | aggregation (fault : AggregateFault)
  | fanOut (path : String)
  | joinCycle (name : String)
  | ambiguousJoin (name : String)
  | circularDefinition (name : String)
  | importCycle (url : String)
  | importTooDeep (url : String) (depth : Nat)
  | importFailed (url message : String)
  | stage (fault : StageFault)
  | unsupported (reason : Unsupported)
  | missingSchema (key : String)
  | schemaFailed (key message : String)
  | invalidReference (name : String)
  deriving DecidableEq, Repr

namespace Fault

def message : Fault → String
  | timeLiteral text => s!"invalid time literal '{text}'"
  | undefinedField path => s!"'{path}' is not defined"
  | undefinedEntity kind name => s!"{kind.name} '{name}' is not defined"
  | duplicateName name => s!"cannot redefine '{name}'"
  | importCollision name url => s!"'{name}' imported from {url} collides with an existing definition"
  | wrongFieldKind path found wanted =>
    let wantedText := String.intercalate " or " (wanted.map FieldKind.name)
    s!"'{path}' is a {found.name}, expected {wantedText}"
  | typing fault => fault.message
  | aggregation fault => fault.message
  | fanOut path => s!"'{path}' is reached through a one-to-many join and must be aggregated"
  | joinCycle name => s!"join cycle: source '{name}' joins itself"
  | ambiguousJoin name => s!"ambiguous join path '{name}'"
  | circularDefinition name => s!"circular definition of '{name}'"
  | importCycle url => s!"import cycle through {url}"
  | importTooDeep url depth => s!"import of {url} exceeds the maximum import depth of {depth}"
  | importFailed url text => s!"could not read {url}: {text}"
  | stage fault => fault.message
  | unsupported reason => reason.message
  | missingSchema key => s!"schema for '{key}' was not supplied"
  | schemaFailed key text => s!"schema for '{key}' failed: {text}"
  | invalidReference name => s!"'{name}' is invalid"

def kind : Fault → Diagnostic.Kind
  | timeLiteral _ => .malformed
  | undefinedField _ | undefinedEntity _ _ | duplicateName _ | importCollision _ _
  | invalidReference _ => .nameResolution
  | wrongFieldKind _ _ _ | typing _ => .typing
  | aggregation _ | fanOut _ | joinCycle _ | ambiguousJoin _ | circularDefinition _ | importCycle _
  | importTooDeep _ _ | stage _ => .structural
  | unsupported _ => .dialectUnsupported
  | missingSchema _ | schemaFailed _ _ | importFailed _ _ => .schemaDependency

def isCascade : Fault → Bool
  | invalidReference _ => true
  | _ => false

def diagnostic (f : Fault) (location : Location) : Diagnostic := .error f.kind f.message location

end Fault

structure LocatedFault where
  fault : Fault
  location : Location
  deriving DecidableEq, Repr

def LocatedFault.diagnostic (f : LocatedFault) : Diagnostic := f.fault.diagnostic f.location

end SemanticLayer
