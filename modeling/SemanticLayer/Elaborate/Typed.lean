import SemanticLayer.Elaborate.Reads
import SemanticLayer.Elaborate.TimeLiteral
import SemanticLayer.Document.Basic

/-!
Typed expressions, and the rules by which operators, patterns, aggregates and calls combine them. Every
rule reports its fault without a place; whoever applies it knows the place.
-/
namespace SemanticLayer

inductive Level where
  | scalar | aggregate
  deriving DecidableEq, Repr

namespace Level

def name : Level → String
  | scalar => "scalar"
  | aggregate => "aggregate"

def isAggregate : Level → Bool
  | scalar => false
  | aggregate => true

end Level

structure Typed where
  expr : Expr
  type : AtomicType
  level : Level
  reads : Reads
  fanned : Option String

inductive Shape where
  | dimension | measure
  | join (source : Source)
  | view (view : View)
  | nestedResult

def Shape.kind : Shape → FieldKind
  | dimension => .dimension
  | measure => .measure
  | join _ => .join
  | view _ => .view
  | nestedResult => .nestedResult

structure Reference where
  shape : Shape
  type : AtomicType
  joinPath : List String
  crosses : Bool
  reads : Reads
  /-- The expression that stands for the reference, where the name is local to a stage. -/
  inline : Option Expr

namespace Reference

/-- The paths read through the reference; a field without columns is read where it stands. -/
def paths (r : Reference) : Reads := if r.reads.isEmpty then [(r.joinPath, r.crosses)] else r.reads

end Reference

def Namespace.refer (ns : Namespace) (path : List String) : Except Fault Reference := do
  let found ← ns.resolve path
  let reference (shape : Shape) (type : AtomicType) (reads : Reads) : Reference :=
    ⟨shape, type, found.joinPath, found.crossesMany, reads, none⟩
  return match found.field with
    | .dimension f =>
      reference .dimension f.type (f.expr.reads ⟨found.owner, found.joinPath, found.crossesMany⟩)
    | .measure f => reference .measure f.type []
    | .join j => reference (.join j.source) .null []
    | .view v => reference (.view v) .null []
    | .nested _ _ => reference .nestedResult .null []

namespace AtomicType

def fits (found wanted : AtomicType) : Bool := found == wanted || found == .null

end AtomicType

namespace Typed

def scalar (expr : Expr) (type : AtomicType) : Typed := ⟨expr, type, .scalar, [], none⟩

def ofLiteral (l : Literal) : Typed := scalar (.literal l) l.type

def isAggregate (t : Typed) : Bool := t.level.isAggregate

def ofReference (path : List String) (text : String) (r : Reference) : Except Fault Typed :=
  let expr := r.inline.getD (.field path)
  match r.shape with
  | .dimension =>
    .ok ⟨expr, r.type, .scalar, r.paths, if r.paths.crosses then some text else none⟩
  | .measure => .ok ⟨expr, r.type, .aggregate, [], none⟩
  | other => .error (.wrongFieldKind text other.kind [.dimension, .measure])

/-- An expression with several parts. A scalar part that crosses a join which can repeat rows cannot
stand beside an aggregate. -/
def build (expr : Expr) (type : AtomicType) (parts : List Typed) : Except Fault Typed :=
  let level : Level := if parts.any isAggregate then .aggregate else .scalar
  let scalars := parts.filter fun part => !part.isAggregate
  let fanned := scalars.findSome? Typed.fanned
  match level, fanned with
  | .aggregate, some path => .error (.fanOut path)
  | _, _ => .ok ⟨expr, type, level, scalars.foldl (fun reads part => reads.union part.reads) [], fanned⟩

def requireTemporal (operation : String) (t : Typed) : Except Fault Unit :=
  if t.type.isTemporal || t.type == .null then .ok ()
  else .error (.typing (.notTemporal operation t.type))

def unary (op : UnaryOp) (t : Typed) : Except Fault Typed :=
  let wanted := match op with
    | .not => AtomicType.boolean
    | .neg => AtomicType.number
  if t.type.fits wanted then .ok { t with expr := .unary op t.expr, type := wanted }
  else .error (.typing (.operand op wanted t.type))

def cast (type : AtomicType) (safe : Bool) (t : Typed) : Typed :=
  { t with expr := .cast t.expr type safe, type := type }

def truncate (unit : TimeUnit) (t : Typed) : Except Fault Typed := do
  requireTemporal ("." ++ unit.name) t
  if t.type == .date && unit.isSubDay then .error (.typing (.dateTruncation unit))
  else .ok { t with expr := .truncate t.expr unit t.type }

def extract (unit : ExtractUnit) (t : Typed) : Except Fault Typed := do
  requireTemporal unit.name t
  .ok { t with expr := .extract t.expr unit, type := .number }

def isNull (negated : Bool) (t : Typed) : Typed :=
  { t with expr := .isNull t.expr negated, type := .boolean }

def isIn (t : Typed) (values : List Typed) (negated : Bool) : Except Fault Typed :=
  build (.isIn t.expr (values.map Typed.expr) negated) .boolean (t :: values)

def ungroup (kind : UngroupKind) (fields : List String) (t : Typed) : Except Fault Typed :=
  if !t.isAggregate then .error (.aggregation .ungroupedScalar)
  else if t.expr.containsUngroup then .error (.aggregation .nestedUngroup)
  else .ok { t with expr := .ungroup kind t.expr fields }

def widened (t other : Typed) : Expr :=
  match t.type, other.type with
  | .date, .timestamp => .cast t.expr .timestamp false
  | _, _ => t.expr

def compare (op : BinaryOp) (l r : Typed) : Except Fault Typed :=
  if l.type.isCompatible r.type then
    build (.binary op (l.widened r) (r.widened l)) .boolean [l, r]
  else .error (.typing (.operands op l.type r.type))

def uniform (op : BinaryOp) (wanted result : AtomicType) (l r : Typed) : Except Fault Typed :=
  if l.type.fits wanted && r.type.fits wanted then build (.binary op l.expr r.expr) result [l, r]
  else .error (.typing (.operands op l.type r.type))

def binary (op : BinaryOp) (l r : Typed) : Except Fault Typed :=
  match op with
  | .coalesce =>
    if l.type.isCompatible r.type then
      build (.call .coalesce [l.expr, r.expr]) (l.type.unify r.type) [l, r]
    else .error (.typing (.operands op l.type r.type))
  | .and | .or => uniform op .boolean .boolean l r
  | .add | .sub | .mul | .div | .mod => uniform op .number .number l r
  | .like | .notLike => uniform op .string .boolean l r
  | .eq | .ne | .lt | .lte | .gt | .gte => compare op l r

def offset (base amount : Typed) (unit : TimeUnit) (subtract : Bool) : Except Fault Typed :=
  if amount.type.fits .number then
    let type := if base.type == .date && unit.isSubDay then .timestamp else base.type
    build (.offset base.expr amount.expr unit base.type subtract) type [base, amount]
  else .error (.typing (.durationAmount amount.type))

def halfOpen (value start stop : Typed) : Except Fault Typed := do
  let lower ← compare .gte value start
  let upper ← compare .lt value stop
  build (lower.expr.and upper.expr) .boolean [lower, upper]

/-- Whether a value lies in the period that a time literal names; one with seconds names an instant. -/
def matchesTime (value : Typed) (literal : Literal) (unit : TimeUnit) : Except Fault Typed :=
  let start := ofLiteral literal
  match unit with
  | .second => compare .eq value start
  | _ =>
    let stop := scalar (.offset start.expr (.number "1") unit literal.type false) literal.type
    halfOpen value start stop

def aggregateType (function : AggregateFunction) (arg : Option Typed) : Except Fault AtomicType :=
  match function, arg with
  | .count, _ => .ok .number
  | _, none => .error (.typing (.missingArgument function))
  | .countDistinct, some _ => .ok .number
  | .sum, some a | .avg, some a =>
    if a.type.fits .number then .ok .number else .error (.typing (.aggregateArgument function a.type))
  | .min, some a | .max, some a => .ok a.type

/-- Where an aggregate of an expression is computed: at the deepest path read, on which all others
lie. -/
def locality (reads : Reads) : Except Fault (List String) :=
  match reads.deepest? with
  | none => .ok []
  | some deepest =>
    match reads.find? fun (path, _) => !path.isPrefixOf deepest with
    | some (path, _) => .error (.typing (.unrelatedJoins path deepest))
    | none => .ok deepest

def effectiveFunction (function : AggregateFunction) (arg : Option Typed) : AggregateFunction :=
  match function, arg with
  | .count, some _ => .countDistinct
  | f, _ => f

def aggregate (function : AggregateFunction) (locality : List String) (arg : Option Typed)
    (type : AtomicType) : Typed :=
  ⟨.aggregate function locality (arg.map Typed.expr), type, .aggregate, [], none⟩

def filtered (t : Typed) (conditions : List Typed) : Typed :=
  match Expr.conjunction? (conditions.map Typed.expr) with
  | none => t
  | some condition => { t with expr := .filtered t.expr condition }

def rowCondition (t : Typed) : Except Fault Typed :=
  if t.isAggregate then .error (.aggregation .inFilter)
  else if t.type.fits .boolean then .ok t
  else .error (.typing (.filterNotBoolean t.type))

def pickType (type : AtomicType) (value : Typed) : Except Fault AtomicType :=
  if type.isCompatible value.type then .ok (type.unify value.type)
  else .error (.typing (.mixedPick type value.type))

def pick (arms : List (Typed × Typed)) (otherwise : Option Typed) (type : AtomicType) :
    Except Fault Typed :=
  build (.choose (arms.map fun (condition, value) => (condition.expr, value.expr))
      (otherwise.map Typed.expr)) type
    (arms.flatMap (fun (condition, value) => [condition, value]) ++ otherwise.toList)

def call (function : ScalarFunction) (args : List Typed) : Except Fault Typed :=
  build (.call function (args.map Typed.expr))
    (function.resultType ((args.head?.map Typed.type).getD .null)) args

end Typed

end SemanticLayer
