import SemanticLayer.Elaborate.Typed

/-!
Expressions of documents become typed expressions. How names are looked up is a parameter, and looking
one up may change a state.
-/
namespace SemanticLayer.Elaborate

/-- Elaboration against a state `σ`: what was done stays done when it fails. -/
abbrev M (σ : Type) := ExceptT LocatedFault (StateM σ)

structure Context (σ : Type) where
  url : String
  find : List String → StateM σ (Except Fault Reference)

namespace Context

def location (c : Context σ) (span : Span) : Location := ⟨c.url, span⟩

def fail (c : Context σ) (span : Span) (fault : Fault) : M σ α := throw ⟨fault, c.location span⟩

def located (c : Context σ) (span : Span) (result : Except Fault α) : M σ α :=
  match result with
  | .ok a => pure a
  | .error fault => c.fail span fault

def refer (c : Context σ) (path : Document.FieldPath) : M σ Reference := do
  let found ← ExceptT.lift (c.find path.names)
  c.located path.span found

end Context

def joinLocality (c : Context σ) (path : Document.FieldPath) : M σ (List String) := do
  let reference ← c.refer path
  match reference.shape with
  | .join _ => pure path.names
  | other => c.fail path.span (.wrongFieldKind path.text other.kind [.join])

def aggregateOf (c : Context σ) (function : AggregateFunction) (source : Option Document.FieldPath)
    (arg : Option Typed) (span : Span) : M σ Typed := do
  if arg.any Typed.isAggregate then c.fail span (.aggregation .nestedAggregate)
  let function := Typed.effectiveFunction function arg
  let type ← c.located span (Typed.aggregateType function arg)
  let locality ← match source, arg with
    | some path, _ => joinLocality c path
    | none, some a => c.located span (Typed.locality a.reads)
    | none, none => pure []
  return .aggregate function locality arg type

def timeLiteral (c : Context σ) (text : String) (span : Span) : M σ (Literal × TimeUnit) :=
  match TimeLiteral.read? text with
  | some result => pure result
  | none => c.fail span (.timeLiteral text)

def nullTest? (op : BinaryOp) (right : Document.ExprKind) : Option Bool :=
  match op, right with
  | .eq, .null => some false
  | .ne, .null => some true
  | _, _ => none

def moves? : BinaryOp → Option Bool
  | .add => some false
  | .sub => some true
  | _ => none

/-- Moves a time by an amount that is elaborated only once the time is known to be one. -/
def moved (c : Context σ) (span : Span) (base : Typed) (amount : M σ Typed) (unit : TimeUnit)
    (backwards : Bool) : M σ Typed := do
  c.located span (Typed.requireTemporal "time arithmetic" base)
  c.located span (Typed.offset base (← amount) unit backwards)

mutual

def expr (c : Context σ) : Document.Expr → M σ Typed
  | ⟨kind, span⟩ => exprKind c span kind

def exprKind (c : Context σ) (span : Span) : Document.ExprKind → M σ Typed
  | .number text => pure (.ofLiteral (.number text))
  | .string text => pure (.ofLiteral (.string text))
  | .boolean value => pure (.ofLiteral (.boolean value))
  | .null => pure (.ofLiteral .null)
  | .time text => do
    let (literal, _) ← timeLiteral c text span
    return .ofLiteral literal
  | .now => pure (.scalar .now .timestamp)
  | .field path => do
    let reference ← c.refer path
    c.located path.span (Typed.ofReference path.names path.text reference)
  | .unary op operand => do c.located span (Typed.unary op (← expr c operand))
  | .binary op left right => do
    let l ← expr c left
    match nullTest? op right.kind with
    | some negated => return l.isNull negated
    | none => operation c span op l right
  | .aggregate function source arg => do aggregateOf c function source (← exprOption c arg) span
  | .filtered inner filters => do
    let inner ← expr c inner
    if !inner.isAggregate then c.fail span (.aggregation .filteredScalar)
    return inner.filtered (← conditions c filters)
  | .pick arms otherwise => do
    let (arms, type) ← pickArms c .null arms
    let (otherwise, type) ← pickOtherwise c type otherwise
    c.located span (Typed.pick arms otherwise type)
  | .cast inner type safe => do return (← expr c inner).cast type safe
  | .truncate inner unit => do c.located span (Typed.truncate unit (← expr c inner))
  | .extract unit inner => do c.located span (Typed.extract unit (← expr c inner))
  | .duration _ _ => c.fail span (.typing .strayDuration)
  | .range _ _ => c.fail span (.typing .strayRange)
  | .apply value pattern => do matching c (← expr c value) pattern
  | .isNull inner negated => do return (← expr c inner).isNull negated
  | .isIn inner values negated => do
    let inner ← expr c inner
    c.located span (inner.isIn (← members c inner values) negated)
  | .ungroup kind inner fields => do
    c.located span (Typed.ungroup kind (fields.map Spanned.node) (← expr c inner))
  | .call name args => do
    match ScalarFunction.ofName? name.node with
    | none => c.fail name.span (.undefinedEntity .function name.node)
    | some function =>
      if !function.accepts args.length then
        c.fail span (.typing (.argumentCount name.node function args.length))
      c.located span (Typed.call function (← exprList c args))

def operation (c : Context σ) (span : Span) (op : BinaryOp) (l : Typed) : Document.Expr → M σ Typed
  | ⟨.duration amount unit, rightSpan⟩ =>
    match moves? op with
    | some backwards => moved c span l (expr c amount) unit backwards
    | none => c.fail rightSpan (.typing .strayDuration)
  | ⟨kind, rightSpan⟩ => do c.located span (Typed.binary op l (← exprKind c rightSpan kind))

def matching (c : Context σ) (value : Typed) : Document.Expr → M σ Typed
  | ⟨.range start stop, span⟩ => do
    let start ← expr c start
    let stop ← rangeStop c span start stop
    c.located span (value.halfOpen start stop)
  | ⟨.time text, span⟩ => do
    let (literal, unit) ← timeLiteral c text span
    c.located span (value.matchesTime literal unit)
  | ⟨.binary .and left right, span⟩ => do
    let l ← matching c value left
    let r ← matching c value right
    c.located span (Typed.build (.binary .and l.expr r.expr) .boolean [l, r])
  | ⟨.binary .or left right, span⟩ => do
    let l ← matching c value left
    let r ← matching c value right
    c.located span (Typed.build (.binary .or l.expr r.expr) .boolean [l, r])
  | ⟨.null, _⟩ => pure (value.isNull false)
  | ⟨kind, span⟩ => do c.located span (Typed.compare .eq value (← exprKind c span kind))

def rangeStop (c : Context σ) (span : Span) (start : Typed) : Document.Expr → M σ Typed
  | ⟨.duration amount unit, _⟩ => moved c span start (expr c amount) unit false
  | ⟨kind, stopSpan⟩ => exprKind c stopSpan kind

def exprOption (c : Context σ) : Option Document.Expr → M σ (Option Typed)
  | none => pure none
  | some e => do return some (← expr c e)

def exprList (c : Context σ) : List Document.Expr → M σ (List Typed)
  | [] => pure []
  | e :: rest => do
    let first ← expr c e
    return first :: (← exprList c rest)

def conditions (c : Context σ) : List Document.Expr → M σ (List Typed)
  | [] => pure []
  | ⟨kind, span⟩ :: rest => do
    let condition ← exprKind c span kind
    let condition ← c.located span condition.rowCondition
    return condition :: (← conditions c rest)

def members (c : Context σ) (target : Typed) : List Document.Expr → M σ (List Typed)
  | [] => pure []
  | ⟨kind, span⟩ :: rest => do
    let value ← exprKind c span kind
    if !target.type.isCompatible value.type then
      c.fail span (.typing (.mixedList target.type value.type))
    return value :: (← members c target rest)

def pickArms (c : Context σ) (type : AtomicType) :
    List Document.PickArm → M σ (List (Typed × Typed) × AtomicType)
  | [] => pure ([], type)
  | ⟨⟨valueKind, valueSpan⟩, ⟨conditionKind, conditionSpan⟩⟩ :: rest => do
    let condition ← exprKind c conditionSpan conditionKind
    if !condition.type.fits .boolean then
      c.fail conditionSpan (.typing (.whenNotBoolean condition.type))
    let value ← exprKind c valueSpan valueKind
    let type ← c.located valueSpan (Typed.pickType type value)
    let (arms, type) ← pickArms c type rest
    return ((condition, value) :: arms, type)

def pickOtherwise (c : Context σ) (type : AtomicType) :
    Option Document.Expr → M σ (Option Typed × AtomicType)
  | none => pure (none, type)
  | some ⟨kind, span⟩ => do
    let value ← exprKind c span kind
    let type ← c.located span (Typed.pickType type value)
    return (some value, type)

end

end SemanticLayer.Elaborate
