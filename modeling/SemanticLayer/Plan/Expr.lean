import SemanticLayer.Dialect.Aggregate
import SemanticLayer.Dialect.Time
import SemanticLayer.Dialect.Value
import SemanticLayer.Plan.JoinTree

/-!
Expressions of a model in SQL, against the joins of one `SELECT`. A column is read through the alias of
its join path. An aggregate whose rows can be repeated by another join counts or sums each row of its
relation once, by a key of the relation.
-/
namespace SemanticLayer.Plan

def distinctKeyColumn : String := "__distinct_key"

def ungroupColumn : String := "__value"

def operation (op : Sql.BinaryOp) (left right : Sql.Expr) : Sql.Expr :=
  .binary op left.parenthesized right.parenthesized

def allOf? : List Sql.Expr → Option Sql.Expr
  | [] => none
  | e :: rest => some (rest.foldl (operation .and) e)

structure UngroupFrame where
  dimensions : List (String × Sql.Expr)
  parents : List Sql.Expr

structure Ungroup where
  label : String
  partition : List Sql.Expr
  value : Sql.Expr

structure Compilation where
  keyed : JoinPaths
  filters : List Sql.Expr
  frame : Option UngroupFrame
  ungroups : List Ungroup

def Compilation.empty : Compilation := ⟨[], [], none, []⟩

abbrev CompileM := ExceptT Fault (StateM Compilation)

structure Target where
  dialect : Dialect
  tree : JoinTree

namespace CompileM

def ofExcept (result : Except Fault α) : CompileM α := ExceptT.mk (pure result)

def ofDialect (result : Except Unsupported α) : CompileM α :=
  ofExcept (result.mapError Fault.unsupported)

def withFilter (condition : Sql.Expr) (action : CompileM α) : CompileM α := ExceptT.mk do
  let before := (← get).filters
  modify fun s => { s with filters := s.filters ++ [condition] }
  let result ← action.run
  modify fun s => { s with filters := before }
  return result

def withoutFrame (action : CompileM α) : CompileM α := ExceptT.mk do
  let before := (← get).frame
  modify fun s => { s with frame := none }
  let result ← action.run
  modify fun s => { s with frame := before }
  return result

end CompileM

abbrev CompileAt := List String → Namespace → Expr → CompileM Sql.Expr

def compileField (follow : CompileAt) (place : List String) (ns : Namespace) (path : List String) :
    CompileM Sql.Expr := do
  let (joinPath, owner, definition) ← CompileM.ofExcept (definitionOf ns path)
  follow (place ++ joinPath) owner definition

def distinctKey (t : Target) (follow : CompileAt) (path : List String) : CompileM Sql.Expr := do
  match ← CompileM.ofExcept (t.tree.keyAt path) with
  | some key =>
    let ns ← CompileM.ofExcept (t.tree.fieldsAt path)
    compileField follow path ns [key]
  | none =>
    modify fun s => { s with keyed := s.keyed.insert path }
    return .ofTable (aliasOf path) distinctKeyColumn

def guarded (condition : Option Sql.Expr) (value : Sql.Expr) : Sql.Expr :=
  match condition with
  | some condition => .caseWhen condition value
  | none => value

def compileAggregate (t : Target) (follow : CompileAt) (function : AggregateFunction)
    (path : List String) (arg : Option Sql.Expr) : CompileM Sql.Expr := do
  let condition := allOf? (← get).filters
  let symmetric := function.isFanoutSensitive && t.tree.fansOut path
  match function, symmetric with
  | .count, true => return .countDistinct (guarded condition (← distinctKey t follow path))
  | .count, false =>
    -- Unmatched rows of a left join have no key, so counting keys leaves them out.
    if !path.isEmpty then return .fn "COUNT" [guarded condition (← distinctKey t follow path)]
    else return Dialect.plainAggregate function (condition.map fun c => .caseWhen c (.int 1))
  | .sum, true | .avg, true =>
    let key ← distinctKey t follow path
    match arg with
    | some value => return t.dialect.sumDistinct key value condition (function == .avg)
    | none => throw (.aggregation (.withoutArgument function))
  | _, _ => return Dialect.plainAggregate function (arg.map (guarded condition))

def compileBinary (op : BinaryOp) (left right : Sql.Expr) : Sql.Expr :=
  match op with
  | .coalesce => .coalesce [left, right]
  -- Values differ where one of them is null.
  | .ne => .coalesce [operation .ne left right, .literal (.bool true)]
  | .add => operation .add left right
  | .sub => operation .sub left right
  | .mul => operation .mul left right
  | .div => operation .div left right
  | .mod => operation .mod left right
  | .eq => operation .eq left right
  | .lt => operation .lt left right
  | .lte => operation .lte left right
  | .gt => operation .gt left right
  | .gte => operation .gte left right
  | .and => operation .and left right
  | .or => operation .or left right
  | .like => operation .like left right
  | .notLike => operation .notLike left right

def compileUnary (op : UnaryOp) (operand : Sql.Expr) : Sql.Expr :=
  match op with
  | .not => .unary .not operand.parenthesized
  | .neg => .unary .neg operand.parenthesized

/-- What a widened aggregate is partitioned by: the keys of the enclosing rows, and the dimensions that
are kept. -/
def partitionOf (frame : UngroupFrame) (kind : UngroupKind) (fields : List String) : List Sql.Expr :=
  let kept := frame.dimensions.filter fun (name, _) =>
    match kind with
    | .all => fields.contains name
    | .exclude => !fields.contains name
  frame.parents ++ kept.map Prod.snd

def compileUngroup (kind : UngroupKind) (fields : List String) (inner : CompileM Sql.Expr) :
    CompileM Sql.Expr := do
  match (← get).frame with
  | none => throw (.stage .strayUngroup)
  | some frame =>
    match fields.find? fun name => !frame.dimensions.any fun (d, _) => d == name with
    | some name => throw (.undefinedField name)
    | none =>
      let value ← CompileM.withoutFrame inner
      let label := s!"__u{(← get).ungroups.length}"
      modify fun s => { s with ungroups := s.ungroups ++ [⟨label, partitionOf frame kind fields, value⟩] }
      return .fn "MAX" [.ofTable label ungroupColumn]

mutual

def compile (t : Target) (follow : CompileAt) (place : List String) (ns : Namespace) :
    Expr → CompileM Sql.Expr
  | .literal l => pure (Dialect.literal l)
  | .column name => pure (.ofTable (aliasOf place) name)
  | .field path => compileField follow place ns path
  | .now => pure t.dialect.now
  | .unary op a => do return compileUnary op (← compile t follow place ns a)
  | .binary op a b => do
    let left ← compile t follow place ns a
    let right ← compile t follow place ns b
    return compileBinary op left right
  | .aggregate function locality arg => do
    let arg ← compileOption t follow place ns arg
    compileAggregate t follow function (place ++ locality) arg
  | .filtered e filter => do
    let condition ← compile t follow place ns filter
    CompileM.withFilter condition (compile t follow place ns e)
  | .choose arms otherwise => do
    let arms ← compileArms t follow place ns arms
    return .choose none arms (← compileOption t follow place ns otherwise)
  | .cast e type safe => do
    CompileM.ofDialect (t.dialect.cast (← compile t follow place ns e) type safe)
  | .truncate e unit type => do
    return t.dialect.timeTruncate (← compile t follow place ns e) unit type
  | .extract e unit => do return t.dialect.timeExtract (← compile t follow place ns e) unit
  | .offset e amount unit type subtract => do
    let base ← compile t follow place ns e
    return t.dialect.timeOffset base subtract (← compile t follow place ns amount) unit type
  | .isNull e negated => do return .isNull (← compile t follow place ns e).parenthesized negated
  | .isIn e values negated => do
    let target ← compile t follow place ns e
    return .isIn target.parenthesized (← compileList t follow place ns values) negated
  | .ungroup kind e fields => compileUngroup kind fields (compile t follow place ns e)
  | .call function args => do return .fn function.sqlName (← compileList t follow place ns args)

def compileOption (t : Target) (follow : CompileAt) (place : List String) (ns : Namespace) :
    Option Expr → CompileM (Option Sql.Expr)
  | none => pure none
  | some e => do return some (← compile t follow place ns e)

def compileList (t : Target) (follow : CompileAt) (place : List String) (ns : Namespace) :
    List Expr → CompileM (List Sql.Expr)
  | [] => pure []
  | e :: rest => do
    let first ← compile t follow place ns e
    return first :: (← compileList t follow place ns rest)

def compileArms (t : Target) (follow : CompileAt) (place : List String) (ns : Namespace) :
    List (Expr × Expr) → CompileM (List (Sql.Expr × Sql.Expr))
  | [] => pure []
  | (condition, value) :: rest => do
    let condition ← compile t follow place ns condition
    let value ← compile t follow place ns value
    return (condition, value) :: (← compileArms t follow place ns rest)

end

namespace Target

def compileWithin (t : Target) : Nat → CompileAt
  | 0, place, _, _ => throw (.circularDefinition (dotted place))
  | depth + 1, place, ns, e => compile t (t.compileWithin depth) place ns e

/-- A chain of definitions visits no field twice, and it can go over to a primary key once. -/
def depth (t : Target) : Nat := 2 * t.tree.root.size + 2

def compileAt (t : Target) (place : List String) (ns : Namespace) (e : Expr) : CompileM Sql.Expr :=
  t.compileWithin t.depth place ns e

def compileRoot (t : Target) (e : Expr) : CompileM Sql.Expr := t.compileAt [] t.tree.root e

end Target

end SemanticLayer.Plan
