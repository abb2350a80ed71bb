import SemanticLayer.Vocabulary

/-!
Typed expressions of a model: names are resolved, time literals are typed, and the place where an
aggregate is computed is fixed. References to fields stay relative to the source that owns the
expression.
-/
namespace SemanticLayer

inductive Literal where
  | number (text : String)
  | string (text : String)
  | boolean (value : Bool)
  | null
  | date (text : String)
  | timestamp (text : String)
  deriving DecidableEq, Repr

def Literal.type : Literal → AtomicType
  | number _ => .number
  | string _ => .string
  | boolean _ => .boolean
  | null => .null
  | date _ => .date
  | timestamp _ => .timestamp

inductive ScalarFunction where
  | concat | lower | upper | length | trim | substr | round | floor | ceil | abs | coalesce | nullif
  deriving DecidableEq, Repr

namespace ScalarFunction

def sqlName : ScalarFunction → String
  | concat => "CONCAT"
  | lower => "LOWER"
  | upper => "UPPER"
  | length => "LENGTH"
  | trim => "TRIM"
  | substr => "SUBSTR"
  | round => "ROUND"
  | floor => "FLOOR"
  | ceil => "CEIL"
  | abs => "ABS"
  | coalesce => "COALESCE"
  | nullif => "NULLIF"

instance : Named ScalarFunction :=
  ⟨[concat, lower, upper, length, trim, substr, round, floor, ceil, abs, coalesce, nullif], sqlName⟩

def ofName? (name : String) : Option ScalarFunction :=
  match name.toLower with
  | "concat" => some concat
  | "lower" => some lower
  | "upper" => some upper
  | "length" => some length
  | "trim" => some trim
  | "substr" | "substring" => some substr
  | "round" => some round
  | "floor" => some floor
  | "ceil" | "ceiling" => some ceil
  | "abs" => some abs
  | "coalesce" => some coalesce
  | "nullif" => some nullif
  | _ => none

def arity : ScalarFunction → Nat × Option Nat
  | concat | coalesce => (1, none)
  | substr => (2, some 3)
  | round => (1, some 2)
  | nullif => (2, some 2)
  | _ => (1, some 1)

def accepts (f : ScalarFunction) (count : Nat) : Bool :=
  f.arity.1 ≤ count && f.arity.2.all (count ≤ ·)

def resultType (f : ScalarFunction) (first : AtomicType) : AtomicType :=
  match f with
  | concat | lower | upper | trim | substr => .string
  | length | round | floor | ceil | abs => .number
  | coalesce | nullif => first

end ScalarFunction

inductive Expr where
  | literal (value : Literal)
  | column (name : String)
  | field (path : List String)
  | now
  | unary (op : UnaryOp) (operand : Expr)
  | binary (op : BinaryOp) (left right : Expr)
  /-- An aggregate computed at the join path `locality`. -/
  | aggregate (function : AggregateFunction) (locality : List String) (arg : Option Expr)
  | filtered (expr filter : Expr)
  | choose (arms : List (Expr × Expr)) (otherwise : Option Expr)
  | cast (expr : Expr) (type : AtomicType) (safe : Bool)
  | truncate (expr : Expr) (unit : TimeUnit) (type : AtomicType)
  | extract (expr : Expr) (unit : ExtractUnit)
  | offset (expr amount : Expr) (unit : TimeUnit) (type : AtomicType) (subtract : Bool)
  | isNull (expr : Expr) (negated : Bool)
  | isIn (expr : Expr) (values : List Expr) (negated : Bool)
  | ungroup (kind : UngroupKind) (expr : Expr) (fields : List String)
  | call (function : ScalarFunction) (args : List Expr)

namespace Expr

def number (text : String) : Expr := .literal (.number text)

def and (a b : Expr) : Expr := .binary .and a b

def conjunction? : List Expr → Option Expr
  | [] => none
  | e :: rest => some (rest.foldl and e)

mutual

def any (test : Expr → Bool) (e : Expr) : Bool :=
  test e ||
    match e with
    | .literal _ | .column _ | .field _ | .now => false
    | .unary _ a | .cast a _ _ | .truncate a _ _ | .extract a _ | .isNull a _ | .ungroup _ a _ =>
      any test a
    | .binary _ a b | .filtered a b | .offset a b _ _ _ => any test a || any test b
    | .aggregate _ _ arg => anyOption test arg
    | .choose arms otherwise => anyArm test arms || anyOption test otherwise
    | .isIn a values _ => any test a || anyList test values
    | .call _ args => anyList test args

def anyOption (test : Expr → Bool) : Option Expr → Bool
  | none => false
  | some e => any test e

def anyList (test : Expr → Bool) : List Expr → Bool
  | [] => false
  | e :: rest => any test e || anyList test rest

def anyArm (test : Expr → Bool) : List (Expr × Expr) → Bool
  | [] => false
  | (condition, value) :: rest => any test condition || any test value || anyArm test rest

end

def isAggregate : Expr → Bool
  | .aggregate _ _ _ => true
  | _ => false

def isUngroup : Expr → Bool
  | .ungroup _ _ _ => true
  | _ => false

def containsAggregate (e : Expr) : Bool := e.any isAggregate

def containsUngroup (e : Expr) : Bool := e.any isUngroup

end Expr

end SemanticLayer
