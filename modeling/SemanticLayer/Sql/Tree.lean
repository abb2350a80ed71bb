import SemanticLayer.Dialect.Conventions

/-!
The tree of a SQL statement. Planning and the dialects build it; how it is spelled is decided where
it becomes tokens.
-/
namespace SemanticLayer.Sql

open Dialect (CastKind)

inductive Literal where
  | int (value : Int)
  | float (value : Float)
  | number (text : String)
  | string (text : String)
  | bool (value : Bool)
  | null

inductive BinaryOp where
  | eq | ne | lt | gt | lte | gte | and | or | add | sub | mul | div | mod | concat | like | notLike
  deriving DecidableEq, Repr

inductive UnaryOp where
  | not | neg
  deriving DecidableEq, Repr

inductive NullsOrder where
  | first | last
  deriving DecidableEq, Repr

/-- Joins keep every row of the left side; a cross join has no condition. -/
inductive JoinType where
  | left | cross
  deriving DecidableEq, Repr

mutual

inductive Expr where
  | column (table : Option String) (name : String)
  | literal (value : Literal)
  | binary (op : BinaryOp) (left right : Expr)
  | unary (op : UnaryOp) (operand : Expr)
  | call (function : String) (args : List Expr) (distinct : Bool)
  | choose (operand : Option Expr) (arms : List (Expr × Expr)) (otherwise : Option Expr)
  | subquery (query : Query)
  | isIn (expr : Expr) (values : List Expr) (negated : Bool)
  | isNull (expr : Expr) (negated : Bool)
  | nullSafeEq (left right : Expr)
  | cast (expr : Expr) (type : String) (kind : CastKind)
  | star (table : Option String)
  | paren (expr : Expr)
  | window (function : Expr) (partitionBy : List Expr) (orderBy : List OrderTerm)
  /-- Parts written back to back, for forms that have no constructor of their own. -/
  | sequence (parts : List Expr)
  /-- Fixed text of a dialect; values of a model never stand here. -/
  | raw (text : String)

structure OrderTerm where
  expr : Expr
  direction : SortDirection
  nulls : Option NullsOrder

structure SelectItem where
  expr : Expr
  label : Option String

inductive Relation where
  | table (path : String)
  | cte (name : String)
  | subquery (query : Query)
  | raw (text : String)

structure TableRef where
  relation : Relation
  label : Option String

structure Join where
  type : JoinType
  table : TableRef
  condition : Option Expr

structure Cte where
  name : String
  query : Query

/-- A `SELECT`, or the queries of `unions` under `UNION ALL` where there are any; then everything else
but `ctes`, `orderBy` and `limit` is unused. -/
structure Query where
  ctes : List Cte
  items : List SelectItem
  source : Option TableRef
  joins : List Join
  condition : Option Expr
  groupBy : List Expr
  having : Option Expr
  orderBy : List OrderTerm
  limit : Option Nat
  unions : List Query

end

namespace Expr

def ofColumn (name : String) : Expr := .column none name

def ofTable (table name : String) : Expr := .column (some table) name

def int (n : Int) : Expr := .literal (.int n)

def string (s : String) : Expr := .literal (.string s)

def fn (function : String) (args : List Expr) : Expr := .call function args false

def countDistinct (e : Expr) : Expr := .call "COUNT" [e] true

def sumDistinct (e : Expr) : Expr := .call "SUM" [e] true

def coalesce (args : List Expr) : Expr := fn "COALESCE" args

def plainCast (e : Expr) (type : String) : Expr := .cast e type .cast

def caseWhen (condition value : Expr) : Expr := .choose none [(condition, value)] none

def isNotNull (e : Expr) : Expr := .isNull e true

def and (a b : Expr) : Expr := .binary .and a b

def rowNumber (partitionBy : List Expr) (orderBy : List OrderTerm) : Expr :=
  .window (fn "ROW_NUMBER" []) partitionBy orderBy

/-- Wraps an expression in parentheses unless nothing around it could tear it apart. -/
def parenthesized (e : Expr) : Expr :=
  match e with
  | .column .. | .literal .. | .call .. | .paren .. | .subquery .. | .star .. | .cast ..
  | .choose .. => e
  | _ => .paren e

end Expr

namespace OrderTerm

def asc (e : Expr) : OrderTerm := ⟨e, .asc, none⟩

end OrderTerm

namespace SelectItem

def named (e : Expr) (name : String) : SelectItem := ⟨e, some name⟩

end SelectItem

namespace Query

def empty : Query := ⟨[], [], none, [], none, [], none, [], none, []⟩

def conjoin (existing : Option Expr) (condition : Expr) : Option Expr :=
  match existing with
  | some e => some (e.and condition)
  | none => some condition

def filter (q : Query) (condition : Expr) : Query :=
  { q with condition := conjoin q.condition condition }

def filterGroups (q : Query) (condition : Expr) : Query :=
  { q with having := conjoin q.having condition }

end Query

end SemanticLayer.Sql
