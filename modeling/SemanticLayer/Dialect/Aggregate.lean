import SemanticLayer.Sql.Tree

/-!
Aggregates in SQL, plain and symmetric.

A symmetric sum counts every distinct key once, however often a join repeats its row. Each row
contributes `hash + value`, where `hash` is a large number derived from the row's key, and
`SUM(DISTINCT hash + value) - SUM(DISTINCT hash)` adds each key's value exactly once.
-/
namespace SemanticLayer.Dialect

/-- An aggregate over the current rows, of the constant one where no argument is given. A sum of no
rows is zero. -/
def plainAggregate (function : AggregateFunction) (arg : Option Sql.Expr) : Sql.Expr :=
  let arg := arg.getD (.int 1)
  match function with
  | .count => .fn "COUNT" [arg]
  | .countDistinct => .countDistinct arg
  | .sum => .coalesce [.fn "SUM" [arg], .int 0]
  | .avg => .fn "AVG" [arg]
  | .min => .fn "MIN" [arg]
  | .max => .fn "MAX" [arg]

structure SymmetricSum where
  hash : Sql.Expr
  value : Sql.Expr
  resultType : String
  scale : Option Int

namespace SymmetricSum

def matching (filter : Option Sql.Expr) (term : Sql.Expr) : Sql.Expr :=
  match filter with
  | some condition => .caseWhen condition term
  | none => term

def total (s : SymmetricSum) (filter : Option Sql.Expr) : Sql.Expr :=
  let withValue := Sql.Expr.sumDistinct (matching filter (.binary .add s.hash s.value))
  let withoutValue := Sql.Expr.sumDistinct (matching filter s.hash)
  let difference := Sql.Expr.plainCast (.binary .sub withValue withoutValue) s.resultType
  match s.scale with
  | some scale => .binary .div difference (.int scale)
  | none => difference

def present (value : Sql.Expr) (filter : Option Sql.Expr) : Sql.Expr :=
  match filter with
  | some condition => value.isNotNull.and condition.parenthesized
  | none => value.isNotNull

def render (s : SymmetricSum) (key value : Sql.Expr) (filter : Option Sql.Expr) (average : Bool) : Sql.Expr :=
  if average then
    let counted := Sql.Expr.countDistinct (.caseWhen (present value filter) key)
    .binary .div (s.total filter).parenthesized (.fn "NULLIF" [counted, .int 0])
  else .coalesce [s.total filter, .int 0]

end SymmetricSum

def integerScale : Int := 1000000000

def orZero (value : Sql.Expr) : Sql.Expr := .coalesce [value, .int 0]

def leadingHex (text : Sql.Expr) : Sql.Expr := .fn "SUBSTR" [text, .int 1, .int 15]

def symmetricSum (d : Dialect) (key value : Sql.Expr) : SymmetricSum :=
  match d with
  | duckdb =>
    { hash := .binary .mul (.plainCast (.fn "HASH" [key]) "HUGEINT") (.int integerScale)
      value := .plainCast (.fn "ROUND" [.binary .mul (orZero value) (.int integerScale)]) "HUGEINT"
      resultType := "DOUBLE", scale := some integerScale }
  | postgres =>
    let hex := Sql.Expr.binary .concat (.string "x") (leadingHex (.fn "MD5" [.plainCast key "TEXT"]))
    { hash := .plainCast (.plainCast (.plainCast hex "BIT(60)") "BIGINT") "DECIMAL(65, 0)"
      value := .plainCast (orZero value) "DECIMAL(65, 9)"
      resultType := "DOUBLE PRECISION", scale := none }
  | bigquery =>
    let hex := Sql.Expr.fn "CONCAT"
      [.string "0x", leadingHex (.fn "TO_HEX" [.fn "MD5" [.plainCast key "STRING"]])]
    { hash := .plainCast (.plainCast hex "INT64") "NUMERIC"
      value := .plainCast (orZero value) "NUMERIC"
      resultType := "FLOAT64", scale := none }
  | snowflake =>
    let hash := Sql.Expr.fn "TO_NUMBER"
      [leadingHex (.fn "MD5_HEX" [.plainCast key "VARCHAR"]), .string "XXXXXXXXXXXXXXX"]
    { hash := .plainCast hash "NUMBER(38, 0)"
      value := .plainCast (orZero value) "NUMBER(38, 9)"
      resultType := "DOUBLE", scale := none }
  | mysql =>
    { hash := .plainCast (.fn "CONV" [leadingHex (.fn "MD5" [key]), .int 16, .int 10]) "DECIMAL(38, 0)"
      value := .plainCast (orZero value) "DECIMAL(38, 9)"
      resultType := "DOUBLE", scale := none }

/-- The sum or average of `value` in which each distinct `key` counts once. Rows that fail the filter
contribute neither value nor key. -/
def sumDistinct (d : Dialect) (key value : Sql.Expr) (filter : Option Sql.Expr) (average : Bool) : Sql.Expr :=
  (d.symmetricSum key value).render key value filter average

def distinctKey : Sql.Expr := .fn "GEN_RANDOM_UUID" []

end SemanticLayer.Dialect
