import SemanticLayer.Sql.Tree

/-!
Nested results in SQL: one expression that collects the rows of another query into a list.
-/
namespace SemanticLayer.Dialect

structure NestSource where
  cte : String
  label : String
  fields : List String
  predicate : Option Sql.Expr
  orderColumn : String

def commaSeparated : List Sql.Expr → List Sql.Expr
  | [] => []
  | [e] => [e]
  | e :: rest => e :: .raw ", " :: commaSeparated rest

namespace NestSource

def column (n : NestSource) (field : String) : Sql.Expr := .ofTable n.label field

def orderTerm (n : NestSource) : Sql.Expr := .ofTable n.label n.orderColumn

def keysAndValues (n : NestSource) : List Sql.Expr :=
  n.fields.flatMap fun field => [.string field, n.column field]

def select (n : NestSource) (aggregate : Sql.Expr) : Sql.Expr :=
  .subquery
    { Sql.Query.empty with
      items := [⟨aggregate, none⟩]
      source := some ⟨.cte n.cte, some n.label⟩
      condition := n.predicate }

end NestSource

def nest (d : Dialect) (n : NestSource) : Except Unsupported Sql.Expr :=
  match d with
  | duckdb =>
    let pairs := n.fields.map fun field =>
      Sql.Expr.sequence [.ofColumn field, .raw " := ", n.column field]
    .ok (n.select (.sequence ([.raw "LIST(STRUCT_PACK("] ++ commaSeparated pairs
      ++ [.raw ") ORDER BY ", n.orderTerm, .raw ")"])))
  | postgres =>
    .ok (n.select (.sequence [.raw "JSONB_AGG(", .fn "JSONB_BUILD_OBJECT" n.keysAndValues,
      .raw " ORDER BY ", n.orderTerm, .raw ")"]))
  | bigquery =>
    .ok (.sequence ([.raw "ARRAY(SELECT AS STRUCT "] ++ commaSeparated (n.fields.map n.column)
      ++ [.raw " FROM ", .ofColumn n.cte, .raw " AS ", .ofColumn n.label]
      ++ (match n.predicate with
          | some predicate => [.raw " WHERE ", predicate]
          | none => [])
      ++ [.raw " ORDER BY ", n.orderTerm, .raw ")"]))
  | snowflake =>
    .ok (n.select (.sequence [.raw "ARRAY_AGG(", .fn "OBJECT_CONSTRUCT_KEEP_NULL" n.keysAndValues,
      .raw ") WITHIN GROUP (ORDER BY ", n.orderTerm, .raw ")"]))
  | mysql => .error ⟨d, .nestedResults⟩

end SemanticLayer.Dialect
