import SemanticLayer.Vocabulary

/-!
The SQL dialects, their names, and the operations that one of them lacks.
-/
namespace SemanticLayer

inductive Dialect where
  | duckdb | postgres | bigquery | snowflake | mysql
  deriving DecidableEq, Repr, Inhabited

namespace Dialect

def all : List Dialect := [duckdb, postgres, bigquery, snowflake, mysql]

def name : Dialect → String
  | duckdb => "duckdb"
  | postgres => "postgres"
  | bigquery => "bigquery"
  | snowflake => "snowflake"
  | mysql => "mysql"

instance : Named Dialect := ⟨all, name⟩

/-- The dialect that a person names: aliases are understood, and upper and lower case ASCII letters are
the same. -/
def ofAlias? (text : String) : Option Dialect :=
  match text.toLower with
  | "duckdb" | "duck" => some duckdb
  | "postgres" | "postgresql" | "pg" => some postgres
  | "bigquery" | "bq" | "standardsql" => some bigquery
  | "snowflake" => some snowflake
  | "mysql" => some mysql
  | _ => none

def unknownMessage (text : String) : String :=
  s!"unknown dialect '{text}' (expected duckdb, postgres, bigquery, snowflake or mysql)"

inductive Feature where
  | safeCast | nestedResults | rowSampling | sampling
  deriving DecidableEq, Repr

def Feature.name : Feature → String
  | safeCast => "safe cast"
  | nestedResults => "nested results"
  | rowSampling => "row sampling"
  | sampling => "sampling"

end Dialect

structure Unsupported where
  dialect : Dialect
  feature : Dialect.Feature
  deriving DecidableEq, Repr

def Unsupported.message (u : Unsupported) : String :=
  u.dialect.name ++ " does not support " ++ u.feature.name

end SemanticLayer
