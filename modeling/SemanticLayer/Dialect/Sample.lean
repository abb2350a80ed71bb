import SemanticLayer.Dialect.Basic
import SemanticLayer.Model.Sampling
import SemanticLayer.Decimal.Notation

/-!
Table samples in SQL.
-/
namespace SemanticLayer.Dialect

inductive SampleSize where
  | rows (count : Nat)
  | percent (share : Float)

def standardSample : Dialect → SampleSize
  | bigquery => .percent 10.0
  | _ => .rows 50000

def sampleSize (d : Dialect) : Sampling → SampleSize
  | .standard => d.standardSample
  | .rows count => .rows count
  | .percent share => .percent share

def sample (d : Dialect) (relation : String) (sampling : Sampling) : Except Unsupported String :=
  let read := "SELECT * FROM " ++ relation
  match d, d.sampleSize sampling with
  | duckdb, .rows n => .ok (read ++ " USING SAMPLE " ++ toString n ++ " ROWS")
  | duckdb, .percent p =>
    .ok (read ++ " USING SAMPLE " ++ Decimal.plainText p ++ " PERCENT (bernoulli)")
  | postgres, .rows n => .ok (read ++ " ORDER BY RANDOM() LIMIT " ++ toString n)
  | postgres, .percent p => .ok (read ++ " WHERE RANDOM() < " ++ Decimal.plainText (p / 100.0))
  | bigquery, .percent p =>
    .ok (read ++ " TABLESAMPLE SYSTEM (" ++ Decimal.plainText p ++ " PERCENT)")
  | bigquery, .rows _ => .error ⟨d, .rowSampling⟩
  | snowflake, .rows n => .ok (read ++ " SAMPLE (" ++ toString n ++ " ROWS)")
  | snowflake, .percent p => .ok (read ++ " SAMPLE (" ++ Decimal.plainText p ++ ")")
  | mysql, _ => .error ⟨d, .sampling⟩

end SemanticLayer.Dialect
