import SemanticLayer.Dialect.Basic
import SemanticLayer.Text.Upper

/-!
What each dialect writes differently at the level of single words: quoting, type names, operators and
renamed functions. One record per dialect holds all of it.
-/
namespace SemanticLayer.Dialect

inductive StringEscape where
  | doubled
  | backslash
  deriving DecidableEq, Repr

inductive CastKind where
  | cast | tryCast | safeCast
  deriving DecidableEq, Repr

def CastKind.keyword : CastKind → String
  | cast => "CAST"
  | tryCast => "TRY_CAST"
  | safeCast => "SAFE_CAST"

structure Conventions where
  identifierQuote : Char
  wholePath : Bool
  stringEscape : StringEscape
  nullsOrdering : Bool
  concatOperator : Bool
  nullSafeEq : String
  renamed : List (String × String)
  textType : String
  numberType : String
  booleanType : String
  timestampType : String
  safeCast : Option CastKind

def conventions : Dialect → Conventions
  | duckdb =>
    { identifierQuote := '\x22', wholePath := false, stringEscape := .doubled
      nullsOrdering := true, concatOperator := true, nullSafeEq := "IS NOT DISTINCT FROM"
      renamed := []
      textType := "VARCHAR", numberType := "DOUBLE", booleanType := "BOOLEAN"
      timestampType := "TIMESTAMP", safeCast := some .tryCast }
  | postgres =>
    { identifierQuote := '\x22', wholePath := false, stringEscape := .doubled
      nullsOrdering := true, concatOperator := true, nullSafeEq := "IS NOT DISTINCT FROM"
      renamed := []
      textType := "TEXT", numberType := "DOUBLE PRECISION", booleanType := "BOOLEAN"
      timestampType := "TIMESTAMP", safeCast := none }
  | bigquery =>
    { identifierQuote := '\x60', wholePath := true, stringEscape := .backslash
      nullsOrdering := true, concatOperator := true, nullSafeEq := "IS NOT DISTINCT FROM"
      renamed := [("GEN_RANDOM_UUID", "GENERATE_UUID"), ("CEILING", "CEIL")]
      textType := "STRING", numberType := "FLOAT64", booleanType := "BOOL"
      timestampType := "TIMESTAMP", safeCast := some .safeCast }
  | snowflake =>
    { identifierQuote := '\x22', wholePath := false, stringEscape := .doubled
      nullsOrdering := true, concatOperator := true, nullSafeEq := "IS NOT DISTINCT FROM"
      renamed := [("GEN_RANDOM_UUID", "UUID_STRING")]
      textType := "VARCHAR", numberType := "DOUBLE", booleanType := "BOOLEAN"
      timestampType := "TIMESTAMP_NTZ", safeCast := some .tryCast }
  | mysql =>
    { identifierQuote := '\x60', wholePath := false, stringEscape := .backslash
      nullsOrdering := false, concatOperator := false, nullSafeEq := "<=>"
      renamed := [("LENGTH", "CHAR_LENGTH"), ("GEN_RANDOM_UUID", "UUID")]
      textType := "CHAR", numberType := "DOUBLE", booleanType := "SIGNED"
      timestampType := "DATETIME", safeCast := none }

def doubling (quote : Char) : List Char → List Char
  | [] => []
  | c :: rest => if c = quote then quote :: quote :: doubling quote rest else c :: doubling quote rest

def backslashing : List Char → List Char
  | [] => []
  | c :: rest =>
    if c = '\x27' || c = '\x5c' then '\x5c' :: c :: backslashing rest else c :: backslashing rest

def enclose (quote : Char) (inside : List Char) : String :=
  String.ofList (quote :: (inside ++ [quote]))

def quoteIdentifier (d : Dialect) (name : String) : String :=
  enclose d.conventions.identifierQuote (doubling d.conventions.identifierQuote name.toList)

def segments (path : String) : List String := path.splitOn "."

def quoteTablePath (d : Dialect) (path : String) : String :=
  if d.conventions.wholePath then d.quoteIdentifier path
  else String.intercalate "." ((segments path).map d.quoteIdentifier)

def quoteString (d : Dialect) (text : String) : String :=
  match d.conventions.stringEscape with
  | .doubled => enclose '\x27' (doubling '\x27' text.toList)
  | .backslash => enclose '\x27' (backslashing text.toList)

def boolText : Bool → String
  | true => "true"
  | false => "false"

def renamed? (d : Dialect) (function : String) : Option String :=
  (d.conventions.renamed.find? fun entry => entry.1 == Text.upper function).map Prod.snd

def functionName (d : Dialect) (function : String) : String :=
  Text.upper ((d.renamed? function).getD function)

def typeName (d : Dialect) : AtomicType → String
  | .string | .null => d.conventions.textType
  | .number => d.conventions.numberType
  | .boolean => d.conventions.booleanType
  | .date => "DATE"
  | .timestamp => d.conventions.timestampType

end SemanticLayer.Dialect
