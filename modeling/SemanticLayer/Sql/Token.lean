import SemanticLayer.Dialect.Conventions
import SemanticLayer.Decimal.Notation

/-!
The units of SQL text. Whatever comes from a model is a token of its own kind, and only here it
becomes text, quoted as the dialect wants it.
-/
namespace SemanticLayer.Sql

inductive Token where
  | symbol (text : String)
  | concat
  | nullSafeEq
  | space
  | newline
  | indent
  | identifier (name : String)
  | tablePath (path : String)
  | int (value : Int)
  | float (value : Float)
  | number (text : String)
  | string (text : String)
  | bool (value : Bool)
  | null
  | function (name : String)
  | raw (text : String)

/-- The text of a token. No dialect has a portable spelling for a number that is not finite. -/
def Token.text (d : Dialect) : Token → String
  | symbol text => text
  | concat => "||"
  | nullSafeEq => d.conventions.nullSafeEq
  | space => " "
  | newline => "\n"
  | indent => "  "
  | identifier name => d.quoteIdentifier name
  | tablePath path => d.quoteTablePath path
  | int value => toString value
  | float value => (Decimal.generalText? value).getD "NULL"
  | number text => text
  | string text => d.quoteString text
  | bool value => Dialect.boolText value
  | null => "NULL"
  | function name => d.functionName name
  | raw text => text

def spell (d : Dialect) (tokens : List Token) : String :=
  tokens.foldl (fun text token => text ++ token.text d) ""

end SemanticLayer.Sql
