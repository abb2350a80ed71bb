import SemanticLayer.Dialect.Basic
import SemanticLayer.Text.Blank

/-!
The lexemes of SQL text that people write. White space and comments separate lexemes; quotes and comments
that do not end make a text unreadable.
-/
namespace SemanticLayer.Sql.Script

inductive Lexeme where
  | word (text : String)
  | quoted
  | string
  | number
  | symbol (text : String)
  deriving DecidableEq, Repr

def escapes : Dialect → Bool
  | .bigquery | .snowflake | .mysql => true
  | .duckdb | .postgres => false

def hasDoubleQuotedStrings : Dialect → Bool
  | .bigquery | .mysql => true
  | _ => false

def hasBackticks : Dialect → Bool
  | .postgres => false
  | _ => true

def hasHashComments : Dialect → Bool
  | .bigquery | .snowflake | .mysql => true
  | _ => false

def hasSlashComments : Dialect → Bool
  | .snowflake => true
  | _ => false

def isForeignLetter (d : Dialect) (c : Char) : Bool :=
  c.toNat ≥ 0x80 && !Text.isBlank c &&
    match d with
    | .duckdb | .postgres => true
    | .mysql => c.toNat ≤ 0xFFFF
    | .bigquery | .snowflake => false

def isWordStart (d : Dialect) (c : Char) : Bool := c.isAlpha || c == '_' || isForeignLetter d c

def isWordPart (d : Dialect) (c : Char) : Bool := isWordStart d c || c.isDigit || c == '$'

def afterQuote? (escaping : Bool) (quote : Char) : List Char → Option (List Char)
  | [] => none
  | [c] => if c == quote then some [] else none
  | c :: next :: rest =>
    if c == quote then
      if next == quote then afterQuote? escaping quote rest else some (next :: rest)
    else if c == '\\' && escaping then afterQuote? escaping quote rest
    else afterQuote? escaping quote (next :: rest)

def afterComment? (depth : Nat) (last : Char) : List Char → Option (List Char)
  | [] => none
  | c :: rest =>
    if last == '/' && c == '*' then afterComment? (depth + 1) c rest
    else if last == '*' && c == '/' then
      if depth ≤ 1 then some rest else afterComment? (depth - 1) c rest
    else afterComment? depth c rest

def afterLine (cs : List Char) : List Char := cs.dropWhile (· != '\n')

def dropExponent (cs : List Char) : List Char :=
  let rest := cs.drop 1
  let digits := if rest.head?.any fun c => c == '+' || c == '-' then rest.drop 1 else rest
  if (cs.head?.any fun c => c == 'e' || c == 'E') && digits.head?.any Char.isDigit then
    digits.dropWhile Char.isDigit
  else cs

def afterNumber (cs : List Char) : List Char :=
  match cs.dropWhile Char.isDigit with
  | '.' :: rest => dropExponent (rest.dropWhile Char.isDigit)
  | rest => dropExponent rest

def longSymbols : List String :=
  ["<=>", "->>", "::", "<=", ">=", "<>", "!=", "||", "->", "=>", ":=", "&&", "<<", ">>"]

def symbolAt (c : Char) (rest : List Char) : String × List Char :=
  match longSymbols.find? fun s => s.toList.isPrefixOf (c :: rest) with
  | some s => (s, (c :: rest).drop s.length)
  | none => (String.singleton c, rest)

/-- The first lexeme, or none where white space or a comment stands, and what follows it. -/
def step? (d : Dialect) (c : Char) (rest : List Char) : Option (Option Lexeme × List Char) :=
  let comment (rest : Option (List Char)) : Option (Option Lexeme × List Char) :=
    rest.map fun rest => (none, rest)
  let lexeme (l : Lexeme) (rest : Option (List Char)) : Option (Option Lexeme × List Char) :=
    rest.map fun rest => (some l, rest)
  if Text.isBlank c then some (none, rest)
  else if c == '-' && rest.head? == some '-' then comment (some (afterLine rest))
  else if c == '/' && rest.head? == some '*' then comment (afterComment? 1 ' ' (rest.drop 1))
  else if c == '/' && rest.head? == some '/' && hasSlashComments d then comment (some (afterLine rest))
  else if c == '#' && hasHashComments d then comment (some (afterLine rest))
  else if c == '\x27' then lexeme .string (afterQuote? (escapes d) c rest)
  else if c == '\x22' then
    if hasDoubleQuotedStrings d then lexeme .string (afterQuote? (escapes d) c rest)
    else lexeme .quoted (afterQuote? false c rest)
  else if c == '\x60' && hasBackticks d then lexeme .quoted (afterQuote? false c rest)
  else if c.isDigit || (c == '.' && rest.head?.any Char.isDigit) then
    lexeme .number (some (afterNumber (c :: rest)))
  else if isWordStart d c then
    let text := String.ofList (c :: rest.takeWhile (isWordPart d))
    lexeme (.word text.toUpper) (some (rest.dropWhile (isWordPart d)))
  else
    let (text, rest) := symbolAt c rest
    lexeme (.symbol text) (some rest)

def lexemesWithin (d : Dialect) : Nat → List Char → Option (List Lexeme)
  | _, [] => some []
  | 0, _ => none
  | steps + 1, c :: rest => do
    let (first, rest) ← step? d c rest
    let others ← lexemesWithin d steps rest
    return first.toList ++ others

/-- The lexemes of a text, if every quote and comment in it ends. A step takes at least one
character. -/
def lexemes? (d : Dialect) (text : String) : Option (List Lexeme) :=
  lexemesWithin d text.length text.toList

end SemanticLayer.Sql.Script
