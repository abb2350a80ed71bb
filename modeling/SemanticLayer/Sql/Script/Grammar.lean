import SemanticLayer.Sql.Script.Lexeme

/-!
A plain grammar of SQL statements, just fine enough to tell statements from text that is none, and
queries from other statements. A reader takes lexemes from the front and returns the rest.
-/
namespace SemanticLayer.Sql.Script

abbrev Reader := List Lexeme → Option (List Lexeme)

namespace Reader

def lexeme (test : Lexeme → Bool) : Reader
  | l :: rest => if test l then some rest else none
  | [] => none

def symbol (text : String) : Reader := lexeme (· == .symbol text)

def keyword (text : String) : Reader := lexeme (· == .word text)

def anyKeyword (texts : List String) : Reader :=
  lexeme fun
    | .word text => texts.contains text
    | _ => false

def sequence (readers : List Reader) : Reader := fun ls => readers.foldlM (fun ls r => r ls) ls

def choice (readers : List Reader) : Reader := fun ls => readers.findSome? (· ls)

def keywords (texts : List String) : Reader := sequence (texts.map keyword)

def optionally (r : Reader) : Reader := fun ls => some ((r ls).getD ls)

def atMost (r : Reader) : Nat → Reader
  | 0, ls => some ls
  | count + 1, ls =>
    match r ls with
    | some rest => atMost r count rest
    | none => some ls

/-- Reads as often as it can. Every reading takes a lexeme. -/
def many (r : Reader) : Reader := fun ls => atMost r ls.length ls

def separated (r : Reader) : Reader := sequence [r, many (sequence [symbol ",", r])]

def parenthesized (r : Reader) : Reader := sequence [symbol "(", r, symbol ")"]

end Reader

open Reader

def reservedForColumns : List String :=
  ["WITH", "EXPLAIN", "ANALYZE", "SELECT", "WHERE", "GROUP", "SORT", "HAVING", "ORDER", "TOP",
   "LATERAL", "VIEW", "LIMIT", "OFFSET", "FETCH", "UNION", "EXCEPT", "INTERSECT", "MINUS", "CLUSTER",
   "DISTRIBUTE", "FROM", "INTO", "END", "QUALIFY", "WINDOW"]

def reservedForTables : List String :=
  reservedForColumns ++
    ["PIVOT", "UNPIVOT", "ON", "JOIN", "INNER", "CROSS", "FULL", "LEFT", "RIGHT", "NATURAL", "USING",
     "GLOBAL", "ANTI", "SEMI", "RETURNING", "ASOF", "OUTER", "SET", "FOR", "PARTITION", "PREWHERE",
     "SETTINGS", "FORMAT", "START", "CONNECT", "SAMPLE", "TABLESAMPLE"]

def identifier : Reader := lexeme fun
  | .word _ | .quoted | .string => true
  | _ => false

def objectName : Reader := sequence [identifier, many (sequence [symbol ".", identifier])]

def isAlias (reserved : List String) : Lexeme → Bool
  | .word text => !reserved.contains text
  | .quoted | .string => true
  | _ => false

def aliasName (reserved : List String) : Reader :=
  optionally (choice [sequence [keyword "AS", identifier], lexeme (isAlias reserved)])

def nameList : Reader := parenthesized (separated identifier)

def typeName : Reader :=
  sequence [identifier,
    optionally (anyKeyword ["PRECISION", "VARYING", "UNSIGNED"]),
    optionally (parenthesized (separated (lexeme (· == .number)))),
    optionally (choice [keywords ["WITH", "TIME", "ZONE"], keywords ["WITHOUT", "TIME", "ZONE"]]),
    many (sequence [symbol "[", symbol "]"])]

def comparisonSymbols : List String :=
  ["=", "<>", "!=", "<", ">", "<=", ">=", "<=>", "||", "+", "-", "*", "/", "%", "&", "|", "^", "<<",
   ">>", "->", "->>", "&&"]

def valueOperator : Reader := choice [
  lexeme fun
    | .symbol text => comparisonSymbols.contains text
    | _ => false,
  anyKeyword ["DIV", "MOD"]]

def leadingOperators : Reader :=
  many (choice [keyword "NOT", symbol "-", symbol "+", symbol "~", symbol "!"])

def starOptions : Reader :=
  optionally (sequence [anyKeyword ["EXCEPT", "EXCLUDE"], choice [nameList, identifier]])

mutual

def query (d : Dialect) : Nat → Reader
  | 0, _ => none
  | n + 1, ls => sequence [
      optionally (sequence [keyword "WITH", optionally (keyword "RECURSIVE"),
        separated (commonTable d n)]),
      queryBody d n,
      optionally (orderBy d n),
      many (limitClause d n)] ls

def commonTable (d : Dialect) : Nat → Reader
  | 0, _ => none
  | n + 1, ls => sequence [identifier, optionally nameList, keyword "AS",
      optionally (sequence [optionally (keyword "NOT"), keyword "MATERIALIZED"]),
      parenthesized (query d n)] ls

def queryBody (d : Dialect) : Nat → Reader
  | 0, _ => none
  | n + 1, ls => sequence [queryTerm d n,
      many (sequence [anyKeyword ["UNION", "EXCEPT", "INTERSECT", "MINUS"],
        optionally (anyKeyword ["ALL", "DISTINCT"]),
        optionally (keywords ["BY", "NAME"]),
        queryTerm d n])] ls

def queryTerm (d : Dialect) : Nat → Reader
  | 0, _ => none
  | n + 1, ls => choice [select d n, parenthesized (query d n), valuesList d n,
      sequence [keyword "TABLE", objectName]] ls

def valuesList (d : Dialect) : Nat → Reader
  | 0, _ => none
  | n + 1, ls => sequence [keyword "VALUES",
      separated (sequence [optionally (keyword "ROW"), parenthesized (separated (expression d n))])] ls

def select (d : Dialect) : Nat → Reader
  | 0, _ => none
  | n + 1, ls => sequence [keyword "SELECT", optionally (anyKeyword ["DISTINCT", "ALL"]),
      projection d n,
      optionally (sequence [keyword "FROM", separated (tableWithJoins d n)]),
      optionally (sequence [keyword "WHERE", expression d n]),
      optionally (sequence [keywords ["GROUP", "BY"],
        choice [separated (expression d n), keyword "ALL"]]),
      optionally (sequence [keyword "HAVING", expression d n]),
      optionally (sequence [keyword "QUALIFY", expression d n])] ls

/-- Output columns. Some dialects let a comma stand after the last. -/
def projection (d : Dialect) : Nat → Reader
  | 0, _ => none
  | n + 1, ls => do
    let rest ← separated (selectItem d n) ls
    match d, rest with
    | .postgres, rest | .mysql, rest => some rest
    | _, .symbol "," :: .word text :: more =>
      if reservedForColumns.contains text then some (.word text :: more) else none
    | _, [.symbol ","] => some []
    | _, .symbol "," :: .symbol ")" :: more => some (.symbol ")" :: more)
    | _, .symbol "," :: .symbol ";" :: more => some (.symbol ";" :: more)
    | _, rest => some rest

def selectItem (d : Dialect) : Nat → Reader
  | 0, _ => none
  | _ + 1, .word "FROM" :: _ => none
  | n + 1, ls => choice [
      sequence [optionally (sequence [objectName, symbol "."]), symbol "*", starOptions],
      sequence [expression d n, aliasName reservedForColumns]] ls

def tableWithJoins (d : Dialect) : Nat → Reader
  | 0, _ => none
  | n + 1, ls => sequence [tableFactor d n, many (joinClause d n)] ls

def tableFactor (d : Dialect) : Nat → Reader
  | 0, _ => none
  | n + 1, ls => sequence [optionally (keyword "LATERAL"),
      choice [
        parenthesized (query d n),
        parenthesized (tableWithJoins d n),
        sequence [objectName, optionally (arguments d n)]],
      aliasName reservedForTables, optionally nameList] ls

def joinClause (d : Dialect) : Nat → Reader
  | 0, _ => none
  | n + 1, ls => sequence [
      optionally (keyword "NATURAL"),
      optionally (choice [anyKeyword ["INNER", "CROSS"],
        sequence [anyKeyword ["LEFT", "RIGHT", "FULL"],
          optionally (anyKeyword ["OUTER", "SEMI", "ANTI"])]]),
      keyword "JOIN", tableFactor d n,
      optionally (choice [sequence [keyword "ON", expression d n], sequence [keyword "USING", nameList]])]
      ls

def orderBy (d : Dialect) : Nat → Reader
  | 0, _ => none
  | n + 1, ls => sequence [keywords ["ORDER", "BY"], separated (sequence [expression d n,
      optionally (anyKeyword ["ASC", "DESC"]),
      optionally (sequence [keyword "NULLS", anyKeyword ["FIRST", "LAST"]])])] ls

def limitClause (d : Dialect) : Nat → Reader
  | 0, _ => none
  | n + 1, ls => choice [
      sequence [keyword "LIMIT", choice [keyword "ALL", expression d n],
        optionally (sequence [symbol ",", expression d n])],
      sequence [keyword "OFFSET", expression d n, optionally (anyKeyword ["ROW", "ROWS"])]] ls

def arguments (d : Dialect) : Nat → Reader
  | 0, _ => none
  | n + 1, ls => parenthesized (optionally (choice [
      symbol "*",
      sequence [optionally (anyKeyword ["DISTINCT", "ALL"]),
        separated (choice [sequence [identifier, choice [symbol "=>", symbol ":="], expression d n],
          expression d n]),
        optionally (orderBy d n)]])) ls

def expression (d : Dialect) : Nat → Reader
  | 0, _ => none
  | n + 1, ls => sequence [operand d n, many (choice [
      valueSuffix d n,
      sequence [anyKeyword ["AND", "OR", "XOR"], operand d n]])] ls

def valueExpression (d : Dialect) : Nat → Reader
  | 0, _ => none
  | n + 1, ls => sequence [operand d n, many (valueSuffix d n)] ls

def valueSuffix (d : Dialect) : Nat → Reader
  | 0, _ => none
  | n + 1, ls => choice [
      sequence [valueOperator, operand d n],
      sequence [symbol "::", typeName],
      sequence [symbol "[", expression d n, symbol "]"],
      sequence [keyword "IS", optionally (keyword "NOT"), choice [
        anyKeyword ["NULL", "TRUE", "FALSE", "UNKNOWN"],
        sequence [keywords ["DISTINCT", "FROM"], operand d n]]],
      sequence [optionally (keyword "NOT"), keyword "IN",
        parenthesized (choice [query d n, separated (expression d n)])],
      sequence [optionally (keyword "NOT"), keyword "BETWEEN", valueExpression d n, keyword "AND",
        operand d n],
      sequence [optionally (keyword "NOT"), anyKeyword ["LIKE", "ILIKE", "RLIKE", "REGEXP"], operand d n,
        optionally (sequence [keyword "ESCAPE", lexeme (· == .string)])],
      sequence [keyword "COLLATE", objectName],
      sequence [keywords ["AT", "TIME", "ZONE"], operand d n]] ls

def operand (d : Dialect) : Nat → Reader
  | 0, _ => none
  | n + 1, ls => sequence [leadingOperators, primary d n] ls

def primary (d : Dialect) : Nat → Reader
  | 0, _ => none
  | n + 1, ls =>
    match ls with
    | .number :: rest => some rest
    | .string :: rest => some rest
    | .symbol "(" :: _ =>
      choice [parenthesized (query d n), parenthesized (separated (expression d n))] ls
    | .word "CASE" :: _ => caseExpression d n ls
    | .word "CAST" :: _ | .word "TRY_CAST" :: _ | .word "SAFE_CAST" :: _ =>
      sequence [identifier, parenthesized (sequence [expression d n, keyword "AS", typeName])] ls
    | .word "EXTRACT" :: _ =>
      sequence [identifier, parenthesized (sequence [identifier, keyword "FROM", expression d n])] ls
    | .word "EXISTS" :: _ => sequence [keyword "EXISTS", parenthesized (query d n)] ls
    | .word "INTERVAL" :: _ =>
      sequence [keyword "INTERVAL", operand d n,
        optionally (anyKeyword ["YEAR", "QUARTER", "MONTH", "WEEK", "DAY", "HOUR", "MINUTE", "SECOND"])]
        ls
    | .word "DATE" :: .string :: rest | .word "TIMESTAMP" :: .string :: rest
    | .word "TIME" :: .string :: rest => some rest
    | _ => sequence [objectName, optionally (sequence [arguments d n, optionally (filterClause d n),
        optionally (overClause d n)])] ls

def caseExpression (d : Dialect) : Nat → Reader
  | 0, _ => none
  | n + 1, ls =>
    let arm := sequence [keyword "WHEN", expression d n, keyword "THEN", expression d n]
    let rest := sequence [arm, many arm, optionally (sequence [keyword "ELSE", expression d n]),
      keyword "END"]
    sequence [keyword "CASE", choice [rest, sequence [expression d n, rest]]] ls

def filterClause (d : Dialect) : Nat → Reader
  | 0, _ => none
  | n + 1, ls =>
    sequence [keyword "FILTER", parenthesized (sequence [keyword "WHERE", expression d n])] ls

def overClause (d : Dialect) : Nat → Reader
  | 0, _ => none
  | n + 1, ls => sequence [keyword "OVER", choice [
      parenthesized (sequence [
        optionally (sequence [keywords ["PARTITION", "BY"], separated (expression d n)]),
        optionally (orderBy d n)]),
      identifier]] ls

end

inductive StatementKind where
  | query | other
  deriving DecidableEq, Repr

def deleteStatement (d : Dialect) (n : Nat) : Reader :=
  let start := match d with
    | .bigquery => sequence [keyword "DELETE", optionally (keyword "FROM")]
    | _ => keywords ["DELETE", "FROM"]
  sequence [start, separated (tableWithJoins d n),
    optionally (sequence [keyword "USING", separated (tableWithJoins d n)]),
    optionally (sequence [keyword "WHERE", expression d n]),
    optionally (orderBy d n), optionally (sequence [keyword "LIMIT", expression d n])]

def dropStatement : Reader :=
  sequence [keyword "DROP", anyKeyword ["TABLE", "VIEW", "INDEX", "SCHEMA", "DATABASE", "SEQUENCE"],
    optionally (keywords ["IF", "EXISTS"]), separated objectName,
    optionally (anyKeyword ["CASCADE", "RESTRICT"])]

def insertStatement (d : Dialect) (n : Nat) : Reader :=
  sequence [keyword "INSERT", optionally (keyword "INTO"), optionally (keyword "TABLE"), objectName,
    choice [keywords ["DEFAULT", "VALUES"], sequence [nameList, query d n], query d n]]

def updateStatement (d : Dialect) (n : Nat) : Reader :=
  sequence [keyword "UPDATE", tableWithJoins d n, keyword "SET",
    separated (sequence [objectName, symbol "=", expression d n]),
    optionally (sequence [keyword "FROM", tableWithJoins d n]),
    optionally (sequence [keyword "WHERE", expression d n])]

def statement (d : Dialect) (n : Nat) (ls : List Lexeme) : Option (StatementKind × List Lexeme) :=
  match ls with
  | .word "SELECT" :: _ | .word "WITH" :: _ | .word "VALUES" :: _ | .symbol "(" :: _ =>
    (query d n ls).map fun rest => (.query, rest)
  | _ =>
    (choice [deleteStatement d n, dropStatement, insertStatement d n, updateStatement d n] ls).map
      fun rest => (.other, rest)

/-- Statements with semicolons between them, at most `count`. Empty statements do not count. -/
def statementsWithin (d : Dialect) (n : Nat) : Nat → List Lexeme → Option (List StatementKind)
  | _, [] => some []
  | 0, _ => none
  | count + 1, .symbol ";" :: rest => statementsWithin d n count rest
  | count + 1, ls => do
    let (kind, rest) ← statement d n ls
    match rest with
    | [] => some [kind]
    | .symbol ";" :: rest => do return kind :: (← statementsWithin d n count rest)
    | .word "END" :: _ => some [kind]
    | _ => none

/-- The statements of a script. Readers call one another fewer than sixteen times for each lexeme they
take. -/
def statements? (d : Dialect) (text : String) : Option (List StatementKind) := do
  let ls ← lexemes? d text
  statementsWithin d (16 * (ls.length + 1)) (ls.length + 1) ls

end SemanticLayer.Sql.Script
