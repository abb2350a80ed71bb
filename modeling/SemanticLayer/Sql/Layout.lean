import SemanticLayer.Sql.Tree
import SemanticLayer.Sql.Token

/-!
The tokens of a statement: one select item a line, one clause a line, `WITH` first.
-/
namespace SemanticLayer.Sql

def spaced (text : String) : List Token := [.space, .symbol text, .space]

def comma : List Token := [.symbol ",", .space]

def qualifier : Option String → List Token
  | none => []
  | some table => [.identifier table, .symbol "."]

def aliasTokens : Option String → List Token
  | none => []
  | some label => spaced "AS" ++ [.identifier label]

def BinaryOp.tokens : BinaryOp → List Token
  | eq => [.symbol "="]
  | ne => [.symbol "<>"]
  | lt => [.symbol "<"]
  | gt => [.symbol ">"]
  | lte => [.symbol "<="]
  | gte => [.symbol ">="]
  | add => [.symbol "+"]
  | sub => [.symbol "-"]
  | mul => [.symbol "*"]
  | div => [.symbol "/"]
  | mod => [.symbol "%"]
  | and => [.symbol "AND"]
  | or => [.symbol "OR"]
  | like => [.symbol "LIKE"]
  | notLike => [.symbol "NOT", .space, .symbol "LIKE"]
  | concat => [.concat]

def UnaryOp.tokens : UnaryOp → List Token
  | not => [.symbol "NOT", .space]
  | neg => [.symbol "-"]

def Literal.token : Literal → Token
  | int n => .int n
  | float x => .float x
  | number text => .number text
  | string s => .string s
  | bool b => .bool b
  | null => .null

def directionTokens : SortDirection → List Token
  | .asc => [.space, .symbol "ASC"]
  | .desc => [.space, .symbol "DESC"]

def nullsTokens (d : Dialect) (nulls : Option NullsOrder) : List Token :=
  if d.conventions.nullsOrdering then
    match nulls with
    | some .first => [.space, .symbol "NULLS FIRST"]
    | some .last => [.space, .symbol "NULLS LAST"]
    | none => []
  else []

mutual

def Expr.tokens (d : Dialect) : Expr → List Token
  | .column table name => qualifier table ++ [.identifier name]
  | .literal value => [value.token]
  | .binary op left right =>
    if op = .concat ∧ d.conventions.concatOperator = false then
      [.function "CONCAT", .symbol "("] ++ Expr.tokens d left ++ comma ++ Expr.tokens d right
        ++ [.symbol ")"]
    else
      Expr.tokens d left ++ [.space] ++ op.tokens ++ [.space] ++ Expr.tokens d right
  | .unary op operand => op.tokens ++ Expr.tokens d operand
  | .call function args distinct =>
    [.function function, .symbol "("] ++ (if distinct then [.symbol "DISTINCT", .space] else [])
      ++ exprListTokens d args ++ [.symbol ")"]
  | .choose operand arms otherwise =>
    [.symbol "CASE"] ++ exprOptionTokens d [.space] operand ++ armTokens d arms
      ++ exprOptionTokens d (spaced "ELSE") otherwise ++ [.space, .symbol "END"]
  | .subquery query => [.symbol "("] ++ Query.tokens d query ++ [.symbol ")"]
  | .isIn expr values negated =>
    -- a list without values is no SQL; nothing is in it
    if values.isEmpty then [.symbol (if negated then "TRUE" else "FALSE")]
    else
      Expr.tokens d expr ++ (if negated then [.space, .symbol "NOT"] else []) ++ spaced "IN"
        ++ [.symbol "("] ++ exprListTokens d values ++ [.symbol ")"]
  | .isNull expr negated =>
    Expr.tokens d expr ++ [.space, .symbol (if negated then "IS NOT NULL" else "IS NULL")]
  | .nullSafeEq left right =>
    Expr.tokens d left ++ [.space, .nullSafeEq, .space] ++ Expr.tokens d right
  | .cast expr type kind =>
    [.symbol kind.keyword, .symbol "("] ++ Expr.tokens d expr ++ spaced "AS"
      ++ [.raw type, .symbol ")"]
  | .star table => qualifier table ++ [.symbol "*"]
  | .paren expr => [.symbol "("] ++ Expr.tokens d expr ++ [.symbol ")"]
  | .window function partitionBy orderBy =>
    Expr.tokens d function ++ spaced "OVER" ++ [.symbol "("]
      ++ (if partitionBy.isEmpty then []
          else [.symbol "PARTITION BY", .space] ++ exprListTokens d partitionBy
            ++ (if orderBy.isEmpty then [] else [.space]))
      ++ (if orderBy.isEmpty then []
          else [.symbol "ORDER BY", .space] ++ orderTokens d orderBy)
      ++ [.symbol ")"]
  | .sequence parts => sequenceTokens d parts
  | .raw text => [.raw text]

def exprOptionTokens (d : Dialect) (introduction : List Token) : Option Expr → List Token
  | none => []
  | some e => introduction ++ Expr.tokens d e

def exprListTokens (d : Dialect) : List Expr → List Token
  | [] => []
  | e :: rest => Expr.tokens d e ++ exprTailTokens d rest

def exprTailTokens (d : Dialect) : List Expr → List Token
  | [] => []
  | e :: rest => comma ++ Expr.tokens d e ++ exprTailTokens d rest

def sequenceTokens (d : Dialect) : List Expr → List Token
  | [] => []
  | e :: rest => Expr.tokens d e ++ sequenceTokens d rest

def armTokens (d : Dialect) : List (Expr × Expr) → List Token
  | [] => []
  | (condition, value) :: rest =>
    spaced "WHEN" ++ Expr.tokens d condition ++ spaced "THEN" ++ Expr.tokens d value
      ++ armTokens d rest

def OrderTerm.tokens (d : Dialect) : OrderTerm → List Token
  | ⟨expr, direction, nulls⟩ =>
    Expr.tokens d expr ++ directionTokens direction ++ nullsTokens d nulls

def orderTokens (d : Dialect) : List OrderTerm → List Token
  | [] => []
  | o :: rest => OrderTerm.tokens d o ++ orderTailTokens d rest

def orderTailTokens (d : Dialect) : List OrderTerm → List Token
  | [] => []
  | o :: rest => comma ++ OrderTerm.tokens d o ++ orderTailTokens d rest

def SelectItem.tokens (d : Dialect) : SelectItem → List Token
  | ⟨expr, label⟩ => [.newline, .indent] ++ Expr.tokens d expr ++ aliasTokens label

def itemTokens (d : Dialect) : List SelectItem → List Token
  | [] => []
  | item :: rest => SelectItem.tokens d item ++ itemTailTokens d rest

def itemTailTokens (d : Dialect) : List SelectItem → List Token
  | [] => []
  | item :: rest => [.symbol ","] ++ SelectItem.tokens d item ++ itemTailTokens d rest

def Relation.tokens (d : Dialect) : Relation → List Token
  | .table path => [.tablePath path]
  | .cte name => [.identifier name]
  | .subquery query => [.symbol "("] ++ Query.tokens d query ++ [.symbol ")"]
  | .raw text => [.symbol "(", .raw text, .symbol ")"]

def TableRef.tokens (d : Dialect) : TableRef → List Token
  | ⟨relation, label⟩ => Relation.tokens d relation ++ aliasTokens label

def Join.tokens (d : Dialect) : Join → List Token
  | ⟨type, table, condition⟩ =>
    [.symbol (match type with | .left => "LEFT" | .cross => "CROSS"), .space, .symbol "JOIN", .space]
      ++ TableRef.tokens d table ++ exprOptionTokens d (spaced "ON") condition

def joinTokens (d : Dialect) : List Join → List Token
  | [] => []
  | j :: rest => [.newline] ++ Join.tokens d j ++ joinTokens d rest

def Cte.tokens (d : Dialect) : Cte → List Token
  | ⟨name, query⟩ =>
    [.identifier name] ++ spaced "AS" ++ [.symbol "(", .newline] ++ Query.tokens d query
      ++ [.newline, .symbol ")"]

def cteTailTokens (d : Dialect) : List Cte → List Token
  | [] => [.newline]
  | c :: rest => [.symbol ",", .newline] ++ Cte.tokens d c ++ cteTailTokens d rest

def cteTokens (d : Dialect) : List Cte → List Token
  | [] => []
  | c :: rest => [.symbol "WITH", .space] ++ Cte.tokens d c ++ cteTailTokens d rest

def sourceTokens (d : Dialect) : Option TableRef → List Token
  | none => []
  | some table => [.newline, .symbol "FROM", .space] ++ TableRef.tokens d table

def unionTailTokens (d : Dialect) : List Query → List Token
  | [] => []
  | q :: rest =>
    [.newline, .symbol "UNION ALL", .newline] ++ Query.tokens d q ++ unionTailTokens d rest

def unionTokens (d : Dialect) : List Query → List Token
  | [] => []
  | q :: rest => Query.tokens d q ++ unionTailTokens d rest

def Query.tokens (d : Dialect) : Query → List Token
  | ⟨ctes, items, source, joins, condition, groupBy, having, orderBy, limit, unions⟩ =>
    cteTokens d ctes
      ++ (if unions.isEmpty then
            [.symbol "SELECT"] ++ itemTokens d items ++ sourceTokens d source ++ joinTokens d joins
              ++ exprOptionTokens d [.newline, .symbol "WHERE", .space] condition
              ++ (if groupBy.isEmpty then []
                  else [.newline, .symbol "GROUP BY", .space] ++ exprListTokens d groupBy)
              ++ exprOptionTokens d [.newline, .symbol "HAVING", .space] having
          else unionTokens d unions)
      ++ (if orderBy.isEmpty then []
          else [.newline, .symbol "ORDER BY", .space] ++ orderTokens d orderBy)
      ++ (match limit with
          | none => []
          | some n => [.newline, .symbol "LIMIT", .space, .number (toString n)])

end

def Expr.text (d : Dialect) (e : Expr) : String := spell d (e.tokens d)

def Query.text (d : Dialect) (q : Query) : String := spell d (q.tokens d)

end SemanticLayer.Sql
