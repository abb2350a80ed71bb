import SemanticLayer.Diagnostic
import SemanticLayer.Document.Basic
import SemanticLayer.Json.Reader

/-!
Reading documents from their JSON form. An alternative is an object with a tag, the member `type`;
the tag and the other members may come in any order. Members that mean nothing here are ignored; a
member that means something may stand only once. Spans, flags and some lists have defaults; `null` is
for optional members alone.
-/
namespace SemanticLayer.Document.Decode

abbrev Members := List (String × Json)

def members? : Json → Option Members
  | .object members => some members
  | _ => none

def valuesAt (members : Members) (name : String) : List Json :=
  (members.filter fun member => member.1 == name).map Prod.snd

def required (read : Json → Option α) (members : Members) (name : String) : Option α :=
  match valuesAt members name with
  | [j] => read j
  | _ => none

def optional (read : Json → Option α) (members : Members) (name : String) : Option (Option α) :=
  match valuesAt members name with
  | [] => some none
  | [.null] => some none
  | [j] => (read j).map some
  | _ => none

def defaulted (default : α) (read : Json → Option α) (members : Members) (name : String) :
    Option α :=
  match valuesAt members name with
  | [] => some default
  | [j] => read j
  | _ => none

def string? : Json → Option String
  | .string s => some s
  | _ => none

def bool? : Json → Option Bool
  | .bool b => some b
  | _ => none

def below? (bound : Nat) : Json → Option Nat
  | .number (.integer n) => if 0 ≤ n ∧ n < bound then some n.toNat else none
  | _ => none

def word32? (j : Json) : Option UInt32 := (below? 0x100000000 j).map Nat.toUInt32

def word64? (j : Json) : Option UInt64 := (below? 0x10000000000000000 j).map Nat.toUInt64

def float? : Json → Option Float
  | .number n => some n.toFloat
  | _ => none

def list? (read : Json → Option α) : Json → Option (List α)
  | .array elements => elements.mapM read
  | _ => none

/-- A word of a vocabulary: its name, or an object with the name as its only member and nothing in
it. -/
def word? [Named α] : Json → Option α
  | .string name => Named.ofName? name
  | .object [(name, .null)] => Named.ofName? name
  | .object [(name, .object [])] => Named.ofName? name
  | _ => none

def tag? (tags : List String) (members : Members) : Option String :=
  required (fun
    | .string tag => some tag
    | .number (.integer n) => if 0 ≤ n then tags[n.toNat]? else none
    | _ => none) members "type"

def position? (j : Json) : Option Position := do
  let members ← members? j
  return ⟨← required word32? members "line", ← required word32? members "character"⟩

def span? (j : Json) : Option Span := do
  let members ← members? j
  return ⟨← required position? members "start", ← required position? members "end"⟩

def spanAt (members : Members) : Option Span := defaulted default span? members "span"

def spanned? (read : Json → Option α) (j : Json) : Option (Spanned α) := do
  let members ← members? j
  return ⟨← required read members "node", ← spanAt members⟩

def name? : Json → Option Name := spanned? string?

def path? (j : Json) : Option FieldPath := do
  let members ← members? j
  return ⟨← required (list? string?) members "names", ← spanAt members⟩

def exprTags : List String :=
  ["number", "string", "boolean", "null", "time", "now", "field", "unary", "binary", "aggregate",
   "filtered", "pick", "cast", "truncate", "extract", "duration", "range", "apply", "is_null", "in",
   "ungroup", "call"]

mutual

def expr? : Nat → Json → Option Expr
  | 0, _ => none
  | n + 1, j => do
    let members ← members? j
    return ⟨← required (exprKind? n) members "kind", ← spanAt members⟩

def exprKind? : Nat → Json → Option ExprKind
  | 0, _ => none
  | n + 1, j => do
    let members ← members? j
    let child := required (expr? n) members
    match ← tag? exprTags members with
    | "number" => return .number (← required string? members "value")
    | "string" => return .string (← required string? members "value")
    | "boolean" => return .boolean (← required bool? members "value")
    | "null" => return .null
    | "time" => return .time (← required string? members "literal")
    | "now" => return .now
    | "field" => return .field (← required path? members "path")
    | "unary" => return .unary (← required word? members "op") (← child "operand")
    | "binary" => return .binary (← required word? members "op") (← child "left") (← child "right")
    | "aggregate" =>
      return .aggregate (← required word? members "function") (← optional path? members "source")
        (← optional (expr? n) members "arg")
    | "filtered" =>
      return .filtered (← child "expr") (← required (list? (expr? n)) members "filters")
    | "pick" =>
      return .pick (← required (list? (pickArm? n)) members "arms")
        (← optional (expr? n) members "otherwise")
    | "cast" =>
      return .cast (← child "expr") (← required word? members "to")
        (← defaulted false bool? members "safe")
    | "truncate" => return .truncate (← child "expr") (← required word? members "unit")
    | "extract" => return .extract (← required word? members "unit") (← child "expr")
    | "duration" => return .duration (← child "amount") (← required word? members "unit")
    | "range" => return .range (← child "start") (← child "end")
    | "apply" => return .apply (← child "value") (← child "pattern")
    | "is_null" => return .isNull (← child "expr") (← defaulted false bool? members "negated")
    | "in" =>
      return .isIn (← child "expr") (← required (list? (expr? n)) members "values")
        (← defaulted false bool? members "negated")
    | "ungroup" =>
      return .ungroup (← required word? members "kind") (← child "expr")
        (← defaulted [] (list? name?) members "fields")
    | "call" =>
      return .call (← required name? members "function") (← required (list? (expr? n)) members "args")
    | _ => none

def pickArm? : Nat → Json → Option PickArm
  | 0, _ => none
  | n + 1, j => do
    let members ← members? j
    return ⟨← required (expr? n) members "value", ← required (expr? n) members "when"⟩

end

def fieldDeclOf (n : Nat) (members : Members) : Option FieldDecl := do
  return ⟨← required name? members "name", ← required (expr? n) members "expr", ← spanAt members⟩

def fieldDecl? (n : Nat) (j : Json) : Option FieldDecl := do fieldDeclOf n (← members? j)

def queryItem? (n : Nat) (j : Json) : Option QueryItem := do
  let members ← members? j
  match ← tag? ["reference", "define", "wildcard"] members with
  | "reference" =>
    return .reference (← required path? members "path")
      (← defaulted [] (list? (expr? n)) members "filters")
  | "define" => return .define (← fieldDeclOf n members)
  | "wildcard" =>
    return .wildcard (← defaulted [] (list? string?) members "path") (← spanAt members)
  | _ => none

def orderTarget? (j : Json) : Option OrderTarget :=
  match word64? j with
  | some n => some (.ordinal n)
  | none => (string? j).map .name

def orderByItem? (j : Json) : Option OrderByItem := do
  let members ← members? j
  return ⟨← required orderTarget? members "field", ← optional word? members "direction",
    ← spanAt members⟩

def sampleSpec? (j : Json) : Option SampleSpec := do
  let members ← members? j
  match ← tag? ["enabled", "rows", "percent"] members with
  | "enabled" => return .enabled (← required bool? members "enabled")
  | "rows" => return .rows (← required word64? members "rows")
  | "percent" => return .percent (← required float? members "percent")
  | _ => none

def stageTags : List String :=
  ["group_by", "aggregate", "project", "index", "nest", "where", "having", "order_by", "limit", "top",
   "sample", "declare"]

mutual

def stageProperty? : Nat → Json → Option StageProperty
  | 0, _ => none
  | n + 1, j => do
    let members ← members? j
    let items := required (list? (queryItem? n)) members "fields"
    let filters := required (list? (expr? n)) members "filters"
    match ← tag? stageTags members with
    | "group_by" => return .groupBy (← items)
    | "aggregate" => return .aggregate (← items)
    | "project" => return .project (← items)
    | "index" => return .index (← items) (← optional name? members "by")
    | "nest" => return .nest (← required (list? (nestItem? n)) members "entries")
    | "where" => return .filter (← filters)
    | "having" => return .having (← filters)
    | "order_by" => return .orderBy (← required (list? orderByItem?) members "items")
    | "limit" => return .limit (← required word64? members "count") (← spanAt members)
    | "top" =>
      return .top (← required word64? members "count") (← optional orderByItem? members "by")
        (← spanAt members)
    | "sample" => return .sample (← required sampleSpec? members "sample") (← spanAt members)
    | "declare" => return .declare (← required (list? (fieldDecl? n)) members "fields")
    | _ => none

def stageBlock? : Nat → Json → Option StageBlock
  | 0, _ => none
  | n + 1, j => do
    let members ← members? j
    return ⟨← required (list? (stageProperty? n)) members "properties", ← spanAt members⟩

def nestItem? : Nat → Json → Option NestItem
  | 0, _ => none
  | n + 1, j => do
    let members ← members? j
    match ← tag? ["reference", "define"] members with
    | "reference" =>
      return .reference (← required name? members "name")
        (← optional (stageBlock? n) members "refinement")
    | "define" =>
      return .define (← required name? members "name")
        (← required (list? (pipeElement? n)) members "pipeline") (← spanAt members)
    | _ => none

def pipeElement? : Nat → Json → Option PipeElement
  | 0, _ => none
  | n + 1, j => do
    let members ← members? j
    match ← tag? ["stage", "view"] members with
    | "stage" => return .stage (← stageBlock? n j)
    | "view" =>
      return .view (← required name? members "name")
        (← optional (stageBlock? n) members "refinement")
    | _ => none

end

def viewDecl? (n : Nat) (j : Json) : Option ViewDecl := do
  let members ← members? j
  return ⟨← required name? members "name", ← required (list? (pipeElement? n)) members "pipeline",
    ← spanAt members⟩

def renameDecl? (j : Json) : Option RenameDecl := do
  let members ← members? j
  return ⟨← required name? members "new_name", ← required name? members "old_name"⟩

def joinCondition? (n : Nat) (j : Json) : Option JoinCondition := do
  let members ← members? j
  match ← tag? ["with", "on"] members with
  | "with" => return .key (← required (expr? n) members "expr")
  | "on" => return .on (← required (expr? n) members "expr")
  | _ => none

def propertyTags : List String :=
  ["dimension", "measure", "declare", "join", "where", "primary_key", "accept", "except", "rename",
   "view"]

mutual

def sourceExpr? : Nat → Json → Option SourceExpr
  | 0, _ => none
  | n + 1, j => do
    let members ← members? j
    match ← tag? ["named", "table", "from_query", "from_sql", "refine"] members with
    | "named" => return .named (← required name? members "name")
    | "table" =>
      return .table (← optional string? members "connection") (← required string? members "path")
        (← spanAt members)
    | "from_query" => return .fromQuery (← required (queryExpr? n) members "query") (← spanAt members)
    | "from_sql" => return .fromSql (← required name? members "name")
    | "refine" =>
      return .refine (← required (sourceExpr? n) members "base")
        (← required (list? (sourceProperty? n)) members "body") (← spanAt members)
    | _ => none

def sourceProperty? : Nat → Json → Option SourceProperty
  | 0, _ => none
  | n + 1, j => do
    let members ← members? j
    let decls := required (list? (fieldDecl? n)) members "fields"
    let names := required (list? name?) members "fields"
    match ← tag? propertyTags members with
    | "dimension" => return .dimension (← decls)
    | "measure" => return .measure (← decls)
    | "declare" => return .declare (← decls)
    | "join" => return .join (← required (list? (joinDecl? n)) members "joins")
    | "where" => return .filter (← required (list? (expr? n)) members "filters")
    | "primary_key" => return .primaryKey (← required name? members "field")
    | "accept" => return .accept (← names)
    | "except" => return .except (← names)
    | "rename" => return .rename (← required (list? renameDecl?) members "renames")
    | "view" => return .view (← required (list? (viewDecl? n)) members "views")
    | _ => none

def joinDecl? : Nat → Json → Option JoinDecl
  | 0, _ => none
  | n + 1, j => do
    let members ← members? j
    return ⟨← required name? members "name", ← required word? members "kind",
      ← optional (sourceExpr? n) members "source", ← optional (joinCondition? n) members "condition",
      ← spanAt members⟩

def queryExpr? : Nat → Json → Option QueryExpr
  | 0, _ => none
  | n + 1, j => do
    let members ← members? j
    return ⟨← required (queryHead? n) members "head",
      ← defaulted [] (list? (pipeElement? n)) members "pipeline", ← spanAt members⟩

def queryHead? : Nat → Json → Option QueryHead
  | 0, _ => none
  | n + 1, j => do
    let members ← members? j
    match ← tag? ["source", "query"] members with
    | "source" => return .source (← required (sourceExpr? n) members "source")
    | "query" => return .query (← required name? members "name")
    | _ => none

end

def statement? (n : Nat) (j : Json) : Option Statement := do
  let members ← members? j
  match ← required string? members "type" with
  | "import" => return .importing (← required string? members "url") (← spanAt members)
  | "source" =>
    return .source (← required name? members "name") (← required (sourceExpr? n) members "source")
      (← spanAt members)
  | "query" =>
    return .query (← optional name? members "name") (← required (queryExpr? n) members "query")
      (← spanAt members)
  | "sql" =>
    return .sql (← required name? members "name") (← optional string? members "connection")
      (← required string? members "select") (← spanAt members)
  | _ => none

/-- Fuel for a value: a part of a document takes at most two steps for each level of its value. -/
def fuelFor (j : Json) : Nat := 2 * j.depth + 2

def statements? (j : Json) : Option (List Statement) := list? (statement? (fuelFor j)) j

end Decode

def Expr.ofJson? (j : Json) : Option Expr := Decode.expr? (Decode.fuelFor j) j

open Json (Token)

/-- The top-level members of a document's text, from one that is due. The value of `statements` is
read; every other value is only checked for its grammar. -/
def topMembers? : (fuel : Nat) → List Token → Option (List Json)
  | 0, _ => none
  | fuel + 1, tokens =>
    match tokens with
    | .string (some name) :: .punctuation .colon :: rest => do
      let known := name == "statements"
      let depth := if known then Json.maxDepth - 1 else rest.length
      let (value, rest) ← Json.value? (!known) (Json.fuelFor rest) depth rest
      let values := if known then [value] else []
      match rest with
      | .punctuation .comma :: rest => return values ++ (← topMembers? fuel rest)
      | [.punctuation .closeBrace] => return values
      | _ => none
    | _ => none

def read? (text : String) : Option Document := do
  match ← Json.tokens? text with
  | .punctuation .openBrace :: rest =>
    match ← topMembers? rest.length rest with
    | [statements] => return ⟨← Decode.statements? statements⟩
    | _ => none
  | _ => none

def malformedMessage : String := "malformed parse tree"

def malformed (url : String) : Diagnostic := .error .malformed malformedMessage ⟨url, default⟩

end SemanticLayer.Document
