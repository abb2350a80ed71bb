import SemanticLayer.Document.Basic
import SemanticLayer.Json.Basic

/-!
The JSON form of documents, with every member present: what is optional is `null` where it is absent,
and defaults are written out.
-/
namespace SemanticLayer.Document.Encode

def word [Named α] (a : α) : Json := .string (Named.name a)

def tagged (tag : String) (members : List (String × Json)) : Json :=
  .object (("type", .string tag) :: members)

def position (p : Position) : Json :=
  .object [("line", Json.nat p.line.toNat), ("character", Json.nat p.character.toNat)]

def span (s : Span) : Json := .object [("start", position s.start), ("end", position s.stop)]

def name (n : Name) : Json := .object [("node", .string n.node), ("span", span n.span)]

def strings (ss : List String) : Json := .array (ss.map .string)

def path (p : FieldPath) : Json := .object [("names", strings p.names), ("span", span p.span)]

mutual

def expr : Expr → Json
  | ⟨kind, s⟩ => .object [("kind", exprKind kind), ("span", span s)]

def exprKind : ExprKind → Json
  | .number value => tagged "number" [("value", .string value)]
  | .string value => tagged "string" [("value", .string value)]
  | .boolean value => tagged "boolean" [("value", .bool value)]
  | .null => tagged "null" []
  | .time literal => tagged "time" [("literal", .string literal)]
  | .now => tagged "now" []
  | .field p => tagged "field" [("path", path p)]
  | .unary op operand => tagged "unary" [("op", word op), ("operand", expr operand)]
  | .binary op left right =>
    tagged "binary" [("op", word op), ("left", expr left), ("right", expr right)]
  | .aggregate function source arg =>
    tagged "aggregate"
      [("function", word function), ("source", Json.ofOption path source), ("arg", exprOption arg)]
  | .filtered e filters => tagged "filtered" [("expr", expr e), ("filters", .array (exprs filters))]
  | .pick arms otherwise =>
    tagged "pick" [("arms", .array (pickArms arms)), ("otherwise", exprOption otherwise)]
  | .cast e type safe => tagged "cast" [("expr", expr e), ("to", word type), ("safe", .bool safe)]
  | .truncate e unit => tagged "truncate" [("expr", expr e), ("unit", word unit)]
  | .extract unit e => tagged "extract" [("unit", word unit), ("expr", expr e)]
  | .duration amount unit => tagged "duration" [("amount", expr amount), ("unit", word unit)]
  | .range start stop => tagged "range" [("start", expr start), ("end", expr stop)]
  | .apply value pattern => tagged "apply" [("value", expr value), ("pattern", expr pattern)]
  | .isNull e negated => tagged "is_null" [("expr", expr e), ("negated", .bool negated)]
  | .isIn e values negated =>
    tagged "in" [("expr", expr e), ("values", .array (exprs values)), ("negated", .bool negated)]
  | .ungroup kind e fields =>
    tagged "ungroup"
      [("kind", word kind), ("expr", expr e), ("fields", .array (fields.map name))]
  | .call function args =>
    tagged "call" [("function", name function), ("args", .array (exprs args))]

def exprOption : Option Expr → Json
  | none => .null
  | some e => expr e

def exprs : List Expr → List Json
  | [] => []
  | e :: rest => expr e :: exprs rest

def pickArms : List PickArm → List Json
  | [] => []
  | ⟨value, condition⟩ :: rest =>
    .object [("value", expr value), ("when", expr condition)] :: pickArms rest

end

def fieldDeclMembers (d : FieldDecl) : List (String × Json) :=
  [("name", name d.name), ("expr", expr d.expr), ("span", span d.span)]

def fieldDecl (d : FieldDecl) : Json := .object (fieldDeclMembers d)

def queryItem : QueryItem → Json
  | .reference p filters => tagged "reference" [("path", path p), ("filters", .array (exprs filters))]
  | .define d => tagged "define" (fieldDeclMembers d)
  | .wildcard p s => tagged "wildcard" [("path", strings p), ("span", span s)]

def orderTarget : OrderTarget → Json
  | .ordinal n => Json.nat n.toNat
  | .name s => .string s

def orderByItem (o : OrderByItem) : Json :=
  .object [("field", orderTarget o.field), ("direction", Json.ofOption word o.direction),
    ("span", span o.span)]

def sampleSpec : SampleSpec → Json
  | .enabled b => tagged "enabled" [("enabled", .bool b)]
  | .rows n => tagged "rows" [("rows", Json.nat n.toNat)]
  | .percent x => tagged "percent" [("percent", .number (.float x))]

mutual

def stageProperty : StageProperty → Json
  | .groupBy fields => tagged "group_by" [("fields", .array (fields.map queryItem))]
  | .aggregate fields => tagged "aggregate" [("fields", .array (fields.map queryItem))]
  | .project fields => tagged "project" [("fields", .array (fields.map queryItem))]
  | .index fields weight =>
    tagged "index" [("fields", .array (fields.map queryItem)), ("by", Json.ofOption name weight)]
  | .nest entries => tagged "nest" [("entries", .array (nestItems entries))]
  | .filter filters => tagged "where" [("filters", .array (exprs filters))]
  | .having filters => tagged "having" [("filters", .array (exprs filters))]
  | .orderBy items => tagged "order_by" [("items", .array (items.map orderByItem))]
  | .limit count s => tagged "limit" [("count", Json.nat count.toNat), ("span", span s)]
  | .top count order s =>
    tagged "top"
      [("count", Json.nat count.toNat), ("by", Json.ofOption orderByItem order), ("span", span s)]
  | .sample sample s => tagged "sample" [("sample", sampleSpec sample), ("span", span s)]
  | .declare fields => tagged "declare" [("fields", .array (fields.map fieldDecl))]

def stageProperties : List StageProperty → List Json
  | [] => []
  | p :: rest => stageProperty p :: stageProperties rest

def stageBlockMembers : StageBlock → List (String × Json)
  | ⟨properties, s⟩ => [("properties", .array (stageProperties properties)), ("span", span s)]

def refinement : Option StageBlock → Json
  | none => .null
  | some block => .object (stageBlockMembers block)

def nestItem : NestItem → Json
  | .reference n r => tagged "reference" [("name", name n), ("refinement", refinement r)]
  | .define n pipeline s =>
    tagged "define" [("name", name n), ("pipeline", .array (pipeElements pipeline)), ("span", span s)]

def nestItems : List NestItem → List Json
  | [] => []
  | i :: rest => nestItem i :: nestItems rest

def pipeElement : PipeElement → Json
  | .stage block => tagged "stage" (stageBlockMembers block)
  | .view n r => tagged "view" [("name", name n), ("refinement", refinement r)]

def pipeElements : List PipeElement → List Json
  | [] => []
  | p :: rest => pipeElement p :: pipeElements rest

end

def viewDecl (v : ViewDecl) : Json :=
  .object [("name", name v.name), ("pipeline", .array (pipeElements v.pipeline)),
    ("span", span v.span)]

def renameDecl (r : RenameDecl) : Json :=
  .object [("new_name", name r.newName), ("old_name", name r.oldName)]

def joinCondition : JoinCondition → Json
  | .key e => tagged "with" [("expr", expr e)]
  | .on e => tagged "on" [("expr", expr e)]

mutual

def sourceExpr : SourceExpr → Json
  | .named n => tagged "named" [("name", name n)]
  | .table connection p s =>
    tagged "table"
      [("connection", Json.ofOption .string connection), ("path", .string p), ("span", span s)]
  | .fromQuery query s => tagged "from_query" [("query", queryExpr query), ("span", span s)]
  | .fromSql n => tagged "from_sql" [("name", name n)]
  | .refine base body s =>
    tagged "refine"
      [("base", sourceExpr base), ("body", .array (sourceProperties body)), ("span", span s)]

def sourceOption : Option SourceExpr → Json
  | none => .null
  | some s => sourceExpr s

def sourceProperty : SourceProperty → Json
  | .dimension fields => tagged "dimension" [("fields", .array (fields.map fieldDecl))]
  | .measure fields => tagged "measure" [("fields", .array (fields.map fieldDecl))]
  | .declare fields => tagged "declare" [("fields", .array (fields.map fieldDecl))]
  | .join joins => tagged "join" [("joins", .array (joinDecls joins))]
  | .filter filters => tagged "where" [("filters", .array (exprs filters))]
  | .primaryKey field => tagged "primary_key" [("field", name field)]
  | .accept fields => tagged "accept" [("fields", .array (fields.map name))]
  | .except fields => tagged "except" [("fields", .array (fields.map name))]
  | .rename renames => tagged "rename" [("renames", .array (renames.map renameDecl))]
  | .view views => tagged "view" [("views", .array (views.map viewDecl))]

def sourceProperties : List SourceProperty → List Json
  | [] => []
  | p :: rest => sourceProperty p :: sourceProperties rest

def joinDecl : JoinDecl → Json
  | ⟨n, kind, source, condition, s⟩ =>
    .object [("name", name n), ("kind", word kind), ("source", sourceOption source),
      ("condition", Json.ofOption joinCondition condition), ("span", span s)]

def joinDecls : List JoinDecl → List Json
  | [] => []
  | j :: rest => joinDecl j :: joinDecls rest

def queryExpr : QueryExpr → Json
  | ⟨head, pipeline, s⟩ =>
    .object [("head", queryHead head), ("pipeline", .array (pipeElements pipeline)),
      ("span", span s)]

def queryHead : QueryHead → Json
  | .source s => tagged "source" [("source", sourceExpr s)]
  | .query n => tagged "query" [("name", name n)]

end

def statement : Statement → Json
  | .importing url s => tagged "import" [("url", .string url), ("span", span s)]
  | .source n s p => tagged "source" [("name", name n), ("source", sourceExpr s), ("span", span p)]
  | .query n q s =>
    tagged "query" [("name", Json.ofOption name n), ("query", queryExpr q), ("span", span s)]
  | .sql n connection select s =>
    tagged "sql" [("name", name n), ("connection", Json.ofOption .string connection),
      ("select", .string select), ("span", span s)]

end Encode

def toJson (d : Document) : Json :=
  .object [("statements", .array (d.statements.map Encode.statement))]

end SemanticLayer.Document
