import SemanticLayer.Document.Basic
import SemanticLayer.Model.Schema
import SemanticLayer.Sorted

/-!
What a document needs from outside: other documents, and the schemas of tables and SQL blocks.
-/
namespace SemanticLayer

structure TableRequest where
  connection : Option String
  path : String
  deriving DecidableEq, Repr, Ord

def TableRequest.key (r : TableRequest) : String := schemaKey r.connection r.path

structure SqlRequest where
  connection : Option String
  name : String
  select : String
  deriving DecidableEq, Repr, Ord

def SqlRequest.key (r : SqlRequest) : String := schemaKey r.connection r.name

namespace Document

structure Import where
  url : String
  span : Span

mutual

def SourceExpr.tables : SourceExpr → List TableRequest
  | .named _ => []
  | .table connection path _ => [⟨connection, path⟩]
  | .fromQuery query _ => query.tables
  | .fromSql _ => []
  | .refine base body _ => base.tables ++ propertyTables body

def propertyTables : List SourceProperty → List TableRequest
  | [] => []
  | property :: rest => property.tables ++ propertyTables rest

def SourceProperty.tables : SourceProperty → List TableRequest
  | .join joins => joinTables joins
  | _ => []

def joinTables : List JoinDecl → List TableRequest
  | [] => []
  | join :: rest => join.tables ++ joinTables rest

def JoinDecl.tables : JoinDecl → List TableRequest
  | ⟨_, _, some source, _, _⟩ => source.tables
  | ⟨_, _, none, _, _⟩ => []

def QueryExpr.tables : QueryExpr → List TableRequest
  | ⟨.source source, _, _⟩ => source.tables
  | ⟨.query _, _, _⟩ => []

end

def Statement.tables : Statement → List TableRequest
  | .source _ expr _ => expr.tables
  | .query _ expr _ => expr.tables
  | _ => []

def Statement.sql? : Statement → Option SqlRequest
  | .sql name connection select _ => some ⟨connection, name.node, select⟩
  | _ => none

def Statement.import? : Statement → Option Import
  | .importing url span => some ⟨url, span⟩
  | _ => none

def imports (d : Document) : List Import := d.statements.filterMap Statement.import?

def tables (d : Document) : List TableRequest := ordered (d.statements.flatMap Statement.tables)

def sqlBlocks (d : Document) : List SqlRequest := ordered (d.statements.filterMap Statement.sql?)

end Document

end SemanticLayer
