import SemanticLayer.Location
import SemanticLayer.Vocabulary

/-!
Documents of the modelling language, as their grammar gives them: statements that import other
documents and define sources, queries and SQL blocks. Every part carries the span it was written at.
-/
namespace SemanticLayer

namespace Document

abbrev Name := Spanned String

structure FieldPath where
  names : List String
  span : Span

namespace FieldPath

def ofDotted (text : String) : FieldPath := ⟨text.splitOn ".", default⟩

def text (p : FieldPath) : String := String.intercalate "." p.names

def last (p : FieldPath) : String := p.names.getLast?.getD ""

end FieldPath

mutual

inductive ExprKind where
  | number (value : String)
  | string (value : String)
  | boolean (value : Bool)
  | null
  | time (literal : String)
  | now
  | field (path : FieldPath)
  | unary (op : UnaryOp) (operand : Expr)
  | binary (op : BinaryOp) (left right : Expr)
  | aggregate (function : AggregateFunction) (source : Option FieldPath) (arg : Option Expr)
  | filtered (expr : Expr) (filters : List Expr)
  | pick (arms : List PickArm) (otherwise : Option Expr)
  | cast (expr : Expr) (type : AtomicType) (safe : Bool)
  | truncate (expr : Expr) (unit : TimeUnit)
  | extract (unit : ExtractUnit) (expr : Expr)
  /-- `3 days`: an offset in time arithmetic, or the length of a range. -/
  | duration (amount : Expr) (unit : TimeUnit)
  /-- `start to end`, or `start for 3 days` where the end is a duration. -/
  | range (start stop : Expr)
  | apply (value pattern : Expr)
  | isNull (expr : Expr) (negated : Bool)
  | isIn (expr : Expr) (values : List Expr) (negated : Bool)
  | ungroup (kind : UngroupKind) (expr : Expr) (fields : List (Spanned String))
  | call (function : Spanned String) (args : List Expr)

structure Expr where
  kind : ExprKind
  span : Span

structure PickArm where
  value : Expr
  condition : Expr

end

structure FieldDecl where
  name : Name
  expr : Expr
  span : Span

inductive QueryItem where
  | reference (path : FieldPath) (filters : List Expr)
  | define (decl : FieldDecl)
  | wildcard (path : List String) (span : Span)

inductive OrderTarget where
  | ordinal (position : UInt64)
  | name (name : String)

structure OrderByItem where
  field : OrderTarget
  direction : Option SortDirection
  span : Span

inductive SampleSpec where
  | enabled (enabled : Bool)
  | rows (rows : UInt64)
  | percent (percent : Float)

mutual

inductive StageProperty where
  | groupBy (fields : List QueryItem)
  | aggregate (fields : List QueryItem)
  | project (fields : List QueryItem)
  | index (fields : List QueryItem) (weight : Option Name)
  | nest (entries : List NestItem)
  | filter (filters : List Expr)
  | having (filters : List Expr)
  | orderBy (items : List OrderByItem)
  | limit (count : UInt64) (span : Span)
  | top (count : UInt64) (order : Option OrderByItem) (span : Span)
  | sample (sample : SampleSpec) (span : Span)
  | declare (fields : List FieldDecl)

structure StageBlock where
  properties : List StageProperty
  span : Span

inductive NestItem where
  | reference (name : Name) (refinement : Option StageBlock)
  | define (name : Name) (pipeline : List PipeElement) (span : Span)

inductive PipeElement where
  | stage (block : StageBlock)
  | view (name : Name) (refinement : Option StageBlock)

end

structure ViewDecl where
  name : Name
  pipeline : List PipeElement
  span : Span

structure RenameDecl where
  newName : Name
  oldName : Name

inductive JoinCondition where
  | key (expr : Expr)
  | on (expr : Expr)

mutual

inductive SourceExpr where
  | named (name : Name)
  | table (connection : Option String) (path : String) (span : Span)
  | fromQuery (query : QueryExpr) (span : Span)
  | fromSql (name : Name)
  | refine (base : SourceExpr) (body : List SourceProperty) (span : Span)

inductive SourceProperty where
  | dimension (fields : List FieldDecl)
  | measure (fields : List FieldDecl)
  | declare (fields : List FieldDecl)
  | join (joins : List JoinDecl)
  | filter (filters : List Expr)
  | primaryKey (field : Name)
  | accept (fields : List Name)
  | except (fields : List Name)
  | rename (renames : List RenameDecl)
  | view (views : List ViewDecl)

/-- A join; where no source is given, the name of the join is the name of the source. -/
structure JoinDecl where
  name : Name
  kind : JoinKind
  source : Option SourceExpr
  condition : Option JoinCondition
  span : Span

structure QueryExpr where
  head : QueryHead
  pipeline : List PipeElement
  span : Span

inductive QueryHead where
  | source (source : SourceExpr)
  | query (name : Name)

end

inductive Statement where
  | importing (url : String) (span : Span)
  | source (name : Name) (source : SourceExpr) (span : Span)
  | query (name : Option Name) (query : QueryExpr) (span : Span)
  | sql (name : Name) (connection : Option String) (select : String) (span : Span)

def SourceExpr.span : SourceExpr → Span
  | .named name | .fromSql name => name.span
  | .table _ _ span | .fromQuery _ span | .refine _ _ span => span

end Document

structure Document where
  statements : List Document.Statement

end SemanticLayer
