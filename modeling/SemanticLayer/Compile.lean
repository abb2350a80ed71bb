import SemanticLayer.Model.Basic
import SemanticLayer.Plan.Query
import SemanticLayer.Settings.Basic
import SemanticLayer.Sql.Layout

/-!
Compiling the queries of a model to SQL.
-/
namespace SemanticLayer

inductive QueryRef where
  | named (name : String)
  | unnamed (index : Nat)
  deriving DecidableEq, Repr

def QueryRef.text : QueryRef → String
  | named name => name
  | unnamed index => s!"run #{index + 1}"

inductive CompileFault where
  | notFound (query : QueryRef)
  | notQuery (name : String) (kind : EntityKind)
  | failed (diagnostic : Diagnostic)
  deriving DecidableEq, Repr

namespace CompileFault

def message : CompileFault → String
  | notFound query => "Query not found: " ++ query.text
  | notQuery name kind => s!"'{name}' is a {kind.name}, not a query"
  | failed diagnostic => diagnostic.text

def diagnostic? : CompileFault → Option Diagnostic
  | failed diagnostic => some diagnostic
  | _ => none

end CompileFault

structure CompileOptions where
  dialect : Dialect
  rowLimit : Option Nat
  deriving DecidableEq, Repr

namespace CompileOptions

def standard : CompileOptions := ⟨.duckdb, none⟩

def ofSettings (s : Settings) (connection : Option String) : CompileOptions :=
  ⟨s.dialectOf connection, s.rowLimit⟩

end CompileOptions

structure CompiledQuery where
  sql : String
  schema : List ResultField
  diagnostics : List Diagnostic
  dialect : Dialect

namespace Model

def find (m : Model) (query : QueryRef) : Except CompileFault Query :=
  match query with
  | .named name =>
    match m.invalid? name, m.entity? name with
    | some diagnostic, _ => .error (.failed diagnostic)
    | none, some (.query q) => .ok q
    | none, some other => .error (.notQuery name other.kind)
    | none, none => .error (.notFound query)
  | .unnamed index =>
    match m.queries[index]? with
    | some (.ok q) => .ok q
    | some (.error diagnostic) => .error (.failed diagnostic)
    | none => .error (.notFound query)

def warningsWithin (m : Model) (location : Location) : List Diagnostic :=
  m.diagnostics.filter fun d => !d.isError && location.contains d.location

def compileQuery (m : Model) (options : CompileOptions) (query : QueryRef) :
    Except CompileFault CompiledQuery := do
  let q ← m.find query
  match q.plan options.dialect options.rowLimit with
  | .ok statement =>
    return ⟨statement.text options.dialect, q.outputSchema, m.warningsWithin q.location, options.dialect⟩
  | .error fault => .error (.failed (fault.diagnostic q.location))

/-- The queries that can be compiled: named ones in order of definition, then those without a name. -/
def compilable (m : Model) : List QueryRef :=
  let named := m.exports.filter fun name => (m.query? name).isSome
  let unnamed := m.queries.zipIdx.filterMap fun (q, index) =>
    match q with
    | .ok _ => some (.unnamed index)
    | .error _ => none
  named.map .named ++ unnamed

end Model

end SemanticLayer
