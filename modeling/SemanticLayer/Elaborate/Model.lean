import SemanticLayer.Elaborate.Source
import SemanticLayer.Sql.Block

/-!
The model of a document. Statements are taken in order; each definition stands on its own, and one that
fails is remembered with its diagnostic, so that what refers to it fails without a further report.
-/
namespace SemanticLayer.Elaborate

structure Inputs where
  url : String
  catalog : Catalog
  dialect : Option String → Dialect
  imports : List (String × Model)

namespace Inputs

def location (i : Inputs) (span : Span) : Location := ⟨i.url, span⟩

end Inputs

def addDiagnostics (m : Model) (diagnostics : List Diagnostic) : Model :=
  { m with diagnostics := m.diagnostics ++ diagnostics }

def reportIn (m : Model) (f : LocatedFault) : Model :=
  if f.fault.isCascade then m else addDiagnostics m [f.diagnostic]

def define (m : Model) (name : String) (outcome : Except LocatedFault Entity) : Model :=
  let m := match outcome with
    | .ok entity => { m with entities := m.entities ++ [(name, entity)] }
    | .error fault =>
      let m := reportIn m fault
      { m with invalid := m.invalid ++ [(name, fault.diagnostic)] }
  { m with exports := m.exports ++ [name] }

def running (i : Inputs) (m : Model) (building : Option String) (action : BuildM α) :
    Except LocatedFault α × Model :=
  let (outcome, diagnostics) := (action ⟨i.url, i.catalog, m.entities, m.invalid, building⟩).run.run []
  (outcome, addDiagnostics m diagnostics)

def importName (i : Inputs) (url : String) (span : Span) (imported m : Model) (name : String) : Model :=
  if m.defines name then reportIn m ⟨.importCollision name url, i.location span⟩
  else
    match imported.entity? name, imported.invalid? name with
    | some entity, _ => { m with entities := m.entities ++ [(name, entity)] }
    | none, some diagnostic => { m with invalid := m.invalid ++ [(name, diagnostic)] }
    | none, none => m

def sqlBlock (i : Inputs) (name : String) (connection : Option String) (select : String)
    (location : Location) : Except LocatedFault Entity :=
  match i.catalog.sqlBlock (schemaKey connection name) with
  | .ok schema => .ok (.sqlBlock ⟨name, connection, select, schema, location⟩)
  | .error fault => .error ⟨fault, location⟩

def sqlWarnings (i : Inputs) (connection : Option String) (select : String) (location : Location) :
    List Diagnostic :=
  match Sql.Block.fault? (i.dialect connection) select with
  | some fault => [⟨.malformed, .warning, fault.message, location⟩]
  | none => []

def claiming (i : Inputs) (m : Model) (name : Document.Name) (go : Unit → Model) : Model :=
  if m.defines name.node then reportIn m ⟨.duplicateName name.node, i.location name.span⟩ else go ()

def statement (i : Inputs) (m : Model) : Document.Statement → Model
  | .importing url span =>
    match i.imports.lookup url with
    | some imported => imported.exports.foldl (importName i url span imported) m
    | none => m
  | .source name expr span => claiming i m name fun _ =>
    let (outcome, m) := running i m (some name.node) (source expr)
    define m name.node (outcome.map fun s =>
      .source { s with name := name.node, location := i.location span })
  | .query none expr _ =>
    let (outcome, m) := running i m none (query none expr)
    match outcome with
    | .ok q => { m with queries := m.queries ++ [.ok q] }
    | .error fault =>
      let m := reportIn m fault
      { m with queries := m.queries ++ [.error fault.diagnostic] }
  | .query (some name) expr _ => claiming i m name fun _ =>
    let (outcome, m) := running i m none (query (some name.node) expr)
    define m name.node (outcome.map .query)
  | .sql name connection select span => claiming i m name fun _ =>
    let location := i.location span
    define (addDiagnostics m (sqlWarnings i connection select location)) name.node
      (sqlBlock i name.node connection select location)

def document (i : Inputs) (d : Document) : Model := d.statements.foldl (statement i) .empty

end SemanticLayer.Elaborate
