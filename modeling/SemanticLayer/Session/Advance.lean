import SemanticLayer.Elaborate.Model
import SemanticLayer.Session.Imports
import SemanticLayer.Settings.Basic

/-!
How far a session gets with what it holds. The answer names what is still needed, or is the model of the
root document.
-/
namespace SemanticLayer.Session

inductive Status where
  | needsDocuments (urls : List String)
  | needsSchemas (tables : List TableRequest) (sqlBlocks : List SqlRequest)
  | done (model : Model)

structure Answer where
  status : Status
  diagnostics : List Diagnostic

namespace Answer

def model? (a : Answer) : Option Model :=
  match a.status with
  | .done model => some model
  | _ => none

def isDone (a : Answer) : Bool := a.model?.isSome

def finished (a : Answer) : Except String Model :=
  let waiting (keys : List String) : Except String Model :=
    .error ("translation is not finished: still waiting for " ++ ", ".intercalate keys)
  match a.status with
  | .done model => .ok model
  | .needsDocuments urls => waiting urls
  | .needsSchemas tables sqlBlocks =>
    waiting (tables.map TableRequest.key ++ sqlBlocks.map SqlRequest.key)

end Answer

def neededTables (s : Session) (urls : List String) : List TableRequest :=
  ordered (((urls.filterMap s.document?).flatMap Document.tables).filter fun request =>
    (s.catalog.tables.lookup request.key).isNone)

def neededSqlBlocks (s : Session) (urls : List String) : List SqlRequest :=
  ordered (((urls.filterMap s.document?).flatMap Document.sqlBlocks).filter fun request =>
    (s.catalog.sqlBlocks.lookup request.key).isNone)

def build (settings : Settings) (s : Session) (ls : List Link) (models : List (String × Model))
    (url : String) : List (String × Model) :=
  match s.document? url with
  | none => models
  | some document =>
    let imports := (ls.filter (·.importer == url)).filterMap fun l =>
      (models.lookup l.target).map (l.written, ·)
    models ++ [(url, Elaborate.document ⟨url, s.catalog, settings.dialectOf, imports⟩ document)]

def models (settings : Settings) (s : Session) (g : Graph) : List (String × Model) :=
  g.order.foldl (build settings s g.links) []

def advance (settings : Settings) (s : Session) : Answer :=
  let vs := visits s settings.maxImportDepth
  let diagnostics := vs.flatMap (Visit.diagnostics s settings.maxImportDepth)
  match missing s vs with
  | url :: urls => ⟨.needsDocuments (url :: urls), diagnostics⟩
  | [] =>
    let g := graph s vs
    let diagnostics := diagnostics ++ g.diagnostics
    let tables := neededTables s (reached s vs)
    let sqlBlocks := neededSqlBlocks s (reached s vs)
    if !s.isFinal && !(tables.isEmpty && sqlBlocks.isEmpty) then
      ⟨.needsSchemas tables sqlBlocks, diagnostics⟩
    else
      let models := models settings s g
      ⟨.done ((models.lookup s.root).getD .empty),
        diagnostics ++ models.flatMap fun (_, model) => model.diagnostics⟩

end SemanticLayer.Session
