import SemanticLayer.CommandLine.Help
import SemanticLayer.CommandLine.Report
import SemanticLayer.CommandLine.World
import SemanticLayer.Session.Advance
import SemanticLayer.Settings.Read

/-!
The commands. Documents are read from the URLs of files; schemas come from one file alone, so that after
it none are missing that could still come.
-/
namespace SemanticLayer.CommandLine

structure Outcome where
  code : Nat
  stdout : String
  stderr : String
  deriving DecidableEq, Repr

namespace Outcome

def success (stdout : String) : Outcome := ⟨0, stdout, ""⟩

def failure (message : String) : Outcome := ⟨1, "", "quarry: " ++ message ++ "\n"⟩

end Outcome

def linesText (lines : List String) : String := "".intercalate (lines.map (· ++ "\n"))

def orStop [Monad m] (action : m (Except String α)) (message : String → String) :
    ExceptT String m α :=
  ExceptT.mk do
    match ← action with
    | .ok a => return .ok a
    | .error e => return .error (message e)

/-! Schemas -/

structure Schemas where
  tables : List (String × TableSchema)
  sqlBlocks : List (String × TableSchema)

namespace Schemas

open Document.Decode

def none : Schemas := ⟨[], []⟩

def column? (j : Json) : Option Column := do
  let members ← members? j
  return ⟨← required string? members "name", ← required word? members "type"⟩

def schema? (j : Json) : Option TableSchema := do
  required (list? column?) (← members? j) "fields"

def table? (j : Json) : Option (List (String × TableSchema)) := do
  (← members? j).foldlM (fun table (key, value) => do
    return putSorted key (← schema? value) table) []

def read? (text : String) : Option Schemas := do
  let members ← members? (← Json.read? text)
  return ⟨← defaulted [] table? members "tables", ← defaulted [] table? members "sql"⟩

def supply (s : Schemas) (tables : List TableRequest) (sqlBlocks : List SqlRequest) : Session.Supply :=
  let given (file : List (String × TableSchema)) (key : String) : Option (String × SchemaEntry) :=
    (file.lookup key).map fun schema => (key, .known schema)
  { Session.Supply.empty with
    tables := tables.filterMap fun request => given s.tables request.key
    sqlBlocks := sqlBlocks.filterMap fun request => given s.sqlBlocks request.key
    isFinal := true }

end Schemas

/-! The session -/

def readUrl [Monad m] (w : World m) (url : String) : m (Except String String) :=
  match Url.read url with
  | .error fault => return .error fault.message
  | .ok parsed =>
    match parsed.fileName? with
    | none => return .error ("only file:// URLs can be read, got " ++ url)
    | some name => w.read name

def readDocuments [Monad m] (w : World m) (urls : List String) : m Session.Supply := do
  let texts ← urls.mapM fun url => do return (url, ← readUrl w url)
  return { Session.Supply.empty with
    texts := texts.filterMap fun (url, text) => text.toOption.map (url, ·)
    unreadable := texts.filterMap fun
      | (url, .error message) => some (url, message)
      | (_, .ok _) => none }

/-- Answers requests until none are left, at most `updates` times. -/
def complete [Monad m] (w : World m) (settings : Settings) (schemas : Schemas) :
    (updates : Nat) → Session → m Session.Answer
  | 0, session => return Session.advance settings session
  | updates + 1, session => do
    let answer := Session.advance settings session
    match answer.status with
    | .done _ => return answer
    | .needsDocuments urls =>
      complete w settings schemas updates (session.update (← readDocuments w urls))
    | .needsSchemas tables sqlBlocks =>
      complete w settings schemas updates (session.update (schemas.supply tables sqlBlocks))

def updatesFor (settings : Settings) : Nat := settings.maxImportDepth + 2

def answerFor [Monad m] (w : World m) (settings : Settings) (file : String) (schemas : Option String) :
    ExceptT String m Session.Answer := do
  let schemas ← match schemas with
    | none => pure Schemas.none
    | some name =>
      let text ← orStop (w.read name) fun message => name ++ ": " ++ message
      match Schemas.read? text with
      | some schemas => pure schemas
      | none => throw (name ++ ": malformed schema file")
  let name ← orStop (w.locate file) fun message => file ++ ": " ++ message
  let session := Session.start (Url.ofFileName name).text
  ExceptT.lift (complete w settings schemas (updatesFor settings) session)

def stoppedEarly : String := "translation stopped before the model was complete"

def modelOf [Monad m] (answer : Session.Answer) : ExceptT String m Model :=
  match answer.model? with
  | some model => pure model
  | none => throw stoppedEarly

/-! Commands -/

def queryOf (o : Options) : Except String QueryRef :=
  match o.query, o.run with
  | some name, _ => .ok (.named name)
  | none, some 0 => .error "--run counts from 1"
  | none, some (n + 1) => .ok (.unnamed n)
  | none, none => .ok (.unnamed 0)

def queryConnection (m : Model) (query : QueryRef) : Option String :=
  match m.find query with
  | .ok q => q.connection
  | .error _ => none

def shown (file : String) (query : QueryRef) (q : CompiledQuery) : Output → String
  | .sql => linesText [q.sql]
  | .verbose => linesText [s!"-- {file} / {query.text} ({q.dialect.name})",
      "-- columns: " ++ ", ".intercalate (q.schema.map ResultField.name), q.sql]
  | .json => linesText [q.toJson.pretty 0]

def compile [Monad m] (w : World m) (settings : Settings) (file : String) (o : Options) :
    ExceptT String m Outcome := do
  let query ← queryOf o
  let model ← modelOf (← answerFor w settings file o.schemas)
  let dialect := o.dialect.getD (settings.dialectOf (queryConnection model query))
  match model.compileQuery ⟨dialect, settings.rowLimit⟩ query with
  | .ok q =>
    return ⟨0, shown file query q (o.output.getD .sql), linesText (q.diagnostics.map Diagnostic.text)⟩
  | .error fault => throw (query.text ++ ": " ++ fault.message)

def sectionLines (title : String) (items : List String) : List String :=
  if items.isEmpty then [] else title :: items.map ("  " ++ ·)

def listing (m : Model) : List String :=
  let sources := m.exports.filterMap fun name =>
    match m.entity? name with
    | some (.source s) => some s!"{name}  {s.fields.visible.length} fields"
    | _ => none
  let queries := m.exports.filterMap fun name =>
    match m.entity? name with
    | some (.query q) => some s!"{name}  {q.stages.length} stages"
    | some _ => none
    | none => if (m.invalid? name).isSome then some (name ++ "  invalid") else none
  let sqlBlocks := m.exports.filter fun name =>
    match m.entity? name with
    | some (.sqlBlock _) => true
    | _ => false
  sectionLines "sources" sources ++ sectionLines "queries" queries ++ sectionLines "sql" sqlBlocks
    ++ if m.queries.isEmpty then [] else [s!"unnamed queries: {m.queries.length}"]

def list [Monad m] (w : World m) (settings : Settings) (file : String) (o : Options) :
    ExceptT String m Outcome := do
  let model ← modelOf (← answerFor w settings file o.schemas)
  return .success (linesText (listing model))

def validate [Monad m] (w : World m) (settings : Settings) (file : String) (o : Options) :
    ExceptT String m Outcome := do
  let answer ← answerFor w settings file o.schemas
  let report := linesText (answer.diagnostics.map Diagnostic.text)
  if Diagnostic.hasErrors answer.diagnostics then return ⟨1, "", report⟩
  else return ⟨0, linesText [file ++ ": ok"], report⟩

/-! Settings -/

def configFile : String := "quarry.toml"

def configVariable : String := "QUARRY_CONFIG"

def settingsFrom [Monad m] (w : World m) (name : String) : ExceptT String m Settings := do
  let text ← orStop (w.read name) fun reason => (Settings.Fault.unreadable name reason).message
  let environment ← (Settings.variableNames text).filterMapM fun name => do
    return (← ExceptT.lift (w.lookup name)).map (name, ·)
  match Settings.read environment text with
  | .ok settings => return settings
  | .error fault => throw fault.message

def loadSettings [Monad m] (w : World m) (config : Option String) : ExceptT String m Settings := do
  match config <|> (← ExceptT.lift (w.lookup configVariable)) with
  | some name => settingsFrom w name
  | none => if ← ExceptT.lift (w.isFile configFile) then settingsFrom w configFile else return .standard

def runCommand [Monad m] (w : World m) (command : Command) (o : Options) :
    ExceptT String m Outcome := do
  let settings ← loadSettings w o.config
  let file := o.file.getD ""
  match command with
  | .compile => compile w settings file o
  | .list => list w settings file o
  | .validate => validate w settings file o

def run [Monad m] (w : World m) (args : List String) : m Outcome := do
  match arguments none args with
  | .ok (command, o) =>
    match ← (runCommand w command o).run with
    | .ok outcome => return outcome
    | .error message => return .failure message
  | .error (.help command) => return .success (helpText command)
  | .error .version => return .success versionText
  | .error .misuse => return ⟨2, "", misuseText⟩

end SemanticLayer.CommandLine
