import SemanticLayer.Settings.Basic
import SemanticLayer.Settings.Environment
import SemanticLayer.Toml.Reader

/-!
Settings from the text of a configuration file. References to environment variables are replaced in
every string before the settings are looked at, in ascending order of keys.
-/
namespace SemanticLayer.Settings

inductive Fault where
  | unreadable (path reason : String)
  | malformed
  | missingVariable (name : String)
  | unknownConnection (name : String)
  | noImportDepth
  deriving DecidableEq, Repr

def Fault.message : Fault → String
  | unreadable path reason => s!"cannot read {path}: {reason}"
  | malformed => "invalid quarry.toml"
  | missingVariable name => s!"environment variable ${name} is not set"
  | unknownConnection name => s!"no connection named '{name}'"
  | noImportDepth => "translator.max_import_depth must be at least 1"

def connection (s : Settings) (name : String) : Except Fault Dialect :=
  match s.connection? name with
  | some dialect => .ok dialect
  | none => .error (.unknownConnection name)

mutual

/-- Replaces the references in all strings of a value. Keys are left as they are. -/
def expanded (env : Environment) : Toml → Except Fault Toml
  | .string text =>
    match env.expand text with
    | .ok text => .ok (.string text)
    | .error name => .error (.missingVariable name)
  | .array elements => return .array (← expandedElements env elements)
  | .table entries => return .table (← expandedEntries env entries)
  | value => .ok value

def expandedElements (env : Environment) : List Toml → Except Fault (List Toml)
  | [] => .ok []
  | value :: rest => do
    let value ← expanded env value
    return value :: (← expandedElements env rest)

def expandedEntries (env : Environment) :
    List (String × Toml) → Except Fault (List (String × Toml))
  | [] => .ok []
  | (key, value) :: rest => do
    let value ← expanded env value
    return (key, value) :: (← expandedEntries env rest)

end

mutual

def referenced : Toml → List String
  | .string text => (Environment.pieces text).filterMap fun
    | .variable name => some name
    | .char _ => none
  | .array elements => referencedElements elements
  | .table entries => referencedEntries entries
  | _ => []

def referencedElements : List Toml → List String
  | [] => []
  | value :: rest => referenced value ++ referencedElements rest

def referencedEntries : List (String × Toml) → List String
  | [] => []
  | (_, value) :: rest => referenced value ++ referencedEntries rest

end

def variableNames (text : String) : List String :=
  match Toml.read? text with
  | some file => referenced file
  | none => []

def dialect? : Toml → Option Dialect
  | .string name => Dialect.all.find? (·.name == name)
  | .table [(name, .table [])] => Dialect.all.find? (·.name == name)
  | .table [(name, .array [])] => Dialect.all.find? (·.name == name)
  | _ => none

def natural? : Toml → Option Nat
  | .integer value => if 0 ≤ value then some value.toNat else none
  | _ => none

/-- The members of a section: a table gives them by name, an array in their order. Other members of a
table are ignored. -/
def section? (names : List String) : Toml → Option (List (String × Toml))
  | .table entries => some (names.filterMap fun name => (entries.lookup name).map (name, ·))
  | .array elements =>
    if elements.length ≤ names.length then some (names.zip elements) else none
  | _ => none

def member? (read : Toml → Option α) (missing : α) (members : List (String × Toml)) (name : String) :
    Option α :=
  match members.lookup name with
  | some value => read value
  | none => some missing

def connectionOf? (value : Toml) : Option Dialect := do
  let members ← section? ["dialect"] value
  dialect? (← members.lookup "dialect")

def connections? : Toml → Option (List (String × Dialect))
  | .table entries => entries.mapM fun (name, value) => (connectionOf? value).map (name, ·)
  | _ => none

def ofToml? (file : Toml) : Option Settings := do
  let part := fun name => (file.entry? name).getD (.table [])
  let compile ← section? ["dialect", "default_row_limit"] (part "compile")
  let dialect ← member? dialect? standard.dialect compile "dialect"
  let rowLimit ← member? (fun value => (natural? value).map some) none compile "default_row_limit"
  let connections ← connections? (part "connections")
  let imports ← section? ["max_import_depth"] (part "translator")
  let depth ← member? natural? standardImportDepth imports "max_import_depth"
  return ⟨dialect, rowLimit, connections, depth⟩

def read (env : Environment) (text : String) : Except Fault Settings := do
  let some file := Toml.read? text | throw .malformed
  let file ← expanded env file
  let some settings := ofToml? file | throw .malformed
  if settings.maxImportDepth = 0 then throw .noImportDepth
  return settings

end SemanticLayer.Settings
