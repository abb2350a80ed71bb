import SemanticLayer.Dialect.Basic

/-!
The arguments of the command line. A command takes one file and options, in any order; an option is
given at most once.
-/
namespace SemanticLayer.CommandLine

inductive Output where
  | sql
  | verbose
  | json
  deriving DecidableEq, Repr

def Output.ofName? (name : String) : Option Output :=
  match name with
  | "sql" => some .sql
  | "verbose" => some .verbose
  | "json" => some .json
  | _ => none

inductive Command where
  | compile | list | validate
  deriving DecidableEq, Repr

namespace Command

def all : List Command := [compile, list, validate]

def name : Command → String
  | compile => "compile"
  | list => "list"
  | validate => "validate"

def about : Command → String
  | compile => "Compile a query of a model to SQL"
  | list => "List sources, queries and SQL blocks in a model"
  | validate => "Translate a model and report its diagnostics without generating SQL"

end Command

inductive Setting where
  | config | query | run | dialect | schemas | output
  deriving DecidableEq, Repr

namespace Setting

def all : List Setting := [config, query, run, dialect, schemas, output]

def name : Setting → String
  | config => "config"
  | query => "query"
  | run => "run"
  | dialect => "dialect"
  | schemas => "schemas"
  | output => "output"

def letter? : Setting → Option Char
  | config => none
  | query => some 'q'
  | run => some 'r'
  | dialect => some 'd'
  | schemas => some 's'
  | output => some 'o'

def about : Setting → String
  | config => "Path to quarry.toml (defaults to $QUARRY_CONFIG, then ./quarry.toml)"
  | query => "Name of the query to compile"
  | run => "Unnamed query to compile, counted from 1 (default: the first)"
  | dialect => "duckdb, postgres, bigquery, snowflake or mysql (default: from quarry.toml)"
  | schemas => "JSON file with table and SQL block schemas"
  | output => "Output format [default: sql] [possible values: sql, verbose, json]"

def allowed : Option Command → List Setting
  | none => [config]
  | some .compile => all
  | some _ => [config, schemas]

end Setting

structure Options where
  file : Option String
  config : Option String
  query : Option String
  run : Option Nat
  dialect : Option Dialect
  schemas : Option String
  output : Option Output
  deriving DecidableEq, Repr

def Options.empty : Options := ⟨none, none, none, none, none, none, none⟩

inductive Stop where
  | help (command : Option Command)
  | version
  | misuse
  deriving DecidableEq, Repr

def count? (text : String) : Option Nat :=
  let digits := match text.toList with
    | '+' :: rest => rest
    | cs => cs
  if digits.isEmpty || !digits.all Char.isDigit then none
  else
    let value := digits.foldl (fun value c => value * 10 + (c.toNat - 48)) 0
    if value < 0x10000000000000000 then some value else none

def fileName? (text : String) : Option String := if text.isEmpty then none else some text

def once (current value : Option α) : Except Stop (Option α) :=
  match current, value with
  | none, some value => .ok (some value)
  | _, _ => .error .misuse

def Options.set (o : Options) (setting : Setting) (value : String) : Except Stop Options := do
  match setting with
  | .config => return { o with config := ← once o.config (fileName? value) }
  | .query => return { o with query := ← once o.query (some value) }
  | .run => return { o with run := ← once o.run (count? value) }
  | .dialect => return { o with dialect := ← once o.dialect (Dialect.ofAlias? value) }
  | .schemas => return { o with schemas := ← once o.schemas (fileName? value) }
  | .output => return { o with output := ← once o.output (Output.ofName? value) }

inductive Word where
  | plain (text : String)
  | setting (setting : Setting) (value : Option String)
  | stop (stop : Stop)
  | dashes
  deriving DecidableEq, Repr

def looksLikeOption (text : String) : Bool := text.startsWith "-" && text != "-"

def longWord (command : Option Command) (text : String) : Word :=
  let (name, value) := match text.toList.span (· != '=') with
    | (name, _ :: value) => (String.ofList name, some (String.ofList value))
    | (name, []) => (String.ofList name, none)
  match (Setting.allowed command).find? (·.name == name) with
  | some setting => .setting setting value
  | none =>
    if value.isSome then .stop .misuse
    else if name == "help" then .stop (.help command)
    else if name == "version" && command.isNone then .stop .version
    else .stop .misuse

def shortWord (command : Option Command) (letter : Char) (rest : List Char) : Word :=
  match (Setting.allowed command).find? (·.letter? == some letter) with
  | some setting =>
    match rest with
    | [] => .setting setting none
    | '=' :: value => .setting setting (some (String.ofList value))
    | value => .setting setting (some (String.ofList value))
  | none =>
    if letter == 'h' then .stop (.help command)
    else if letter == 'V' && command.isNone then .stop .version
    else .stop .misuse

def word (command : Option Command) (text : String) : Word :=
  match text.toList with
  | ['-', '-'] => .dashes
  | '-' :: '-' :: rest => longWord command (String.ofList rest)
  | '-' :: letter :: rest => shortWord command letter rest
  | _ => .plain text

def Options.setFile (o : Options) (name : String) : Except Stop Options := do
  return { o with file := ← once o.file (fileName? name) }

def commandOptions (command : Command) (o : Options) : List String → Except Stop Options
  | [] => .ok o
  | [text] =>
    match word (some command) text with
    | .plain name => o.setFile name
    | .setting setting (some value) => o.set setting value
    | .setting _ none => .error .misuse
    | .stop stop => .error stop
    | .dashes => .ok o
  | text :: next :: rest =>
    match word (some command) text with
    | .plain name => o.setFile name >>= fun o => commandOptions command o (next :: rest)
    | .setting setting (some value) =>
      o.set setting value >>= fun o => commandOptions command o (next :: rest)
    | .setting setting none =>
      if looksLikeOption next then .error .misuse
      else o.set setting next >>= fun o => commandOptions command o rest
    | .stop stop => .error stop
    | .dashes => (next :: rest).foldlM Options.setFile o

def command (config : Option String) (name : String) (rest : List String) :
    Except Stop (Command × Options) :=
  match Command.all.find? (·.name == name) with
  | some command => do
    let o ← commandOptions command .empty rest
    let o := { o with config := o.config <|> config }
    if o.file.isNone || (o.query.isSome && o.run.isSome) then throw .misuse
    return (command, o)
  | none =>
    if name == "help" then
      match rest with
      | [] => .error (.help none)
      | [topic] =>
        match Command.all.find? (·.name == topic) with
        | some command => .error (.help (some command))
        | none => .error (if topic == "help" then .help none else .misuse)
      | _ => .error .misuse
    else .error .misuse

/-- All arguments: a configuration file may be named before the command or after it. -/
def arguments (config : Option String) : List String → Except Stop (Command × Options)
  | [] => .error .misuse
  | text :: rest =>
    match word none text with
    | .plain name => command config name rest
    | .setting _ (some value) =>
      once config (fileName? value) >>= fun config => arguments config rest
    | .setting _ none =>
      match rest with
      | [] => .error .misuse
      | next :: rest =>
        if looksLikeOption next then .error .misuse
        else once config (fileName? next) >>= fun config => arguments config rest
    | .stop stop => .error stop
    | .dashes => .error .misuse

end SemanticLayer.CommandLine
