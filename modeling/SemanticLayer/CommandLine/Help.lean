import SemanticLayer.CommandLine.Arguments

/-!
What the command line says about itself.
-/
namespace SemanticLayer.CommandLine

def versionText : String := "quarry 0.1.0\n"

def columns (rows : List (String × String)) : String :=
  let width := rows.foldl (fun width row => max width row.1.length) 0
  "".intercalate (rows.map fun (left, right) =>
    "  " ++ left ++ String.ofList (List.replicate (width - left.length + 2) ' ') ++ right ++ "\n")

def Setting.row (s : Setting) : String × String :=
  let letter := match s.letter? with
    | some letter => s!"-{letter}, "
    | none => "    "
  (letter ++ s!"--{s.name} <{s.name.toUpper}>", s.about)

def helpRow : String × String := ("-h, --help", "Print help")

def helpText : Option Command → String
  | none =>
    let commands := Command.all.map fun c => (c.name, c.about)
    "Compile semantic model documents to SQL\n\nUsage: quarry [OPTIONS] <COMMAND>\n\nCommands:\n"
      ++ columns (commands ++ [("help", "Print this message or the help of the given subcommand(s)")])
      ++ "\nOptions:\n"
      ++ columns ((Setting.allowed none).map Setting.row
        ++ [helpRow, ("-V, --version", "Print version")])
  | some command =>
    command.about ++ s!"\n\nUsage: quarry {command.name} [OPTIONS] <FILE>\n\nArguments:\n"
      ++ columns [("<FILE>", "Path to the model document")] ++ "\nOptions:\n"
      ++ columns ((Setting.allowed (some command)).map Setting.row ++ [helpRow])

def misuseText : String := "error: the arguments are not understood\n\nFor more information, try '--help'.\n"

end SemanticLayer.CommandLine
