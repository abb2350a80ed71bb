import SemanticLayer.Json.Basic
import SemanticLayer.Decimal.Notation

/-!
Writing JSON: on one line without blanks, or spread over lines with an indentation of two.
-/
namespace SemanticLayer.Json

def hexDigit (n : Nat) : Char := if n < 10 then Char.ofNat (48 + n) else Char.ofNat (87 + n)

def escape (c : Char) : List Char :=
  match c with
  | '\x22' => ['\x5c', '\x22']
  | '\x5c' => ['\x5c', '\x5c']
  | '\x08' => ['\x5c', 'b']
  | '\x0c' => ['\x5c', 'f']
  | '\n' => ['\x5c', 'n']
  | '\r' => ['\x5c', 'r']
  | '\t' => ['\x5c', 't']
  | c =>
    if c.toNat < 0x20 then
      ['\x5c', 'u', '0', '0', hexDigit (c.toNat / 16), hexDigit (c.toNat % 16)]
    else [c]

def quote (s : String) : String :=
  String.ofList ('\x22' :: (s.toList.flatMap escape ++ ['\x22']))

def Number.text : Number → String
  | .integer n => toString n
  | .float x => (Decimal.generalText? x).getD "null"

def leafText : Json → String
  | .null => "null"
  | .bool true => "true"
  | .bool false => "false"
  | .number n => n.text
  | .string s => quote s
  | .array _ => "[]"
  | .object _ => "\x7b\x7d"

mutual

def compact : Json → String
  | .array elements => "[" ++ compactElements elements ++ "]"
  | .object members => "\x7b" ++ compactMembers members ++ "\x7d"
  | leaf => leafText leaf

def compactElements : List Json → String
  | [] => ""
  | [e] => e.compact
  | e :: rest => e.compact ++ "," ++ compactElements rest

def compactMembers : List (String × Json) → String
  | [] => ""
  | [(name, e)] => quote name ++ ":" ++ e.compact
  | (name, e) :: rest => quote name ++ ":" ++ e.compact ++ "," ++ compactMembers rest

end

def newLine (level : Nat) : String := "\n" ++ String.ofList (List.replicate (2 * level) ' ')

mutual

/-- The value over several lines, one element or member a line; empty ones stay on one line. -/
def pretty (level : Nat) : Json → String
  | .array (e :: rest) =>
    "[" ++ prettyElements (level + 1) (e :: rest) ++ newLine level ++ "]"
  | .object (m :: rest) =>
    "\x7b" ++ prettyMembers (level + 1) (m :: rest) ++ newLine level ++ "\x7d"
  | leaf => leafText leaf

def prettyElements (level : Nat) : List Json → String
  | [] => ""
  | [e] => newLine level ++ e.pretty level
  | e :: rest => newLine level ++ e.pretty level ++ "," ++ prettyElements level rest

def prettyMembers (level : Nat) : List (String × Json) → String
  | [] => ""
  | [(name, e)] => newLine level ++ quote name ++ ": " ++ e.pretty level
  | (name, e) :: rest =>
    newLine level ++ quote name ++ ": " ++ e.pretty level ++ "," ++ prettyMembers level rest

end

end SemanticLayer.Json
