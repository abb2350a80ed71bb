/-!
References to environment variables in a text: `$NAME`, or a name between `${` and `}`. A reference
is replaced once; the value of a variable is not looked at again.
-/
namespace SemanticLayer

abbrev Environment := List (String × String)

namespace Environment

inductive Piece where
  | char (c : Char)
  | variable (name : String)
  deriving DecidableEq, Repr

def isNameChar (c : Char) : Bool := c.isAlphanum || c == '_'

def reference? (cs : List Char) : Option (String × Nat) :=
  match cs with
  | '\x7b' :: rest =>
    let name := rest.takeWhile (· != '\x7d')
    if name.length < rest.length then some (String.ofList name, name.length + 2) else none
  | cs =>
    let name := cs.takeWhile isNameChar
    if name.isEmpty then none else some (String.ofList name, name.length)

/-- The pieces of a text, from left to right; the first `skip` characters belong to a reference that has
been taken already. -/
def piecesFrom (skip : Nat) : List Char → List Piece
  | [] => []
  | c :: rest =>
    match skip with
    | skip + 1 => piecesFrom skip rest
    | 0 =>
      match if c == '$' then reference? rest else none with
      | some (name, length) => .variable name :: piecesFrom length rest
      | none => .char c :: piecesFrom 0 rest

def pieces (text : String) : List Piece := piecesFrom 0 text.toList

def expandPiece (env : Environment) : Piece → Except String String
  | .char c => .ok c.toString
  | .variable name =>
    match env.lookup name with
    | some value => .ok value
    | none => .error name

/-- Replaces each reference by the value of its variable. The first variable that is not set is
reported. -/
def expand (env : Environment) (text : String) : Except String String :=
  ((pieces text).mapM (expandPiece env)).map fun parts => "".intercalate parts

end Environment

end SemanticLayer
