import SemanticLayer.Json.Lexer

/-!
Reading JSON values from tokens. A strict reading refuses strings that denote no text, numbers that
are too large, and values that nest too deeply; a lenient one checks the grammar alone and is for
values that nobody will look at.
-/
namespace SemanticLayer.Json

def maxDepth : Nat := 127

def leaf? (lenient : Bool) : Token → Option Json
  | .null => some .null
  | .bool b => some (.bool b)
  | .number (some n) => some (.number n)
  | .string (some s) => some (.string s)
  | .number none => if lenient then some .null else none
  | .string none => if lenient then some .null else none
  | .punctuation _ => none

def key? (lenient : Bool) : Token → Option String
  | .string (some s) => some s
  | .string none => if lenient then some "" else none
  | _ => none

mutual

/-- Reads one value; `fuel` bounds the tokens read and `depth` the levels that may still open. -/
def value? (lenient : Bool) : (fuel depth : Nat) → List Token → Option (Json × List Token)
  | 0, _, _ => none
  | fuel + 1, depth, tokens =>
    match tokens with
    | .punctuation .openBracket :: rest =>
      if depth = 0 then none
      else
        match rest with
        | .punctuation .closeBracket :: rest => some (.array [], rest)
        | _ => (elements? lenient fuel (depth - 1) rest).map fun (es, rest) => (.array es, rest)
    | .punctuation .openBrace :: rest =>
      if depth = 0 then none
      else
        match rest with
        | .punctuation .closeBrace :: rest => some (.object [], rest)
        | _ => (members? lenient fuel (depth - 1) rest).map fun (ms, rest) => (.object ms, rest)
    | token :: rest => (leaf? lenient token).map fun leaf => (leaf, rest)
    | [] => none

def elements? (lenient : Bool) : (fuel depth : Nat) → List Token → Option (List Json × List Token)
  | 0, _, _ => none
  | fuel + 1, depth, tokens =>
    match value? lenient fuel depth tokens with
    | some (e, .punctuation .comma :: rest) =>
      (elements? lenient fuel depth rest).map fun (es, rest) => (e :: es, rest)
    | some (e, .punctuation .closeBracket :: rest) => some ([e], rest)
    | _ => none

def members? (lenient : Bool) :
    (fuel depth : Nat) → List Token → Option (List (String × Json) × List Token)
  | 0, _, _ => none
  | fuel + 1, depth, tokens =>
    match tokens with
    | token :: .punctuation .colon :: rest =>
      match key? lenient token, value? lenient fuel depth rest with
      | some name, some (e, .punctuation .comma :: rest) =>
        (members? lenient fuel depth rest).map fun (ms, rest) => ((name, e) :: ms, rest)
      | some name, some (e, .punctuation .closeBrace :: rest) => some ([(name, e)], rest)
      | _, _ => none
    | _ => none

end

/-- Fuel that suffices for a list of tokens: each token is looked at by at most two functions. -/
def fuelFor (tokens : List Token) : Nat := 2 * tokens.length + 2

def readWithin? (depth : Nat) (text : String) : Option Json := do
  let tokens ← tokens? text
  match ← value? false (fuelFor tokens) depth tokens with
  | (value, []) => return value
  | _ => none

def read? (text : String) : Option Json := readWithin? maxDepth text

end SemanticLayer.Json
