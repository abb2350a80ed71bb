import SemanticLayer.Toml.Quoted
import SemanticLayer.Toml.Scalar
import SemanticLayer.Toml.Tree

/-!
Reading TOML. A document is a list of lines, each of which is empty, opens a table or gives a value to
a key.
-/
namespace SemanticLayer.Toml

def isSpace (c : Char) : Bool := c == ' ' || c == '\t'

def skipSpace (cs : List Char) : List Char := cs.dropWhile isSpace

def skipLines? (inComment : Bool) : List Char → Option (List Char)
  | [] => some []
  | '\n' :: rest => skipLines? false rest
  | '\r' :: '\n' :: rest => skipLines? false rest
  | c :: rest =>
    if inComment then if isPlain c then skipLines? true rest else none
    else if isSpace c then skipLines? false rest
    else if c == '#' then skipLines? true rest
    else some (c :: rest)

def endLine? (inComment : Bool) : List Char → Option (List Char)
  | [] => some []
  | '\n' :: rest => some rest
  | '\r' :: '\n' :: rest => some rest
  | c :: rest =>
    if inComment then if isPlain c then endLine? true rest else none
    else if isSpace c then endLine? false rest
    else if c == '#' then endLine? true rest
    else none

def isKeyChar (c : Char) : Bool := c.isAlphanum || c == '_' || c == '-'

def keyPart? (cs : List Char) : Option (String × List Char) :=
  match cs.span isKeyChar with
  | ([], cs) => quotedLine? cs
  | (part, rest) => some (String.ofList part, rest)

def keyWithin? : (fuel : Nat) → List Char → Option (List String × List Char)
  | 0, _ => none
  | fuel + 1, cs => do
    let (part, rest) ← keyPart? (skipSpace cs)
    match skipSpace rest with
    | '.' :: rest =>
      let (parts, rest) ← keyWithin? fuel rest
      return (part :: parts, rest)
    | rest => return ([part], rest)

def key? (cs : List Char) : Option (List String × List Char) := keyWithin? (cs.length + 1) cs

mutual

/-- Reads one value. Each character takes at most two steps of `fuel`. -/
def valueWithin? : (fuel : Nat) → List Char → Option (Toml × List Char)
  | 0, _ => none
  | fuel + 1, cs =>
    match cs with
    | '[' :: rest => do
      let (elements, rest) ← elementsWithin? fuel rest
      return (.array elements, rest)
    | '\x7b' :: rest => do
      let (entries, rest) ← entriesWithin? fuel [] rest
      return (.table (finished entries), rest)
    | '\x22' :: _ | '\x27' :: _ => (quoted? cs).map fun (text, rest) => (.string text, rest)
    | _ =>
      let (word, rest) := splitWord cs
      (word? word).map (·, rest)

/-- Reads the elements of an array and the bracket that closes it. A comma may follow the last one. -/
def elementsWithin? : (fuel : Nat) → List Char → Option (List Toml × List Char)
  | 0, _ => none
  | fuel + 1, cs =>
    match skipLines? false cs with
    | none => none
    | some (']' :: rest) => some ([], rest)
    | some cs =>
      match valueWithin? fuel cs with
      | none => none
      | some (element, rest) =>
        match skipLines? false rest with
        | some (']' :: rest) => some ([element], rest)
        | some (',' :: rest) =>
          (elementsWithin? fuel rest).map fun (elements, rest) => (element :: elements, rest)
        | _ => none

def entriesWithin? : (fuel : Nat) → Entries → List Char → Option (Entries × List Char)
  | 0, _, _ => none
  | fuel + 1, entries, cs =>
    match skipLines? false cs with
    | none => none
    | some ('\x7d' :: rest) => some (entries, rest)
    | some cs =>
      match key? cs with
      | some (key, '=' :: rest) =>
        match valueWithin? fuel (skipSpace rest) with
        | none => none
        | some (value, rest) =>
          match entries.assign value key, skipLines? false rest with
          | some entries, some ('\x7d' :: rest) => some (entries, rest)
          | some entries, some (',' :: rest) => entriesWithin? fuel entries rest
          | _, _ => none
      | _ => none

end

structure Draft where
  entries : Entries
  header : List String

def line? (d : Draft) (cs : List Char) : Option (Draft × List Char) :=
  match cs with
  | '[' :: '[' :: rest => do
    let (path, ']' :: ']' :: rest) ← key? rest | none
    let entries ← d.entries.openElement path
    return (⟨entries, path⟩, ← endLine? false rest)
  | '[' :: rest => do
    let (path, ']' :: rest) ← key? rest | none
    let entries ← d.entries.openTable path
    return (⟨entries, path⟩, ← endLine? false rest)
  | cs => do
    let (path, '=' :: rest) ← key? cs | none
    let (value, rest) ← valueWithin? (2 * rest.length + 1) (skipSpace rest)
    let entries ← d.entries.within (·.assign value path) d.header
    return (⟨entries, d.header⟩, ← endLine? false rest)

def linesWithin? : (fuel : Nat) → Draft → List Char → Option Draft
  | 0, _, _ => none
  | fuel + 1, d, cs =>
    match skipLines? false cs with
    | none => none
    | some [] => some d
    | some cs =>
      match line? d cs with
      | none => none
      | some (d, rest) => linesWithin? fuel d rest

def withoutMark : List Char → List Char
  | '\ufeff' :: rest => rest
  | cs => cs

def read? (text : String) : Option Toml :=
  let cs := withoutMark text.toList
  (linesWithin? (cs.length + 1) ⟨[], []⟩ cs).map fun d => .table (finished d.entries)

end SemanticLayer.Toml
