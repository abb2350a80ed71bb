import SemanticLayer.Json.Lexer

/-!
Quoted text in TOML: basic strings with escapes and literal strings without, each on one line or over
several lines.
-/
namespace SemanticLayer.Toml

/-- Characters that may stand for themselves in a comment and in a string of one line: a tab, and all
that are no control characters. -/
def isPlain (c : Char) : Bool := c == '\t' || (0x20 ≤ c.toNat && c.toNat != 0x7F)

def escaped? (c : Char) : Option Char :=
  match c with
  | 'b' => some '\x08'
  | 't' => some '\t'
  | 'n' => some '\n'
  | 'f' => some '\x0c'
  | 'r' => some '\r'
  | 'e' => some '\x1b'
  | '\x22' => some '\x22'
  | '\x5c' => some '\x5c'
  | _ => none

def hexNumber? (digits : List Char) : Option Nat :=
  digits.foldlM (fun value c => (Json.hexValue? c).map (value * 16 + ·)) 0

def scalar? (value : Nat) : Option Char :=
  if value < 0xD800 ∨ 0xDFFF < value ∧ value < 0x110000 then some (Char.ofNat value) else none

def coded? (digits : List Char) : Option Char := hexNumber? digits >>= scalar?

def before (c : Char) : Option (List Char × List Char) → Option (List Char × List Char) :=
  Option.map fun (text, rest) => (c :: text, rest)

def basic? : List Char → Option (List Char × List Char)
  | [] => none
  | '\x22' :: rest => some ([], rest)
  | '\x5c' :: 'x' :: a :: b :: rest =>
    match coded? [a, b] with
    | some c => before c (basic? rest)
    | none => none
  | '\x5c' :: 'u' :: a :: b :: c :: d :: rest =>
    match coded? [a, b, c, d] with
    | some c => before c (basic? rest)
    | none => none
  | '\x5c' :: 'U' :: a :: b :: c :: d :: e :: f :: g :: h :: rest =>
    match coded? [a, b, c, d, e, f, g, h] with
    | some c => before c (basic? rest)
    | none => none
  | '\x5c' :: c :: rest =>
    match escaped? c with
    | some c => before c (basic? rest)
    | none => none
  | c :: rest => if isPlain c && c != '\x5c' then before c (basic? rest) else none

def literal? : List Char → Option (List Char × List Char)
  | [] => none
  | '\x27' :: rest => some ([], rest)
  | c :: rest => if isPlain c then before c (literal? rest) else none

inductive Joint where
  | text
  | line
  | blank
  deriving DecidableEq, Repr

/-- The rest of a basic string of several lines. A quotation mark or two may stand before the three that
close it. -/
def basicLines? (joint : Joint) : List Char → Option (List Char × List Char)
  | [] => none
  | '\n' :: rest =>
    if joint = .text then before '\n' (basicLines? .text rest) else basicLines? .blank rest
  | '\r' :: '\n' :: rest =>
    if joint = .text then before '\r' (before '\n' (basicLines? .text rest))
    else basicLines? .blank rest
  | '\x5c' :: 'x' :: a :: b :: rest =>
    match joint, coded? [a, b] with
    | .line, _ | _, none => none
    | _, some c => before c (basicLines? .text rest)
  | '\x5c' :: 'u' :: a :: b :: c :: d :: rest =>
    match joint, coded? [a, b, c, d] with
    | .line, _ | _, none => none
    | _, some c => before c (basicLines? .text rest)
  | '\x5c' :: 'U' :: a :: b :: c :: d :: e :: f :: g :: h :: rest =>
    match joint, coded? [a, b, c, d, e, f, g, h] with
    | .line, _ | _, none => none
    | _, some c => before c (basicLines? .text rest)
  | '\x5c' :: c :: rest =>
    match joint, escaped? c with
    | .line, _ => none
    | _, some c => before c (basicLines? .text rest)
    | _, none =>
      if c = '\n' then basicLines? .blank rest
      else if c = ' ' ∨ c = '\t' ∨ c = '\r' then basicLines? .line rest
      else none
  | '\x22' :: '\x22' :: '\x22' :: rest =>
    if joint = .line then none
    else
      match rest with
      | '\x22' :: '\x22' :: rest => some (['\x22', '\x22'], rest)
      | '\x22' :: rest => some (['\x22'], rest)
      | rest => some ([], rest)
  | c :: rest =>
    if joint ≠ .text ∧ (c = ' ' ∨ c = '\t') then basicLines? joint rest
    else if joint = .line ∨ c = '\x5c' then none
    else if isPlain c then before c (basicLines? .text rest)
    else none

def literalLines? : List Char → Option (List Char × List Char)
  | [] => none
  | '\n' :: rest => before '\n' (literalLines? rest)
  | '\r' :: '\n' :: rest => before '\r' (before '\n' (literalLines? rest))
  | '\x27' :: '\x27' :: '\x27' :: rest =>
    match rest with
    | '\x27' :: '\x27' :: rest => some (['\x27', '\x27'], rest)
    | '\x27' :: rest => some (['\x27'], rest)
    | rest => some ([], rest)
  | c :: rest => if isPlain c then before c (literalLines? rest) else none

def withoutFirstLineEnd : List Char → List Char
  | '\n' :: rest => rest
  | '\r' :: '\n' :: rest => rest
  | cs => cs

def quotedLine? : List Char → Option (String × List Char)
  | '\x22' :: rest => (basic? rest).map fun (text, rest) => (String.ofList text, rest)
  | '\x27' :: rest => (literal? rest).map fun (text, rest) => (String.ofList text, rest)
  | _ => none

def quoted? : List Char → Option (String × List Char)
  | '\x22' :: '\x22' :: '\x22' :: rest =>
    (basicLines? .text (withoutFirstLineEnd rest)).map fun (text, rest) =>
      (String.ofList text, rest)
  | '\x27' :: '\x27' :: '\x27' :: rest =>
    (literalLines? (withoutFirstLineEnd rest)).map fun (text, rest) => (String.ofList text, rest)
  | cs => quotedLine? cs

end SemanticLayer.Toml
