import SemanticLayer.Json.Number

/-!
The tokens of a JSON text. The lexer walks the characters once, in one of a few modes; a word or a
number ends where a character comes that cannot continue it.
-/
namespace SemanticLayer.Json

inductive Piece where
  | char (c : Char)
  | unit (value : Nat)

/-- The text of a string; two units of a surrogate pair make one character, and a lone half of a pair
makes the whole string meaningless. -/
def textOf? : List Piece → Option (List Char)
  | [] => some []
  | .char c :: rest => (textOf? rest).map (c :: ·)
  | .unit high :: .unit low :: rest =>
    if 0xD800 ≤ high ∧ high < 0xDC00 then
      if 0xDC00 ≤ low ∧ low < 0xE000 then
        (textOf? rest).map (Char.ofNat (0x10000 + (high - 0xD800) * 0x400 + (low - 0xDC00)) :: ·)
      else none
    else if 0xDC00 ≤ high ∧ high < 0xE000 then none
    else (textOf? (.unit low :: rest)).map (Char.ofNat high :: ·)
  | .unit value :: rest =>
    if 0xD800 ≤ value ∧ value < 0xE000 then none
    else (textOf? rest).map (Char.ofNat value :: ·)

def hexValue? (c : Char) : Option Nat :=
  if '0' ≤ c ∧ c ≤ '9' then some (c.toNat - 48)
  else if 'a' ≤ c ∧ c ≤ 'f' then some (c.toNat - 87)
  else if 'A' ≤ c ∧ c ≤ 'F' then some (c.toNat - 55)
  else none

def escaped? (c : Char) : Option Char :=
  match c with
  | '\x22' => some '\x22'
  | '\x5c' => some '\x5c'
  | '/' => some '/'
  | 'b' => some '\x08'
  | 'f' => some '\x0c'
  | 'n' => some '\n'
  | 'r' => some '\r'
  | 't' => some '\t'
  | _ => none

/-- Where in a text the lexer stands. What has been read of a token is kept in reverse. -/
inductive Mode where
  | between
  | word (read : List Char)
  | number (read : List Char)
  | string (read : List Piece)
  | escape (read : List Piece)
  | hex (read : List Piece) (digits : Nat) (value : Nat)

def isSpace (c : Char) : Bool := c == ' ' || c == '\t' || c == '\n' || c == '\r'

def isNumberChar (c : Char) : Bool :=
  c.isDigit || c == '-' || c == '+' || c == '.' || c == 'e' || c == 'E'

def punctuation? (c : Char) : Option Punctuation :=
  match c with
  | '\x7b' => some .openBrace
  | '\x7d' => some .closeBrace
  | '[' => some .openBracket
  | ']' => some .closeBracket
  | ':' => some .colon
  | ',' => some .comma
  | _ => none

def opening? (c : Char) : Option (Mode × List Token) :=
  if isSpace c then some (.between, [])
  else if c == '\x22' then some (.string [], [])
  else if c == '-' || c.isDigit then some (.number [c], [])
  else if 'a' ≤ c ∧ c ≤ 'z' then some (.word [c], [])
  else (punctuation? c).map fun mark => (.between, [.punctuation mark])

def wordToken? (read : List Char) : Option Token :=
  match String.ofList read.reverse with
  | "null" => some .null
  | "true" => some (.bool true)
  | "false" => some (.bool false)
  | _ => none

def numberToken? (read : List Char) : Option Token :=
  (NumberText.ofChars? read.reverse).map fun text => .number text.value?

def stringToken (read : List Piece) : Token :=
  .string ((textOf? read.reverse).map String.ofList)

def step? (mode : Mode) (c : Char) : Option (Mode × List Token) :=
  match mode with
  | .between => opening? c
  | .word read =>
    if 'a' ≤ c ∧ c ≤ 'z' then some (.word (c :: read), [])
    else do
      let token ← wordToken? read
      let (mode, tokens) ← opening? c
      return (mode, token :: tokens)
  | .number read =>
    if isNumberChar c then some (.number (c :: read), [])
    else do
      let token ← numberToken? read
      let (mode, tokens) ← opening? c
      return (mode, token :: tokens)
  | .string read =>
    if c == '\x22' then some (.between, [stringToken read])
    else if c == '\x5c' then some (.escape read, [])
    else if c.toNat < 0x20 then none
    else some (.string (.char c :: read), [])
  | .escape read =>
    if c == 'u' then some (.hex read 4 0, [])
    else (escaped? c).map fun plain => (.string (.char plain :: read), [])
  | .hex read digits value =>
    (hexValue? c).map fun digit =>
      let value := value * 16 + digit
      if digits ≤ 1 then (.string (.unit value :: read), []) else (.hex read (digits - 1) value, [])

def finish? : Mode → Option (List Token)
  | .between => some []
  | .word read => (wordToken? read).map ([·])
  | .number read => (numberToken? read).map ([·])
  | _ => none

def tokensFrom? (mode : Mode) (done : Array Token) : List Char → Option (List Token)
  | [] => (finish? mode).map (done.toList ++ ·)
  | c :: rest =>
    match step? mode c with
    | none => none
    | some (mode, tokens) => tokensFrom? mode (done ++ tokens) rest

def tokens? (text : String) : Option (List Token) := tokensFrom? .between #[] text.toList

end SemanticLayer.Json
