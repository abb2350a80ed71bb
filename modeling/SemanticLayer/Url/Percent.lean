/-!
Percent-encoding. Which characters a part of a URL writes as percent signs and hexadecimal digits depends
on the part; characters beyond ASCII are never written as they are.
-/
namespace SemanticLayer.Url

def isControl (c : Char) : Bool := c.toNat < 0x20 || 0x7E < c.toNat

def inFragment (c : Char) : Bool :=
  isControl c || c == ' ' || c == '\x22' || c == '<' || c == '>' || c == '\x60'

/-- Characters encoded in a query; the mark of a string only where the scheme is a special one. -/
def inQuery (special : Bool) (c : Char) : Bool :=
  isControl c || c == ' ' || c == '\x22' || c == '#' || c == '<' || c == '>'
    || (special && c == '\x27')

def inPath (c : Char) : Bool :=
  inFragment c || c == '#' || c == '?' || c == '\x7b' || c == '\x7d'

def inFileName (c : Char) : Bool := inPath c || c == '/' || c == '%' || c == '\x5c'

def inCredentials (c : Char) : Bool :=
  inPath c || c == '/' || c == ':' || c == ';' || c == '=' || c == '@' || c == '[' || c == '\x5c'
    || c == ']' || c == '^' || c == '|'

def hexDigit (n : Nat) : Char := if n < 10 then Char.ofNat (48 + n) else Char.ofNat (55 + n)

def encodedByte (b : UInt8) : List Char :=
  ['%', hexDigit (b.toNat / 16), hexDigit (b.toNat % 16)]

def encodedChar (encode : Char → Bool) (c : Char) : List Char :=
  if encode c then c.toString.toUTF8.toList.flatMap encodedByte else [c]

def encoded (encode : Char → Bool) (cs : List Char) : String :=
  String.ofList (cs.flatMap (encodedChar encode))

def hexValue? (c : Char) : Option Nat :=
  if c.isDigit then some (c.toNat - 48)
  else if 'a' ≤ c ∧ c ≤ 'f' then some (c.toNat - 87)
  else if 'A' ≤ c ∧ c ≤ 'F' then some (c.toNat - 55)
  else none

def decodedBytes : List Char → List UInt8
  | [] => []
  | '%' :: a :: b :: rest =>
    match hexValue? a, hexValue? b with
    | some high, some low => UInt8.ofNat (high * 16 + low) :: decodedBytes rest
    | _, _ => '%'.toString.toUTF8.toList ++ decodedBytes (a :: b :: rest)
  | c :: rest => c.toString.toUTF8.toList ++ decodedBytes rest

def decoded? (text : String) : Option String :=
  String.fromUTF8? ⟨(decodedBytes text.toList).toArray⟩

end SemanticLayer.Url
