import SemanticLayer.Url.Basic
import SemanticLayer.Url.Percent

/-!
Reading hosts. A name whose last label is a number is an address.
-/
namespace SemanticLayer.Url

def ipv6Piece? (text : String) : Option Nat :=
  if text.isEmpty ∨ 4 < text.length then none
  else text.toList.foldlM (fun value c => (hexValue? c).map (value * 16 + ·)) 0

def byte? (text : String) : Option Nat :=
  let cs := text.toList
  if cs.isEmpty || 3 < cs.length || !cs.all Char.isDigit || (cs.head? == some '0' && 1 < cs.length)
  then none
  else
    let value := cs.foldl (fun value c => value * 10 + (c.toNat - 48)) 0
    if value < 256 then some value else none

/-- The last part of an address may be written as four decimal bytes, which are two pieces. -/
def ipv6Last? (text : String) : Option (List Nat) :=
  match text.splitOn "." with
  | [_] => (ipv6Piece? text).map ([·])
  | [a, b, c, d] => do
    return [(← byte? a) * 256 + (← byte? b), (← byte? c) * 256 + (← byte? d)]
  | _ => none

def ipv6Pieces? (isLast : Bool) (text : String) : Option (List Nat) :=
  if text.isEmpty then some []
  else do
    let parts := text.splitOn ":"
    let front ← parts.dropLast.mapM ipv6Piece?
    let last := parts.getLast?.getD ""
    let back ← if isLast then ipv6Last? last else (ipv6Piece? last).map ([·])
    return front ++ back

/-- An address of eight pieces. Two colons stand for one or more pieces that are zero. -/
def ipv6? (text : String) : Option (List Nat) :=
  match text.splitOn "::" with
  | [all] => do
    let pieces ← ipv6Pieces? true all
    if pieces.length = 8 then some pieces else none
  | [left, right] => do
    let left ← ipv6Pieces? false left
    let right ← ipv6Pieces? true right
    let count := left.length + right.length
    if 7 < count then none else some (left ++ List.replicate (8 - count) 0 ++ right)
  | _ => none

def ipv4Number? (text : String) : Option Nat :=
  let value (base : Nat) (cs : List Char) : Option Nat :=
    cs.foldlM (fun value c => do
      let digit ← hexValue? c
      if digit < base then some (value * base + digit) else none) 0
  match text.toList with
  | [] => none
  | '0' :: 'x' :: rest => value 16 rest
  | '0' :: 'X' :: rest => value 16 rest
  | '0' :: c :: rest => value 8 (c :: rest)
  | cs => value 10 cs

def labels (name : String) : List String :=
  let parts := name.splitOn "."
  if 1 < parts.length ∧ parts.getLast? = some "" then parts.dropLast else parts

def endsInNumber (name : String) : Bool :=
  match (labels name).getLast? with
  | none => false
  | some last =>
    (!last.isEmpty && last.toList.all Char.isDigit)
      || ((last.startsWith "0x" || last.startsWith "0X") && (ipv4Number? last).isSome)

/-- Up to four numbers; each is a byte, but the last one fills all bytes that are left. -/
def ipv4? (name : String) : Option Nat := do
  let numbers ← (labels name).mapM ipv4Number?
  if 4 < numbers.length then none
  else
    let front := numbers.dropLast
    let last ← numbers.getLast?
    if front.all (· < 256) ∧ last < Nat.pow 256 (4 - front.length) then
      some ((front.zipIdx.map fun (n, i) => n * Nat.pow 256 (3 - i)).foldl (· + ·) last)
    else none

def isForbidden (c : Char) : Bool :=
  c.toNat ≤ 0x20 || 0x7E < c.toNat || "#/:<>?@[\\]^|%".contains c

def readHost (text : String) : Except Fault Host := do
  if text.startsWith "[" then
    let some pieces := if text.endsWith "]" then ipv6? ((text.drop 1).dropEnd 1).toString else none
      | throw .invalidIpv6
    return .ipv6 pieces
  let some name := decoded? text | throw .invalidDomain
  if name.any isForbidden then throw .invalidDomain
  let name := name.toLower
  if name.isEmpty then throw .emptyHost
  if endsInNumber name then
    let some address := ipv4? name | throw .invalidIpv4
    return .ipv4 address
  return .domain name

def readPlainHost (text : String) : Except Fault Host := do
  if text.startsWith "[" then
    let some pieces := if text.endsWith "]" then ipv6? ((text.drop 1).dropEnd 1).toString else none
      | throw .invalidIpv6
    return .ipv6 pieces
  if text.any (fun c => c == '\x00' || " #/:<>?@[\\]^|".contains c) then throw .invalidCharacter
  return .domain (encoded isControl text.toList)

end SemanticLayer.Url
