/-!
URLs in their normal form, and their text.
-/
namespace SemanticLayer

namespace Url

inductive Host where
  | domain (name : String)
  | ipv4 (address : Nat)
  | ipv6 (pieces : List Nat)
  deriving DecidableEq, Repr

structure Authority where
  username : String
  password : String
  host : Host
  portNumber : Option Nat
  deriving DecidableEq, Repr

inductive Path where
  | whole (text : String)
  | segments (names : List String)
  deriving DecidableEq, Repr

end Url

structure Url where
  scheme : String
  authority : Option Url.Authority
  path : Url.Path
  query : Option String
  fragment : Option String
  deriving DecidableEq, Repr

namespace Url

inductive Fault where
  | relativeWithoutBase
  | relativeToWhole
  | emptyHost
  | invalidPort
  | invalidIpv4
  | invalidIpv6
  | invalidDomain
  | invalidCharacter
  deriving DecidableEq, Repr

def Fault.message : Fault → String
  | relativeWithoutBase => "relative URL without a base"
  | relativeToWhole => "relative URL with a cannot-be-a-base base"
  | emptyHost => "empty host"
  | invalidPort => "invalid port number"
  | invalidIpv4 => "invalid IPv4 address"
  | invalidIpv6 => "invalid IPv6 address"
  | invalidDomain => "invalid international domain name"
  | invalidCharacter => "invalid domain character"

def isSpecial (scheme : String) : Bool :=
  scheme == "file" || scheme == "http" || scheme == "https" || scheme == "ws" || scheme == "wss"
    || scheme == "ftp"

def defaultPort? (scheme : String) : Option Nat :=
  match scheme with
  | "http" | "ws" => some 80
  | "https" | "wss" => some 443
  | "ftp" => some 21
  | _ => none

/-! Text -/

def hexText (n : Nat) : String := String.ofList (Nat.toDigits 16 n)

def zeroRuns : List Nat → List Nat
  | [] => []
  | 0 :: rest =>
    match zeroRuns rest with
    | [] => [1]
    | run :: runs => (run + 1) :: run :: runs
  | _ :: rest => 0 :: zeroRuns rest

def joined (pieces : List Nat) : String := ":".intercalate (pieces.map hexText)

/-- Sixteen bytes as text: the first of the longest runs of two or more zeros is left out. -/
def ipv6Text (pieces : List Nat) : String :=
  let runs := zeroRuns pieces
  let longest := runs.foldl max 0
  if longest < 2 then joined pieces
  else
    let start := runs.takeWhile (· != longest) |>.length
    joined (pieces.take start) ++ "::" ++ joined (pieces.drop (start + longest))

def Host.text : Host → String
  | domain name => name
  | ipv4 a => s!"{a / 0x1000000}.{a / 0x10000 % 256}.{a / 256 % 256}.{a % 256}"
  | ipv6 pieces => "[" ++ ipv6Text pieces ++ "]"

def Authority.text (a : Authority) : String :=
  let password := if a.password.isEmpty then "" else ":" ++ a.password
  let credentials := if (a.username ++ password).isEmpty then "" else a.username ++ password ++ "@"
  let number := match a.portNumber with
    | some number => ":" ++ toString number
    | none => ""
  credentials ++ a.host.text ++ number

def Path.text : Path → String
  | whole text => text
  | segments names => "".intercalate (names.map ("/" ++ ·))

/-- The text of a URL. Where a path without an authority would read as one, a dot stands in front. -/
def text (u : Url) : String :=
  let path := u.path.text
  let front := match u.authority with
    | some a => "//" ++ a.text
    | none => if path.startsWith "//" then "/." else ""
  let query := match u.query with
    | some query => "?" ++ query
    | none => ""
  let fragment := match u.fragment with
    | some fragment => "#" ++ fragment
    | none => ""
  u.scheme ++ ":" ++ front ++ path ++ query ++ fragment

end Url

end SemanticLayer
