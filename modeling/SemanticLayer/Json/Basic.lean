/-!
JSON values and the tokens they are written with. Members of an object keep their order and may
repeat, since a reader of documents has to notice a repeated member.
-/
namespace SemanticLayer

namespace Json

/-- A number is an integer where its text has neither fraction nor exponent and fits in 64 bits, signed
or unsigned; otherwise it is a binary64 number. -/
inductive Number where
  | integer (value : Int)
  | float (value : Float)

end Json

inductive Json where
  | null
  | bool (value : Bool)
  | number (value : Json.Number)
  | string (text : String)
  | array (elements : List Json)
  | object (members : List (String × Json))

namespace Json

inductive Punctuation where
  | openBrace | closeBrace | openBracket | closeBracket | colon | comma
  deriving DecidableEq, Repr

/-- A token. A string may be well formed and still denote no text (half of a surrogate pair), and a
number may exceed every binary64 number: such tokens carry `none`. -/
inductive Token where
  | punctuation (mark : Punctuation)
  | null
  | bool (value : Bool)
  | number (value : Option Number)
  | string (text : Option String)

def nat (n : Nat) : Json := .number (.integer n)

def ofOption (f : α → Json) : Option α → Json
  | none => .null
  | some a => f a

def member? (name : String) : Json → Option Json
  | .object members => (members.find? fun member => member.1 == name).map Prod.snd
  | _ => none

mutual

def depth : Json → Nat
  | .array elements => depthElements elements + 1
  | .object members => depthMembers members + 1
  | _ => 0

def depthElements : List Json → Nat
  | [] => 0
  | e :: rest => max e.depth (depthElements rest)

def depthMembers : List (String × Json) → Nat
  | [] => 0
  | (_, e) :: rest => max e.depth (depthMembers rest)

end

end Json

end SemanticLayer
