import SemanticLayer.Json.Lexer
import SemanticLayer.Toml.Basic

/-!
TOML values that are written as one word: booleans, numbers, dates and times.
-/
namespace SemanticLayer.Toml

def isWordChar (c : Char) : Bool :=
  c.isAlphanum || c == '_' || c == '+' || c == '-' || c == '.' || c == ':'

def digits? (isDigit : Char → Bool) : List Char → Option (List Char)
  | [] => none
  | [c] => if isDigit c then some [c] else none
  | c :: '_' :: rest => if isDigit c then (digits? isDigit rest).map (c :: ·) else none
  | c :: rest => if isDigit c then (digits? isDigit rest).map (c :: ·) else none

def valueIn (base : Nat) (digits : List Char) : Nat :=
  digits.foldl (fun value c => value * base + (Json.hexValue? c).getD 0) 0

def decimal? (cs : List Char) : Option Nat :=
  match digits? Char.isDigit cs with
  | some ['0'] => some 0
  | some ('0' :: _) => none
  | digits => digits.map (valueIn 10)

def inBase? (base : Nat) (cs : List Char) : Option Nat :=
  (digits? (fun c => (Json.hexValue? c).any (· < base)) cs).map (valueIn base)

def fits (value : Int) : Option Int :=
  if -0x8000000000000000 ≤ value ∧ value < 0x8000000000000000 then some value else none

def integer? : List Char → Option Int
  | '0' :: 'x' :: rest => inBase? 16 rest >>= fun n => fits n
  | '0' :: 'o' :: rest => inBase? 8 rest >>= fun n => fits n
  | '0' :: 'b' :: rest => inBase? 2 rest >>= fun n => fits n
  | '-' :: rest => decimal? rest >>= fun n => fits (-n)
  | '+' :: rest => decimal? rest >>= fun n => fits n
  | cs => decimal? cs >>= fun n => fits n

def unsigned : List Char → List Char
  | '+' :: rest => rest
  | '-' :: rest => rest
  | cs => cs

def cutAt (isCut : Char → Bool) (cs : List Char) : List Char × Option (List Char) :=
  match cs.span (fun c => !isCut c) with
  | (front, []) => (front, none)
  | (front, _ :: back) => (front, some back)

def isFloat (cs : List Char) : Bool :=
  let cs := unsigned cs
  if cs = ['i', 'n', 'f'] ∨ cs = ['n', 'a', 'n'] then true
  else
    let (front, exponent) := cutAt (fun c => c == 'e' || c == 'E') cs
    let (whole, fraction) := cutAt (· == '.') front
    (decimal? whole).isSome && fraction.all (fun d => (digits? Char.isDigit d).isSome)
      && exponent.all (fun d => (digits? Char.isDigit (unsigned d)).isSome)
      && (fraction.isSome || exponent.isSome)

def fixed? (count : Nat) (cs : List Char) : Option (Nat × List Char) :=
  let digits := cs.take count
  if digits.length = count ∧ digits.all Char.isDigit then some (valueIn 10 digits, cs.drop count)
  else none

def isLeapYear (year : Nat) : Bool := year % 4 == 0 && (year % 100 != 0 || year % 400 == 0)

def daysIn (year month : Nat) : Nat :=
  if month = 2 then if isLeapYear year then 29 else 28
  else if month = 4 ∨ month = 6 ∨ month = 9 ∨ month = 11 then 30
  else 31

def afterDate? (cs : List Char) : Option (List Char) := do
  let (year, '-' :: cs) ← fixed? 4 cs | none
  let (month, '-' :: cs) ← fixed? 2 cs | none
  let (day, cs) ← fixed? 2 cs
  if 1 ≤ month ∧ month ≤ 12 ∧ 1 ≤ day ∧ day ≤ daysIn year month then some cs else none

def afterFraction? : List Char → Option (List Char)
  | '.' :: rest =>
    match rest.span Char.isDigit with
    | ([], _) => none
    | (_, rest) => some rest
  | cs => some cs

def afterTime? (cs : List Char) : Option (List Char) := do
  let (hour, ':' :: cs) ← fixed? 2 cs | none
  let (minute, cs) ← fixed? 2 cs
  if 23 < hour ∨ 59 < minute then none
  else
    match cs with
    | ':' :: cs =>
      let (second, cs) ← fixed? 2 cs
      if 60 < second then none else afterFraction? cs
    | cs => some cs

def isOffset (cs : List Char) : Bool :=
  match cs with
  | [] | ['Z'] | ['z'] => true
  | sign :: cs =>
    (sign == '+' || sign == '-') &&
      match fixed? 2 cs with
      | some (hour, ':' :: cs) =>
        match fixed? 2 cs with
        | some (minute, []) => hour ≤ 23 && minute ≤ 59
        | _ => false
      | _ => false

def isMoment (cs : List Char) : Bool :=
  match afterDate? cs with
  | some [] => true
  | some (mark :: rest) =>
    (mark == 'T' || mark == 't' || mark == ' ') && (afterTime? rest).any isOffset
  | none => (afterTime? cs).any List.isEmpty

def word? (cs : List Char) : Option Toml :=
  if cs = ['t', 'r', 'u', 'e'] then some (.bool true)
  else if cs = ['f', 'a', 'l', 's', 'e'] then some (.bool false)
  else
    match integer? cs with
    | some value => some (.integer value)
    | none =>
      if isFloat cs then some (.float (String.ofList cs))
      else if isMoment cs then some (.moment (String.ofList cs))
      else none

/-- The word at the front of a text. A date and a time may be divided by a space. -/
def splitWord (cs : List Char) : List Char × List Char :=
  let (first, rest) := cs.span isWordChar
  match afterDate? first, rest with
  | some [], ' ' :: digit :: more =>
    if digit.isDigit then
      let (second, rest) := (digit :: more).span isWordChar
      (first ++ ' ' :: second, rest)
    else (first, rest)
  | _, _ => (first, rest)

end SemanticLayer.Toml
