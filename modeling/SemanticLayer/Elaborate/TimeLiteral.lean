import SemanticLayer.Model.Expr
import SemanticLayer.Text.Blank
import SemanticLayer.Text.Digit

/-!
Time literals such as `@2021`, `@2021-Q2`, `@2021-03`, `@2021-03-04` and `@2021-03-04 10:30:00`. Reading
one gives a date or timestamp in its canonical form, and the finest unit that was written.
-/
namespace SemanticLayer.TimeLiteral

def pad (n : Nat) : String := if n < 10 then "0" ++ toString n else toString n

def twoDigits? (low high : Nat) (tens ones : Char) : Option Nat :=
  if tens.isDigit && ones.isDigit then
    let n := (tens.toNat - '0'.toNat) * 10 + (ones.toNat - '0'.toNat)
    if low ≤ n && n ≤ high then some n else none
  else none

def quarterMonth? : Char → Option Nat
  | '1' => some 1
  | '2' => some 4
  | '3' => some 7
  | '4' => some 10
  | _ => none

def afterMinute? (stem : String) : List Char → Option (Literal × TimeUnit)
  | [] => some (.timestamp (stem ++ ":00"), .minute)
  | ':' :: a :: b :: rest => do
    let second ← twoDigits? 0 59 a b
    let result := (Literal.timestamp (stem ++ ":" ++ pad second), TimeUnit.second)
    match rest with
    | [] => some result
    | '.' :: fraction =>
      if !fraction.isEmpty && fraction.all Text.isDecimalDigit then some result else none
    | _ => none
  | _ => none

def afterDay? (stem : String) : List Char → Option (Literal × TimeUnit)
  | [] => some (.date stem, .day)
  | separator :: a :: b :: ':' :: c :: d :: rest =>
    if separator == ' ' || separator == 'T' then do
      let hour ← twoDigits? 0 23 a b
      let minute ← twoDigits? 0 59 c d
      afterMinute? (stem ++ " " ++ pad hour ++ ":" ++ pad minute) rest
    else none
  | _ => none

def afterMonth? (stem : String) : List Char → Option (Literal × TimeUnit)
  | [] => some (.date (stem ++ "-01"), .month)
  | '-' :: a :: b :: rest => do
    let day ← twoDigits? 1 31 a b
    afterDay? (stem ++ "-" ++ pad day) rest
  | _ => none

def afterYear? (year : String) : List Char → Option (Literal × TimeUnit)
  | [] => some (.date (year ++ "-01-01"), .year)
  | ['-', 'Q', quarter] => do
    let month ← quarterMonth? quarter
    some (.date (year ++ "-" ++ pad month ++ "-01"), .quarter)
  | '-' :: a :: b :: rest => do
    let month ← twoDigits? 1 12 a b
    afterMonth? (year ++ "-" ++ pad month) rest
  | _ => none

def ofChars? : List Char → Option (Literal × TimeUnit)
  | a :: b :: c :: d :: rest =>
    if [a, b, c, d].all Text.isDecimalDigit then afterYear? (String.ofList [a, b, c, d]) rest else none
  | _ => none

def read? (text : String) : Option (Literal × TimeUnit) :=
  match Text.trim text.toList with
  | '@' :: rest => ofChars? rest
  | cs => ofChars? cs

end SemanticLayer.TimeLiteral
