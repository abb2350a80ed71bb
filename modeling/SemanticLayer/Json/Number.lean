import SemanticLayer.Json.Basic
import SemanticLayer.Decimal.Read

/-!
Numbers of a JSON text. The digits are gathered in 64 bits; digits that no longer fit are dropped
and only shift the decimal point. The gathered integer is then scaled by a power of ten in binary64
arithmetic, so a long decimal need not become the nearest binary64 number.
-/
namespace SemanticLayer.Json

def gather (significand : Nat) : List Char → Nat × List Char
  | [] => (significand, [])
  | c :: rest =>
    let next := significand * 10 + Decimal.digitValue c
    if next < 0x10000000000000000 then gather next rest else (significand, c :: rest)

def powerOfTen (n : Nat) : Float := Float.ofScientific 1 false n

/-- `significand * 10 ^ exponent`, or nothing where that exceeds every binary64 number. Small
exponents are reached in steps of 308. -/
def scale? : Nat → Float → Int → Option Float
  | 0, significand, _ => some significand
  | steps + 1, significand, exponent =>
    if exponent.natAbs ≤ 308 then
      if 0 ≤ exponent then
        let product := significand * powerOfTen exponent.natAbs
        if product.isInf then none else some product
      else some (significand / powerOfTen exponent.natAbs)
    else if significand == 0.0 then some significand
    else if 0 ≤ exponent then none
    else scale? steps (significand / powerOfTen 308) (exponent + 308)

structure NumberText where
  negative : Bool
  whole : List Char
  fraction : Option (List Char)
  exponent : Option (Bool × List Char)

def NumberText.ofChars? (cs : List Char) : Option NumberText := do
  let (negative, cs) :=
    match cs with
    | '-' :: rest => (true, rest)
    | rest => (false, rest)
  let (whole, cs) := cs.span Char.isDigit
  guard !whole.isEmpty
  guard (whole.head? != some '0' || whole.length == 1)
  let (fraction, cs) ←
    match cs with
    | '.' :: rest =>
      let (digits, rest) := rest.span Char.isDigit
      if digits.isEmpty then none else some (some digits, rest)
    | _ => some (none, cs)
  let exponent ←
    match cs with
    | [] => some none
    | c :: rest =>
      if c == 'e' || c == 'E' then
        let (negative, digits) :=
          match rest with
          | '-' :: more => (true, more)
          | '+' :: more => (false, more)
          | more => (false, more)
        if digits.isEmpty || !digits.all Char.isDigit then none else some (some (negative, digits))
      else none
  return { negative, whole, fraction, exponent }

def NumberText.value? (t : NumberText) : Option Number :=
  let (significand, dropped) := gather 0 t.whole
  if t.fraction.isNone && t.exponent.isNone && dropped.isEmpty
      && (!t.negative || (significand ≠ 0 && significand ≤ 0x8000000000000000)) then
    some (.integer (if t.negative then -(significand : Int) else significand))
  else
    let fraction := t.fraction.getD []
    let (significand, unused) := gather significand fraction
    let shift : Int := dropped.length - (fraction.length - unused.length : Nat)
    let magnitude? :=
      match t.exponent with
      | none => scale? 8 significand.toUInt64.toFloat shift
      | some (negative, digits) =>
        let size := Decimal.ofDigits digits
        if 0x80000000 ≤ size then
          if significand ≠ 0 && !negative then none else some 0.0
        else
          scale? 8 significand.toUInt64.toFloat (if negative then shift - size else shift + size)
    magnitude?.map fun magnitude => .float (if t.negative then -magnitude else magnitude)

def Number.toFloat : Number → Float
  | .integer n => if n < 0 then -(n.natAbs.toUInt64.toFloat) else n.natAbs.toUInt64.toFloat
  | .float x => x

end SemanticLayer.Json
