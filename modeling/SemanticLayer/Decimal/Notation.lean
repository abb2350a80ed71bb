import SemanticLayer.Decimal.Shortest

/-!
How decimals are written. The plain form has no exponent and no needless fraction (`5`, `12.5`,
`-0`). The general form always shows a fraction or an exponent (`5.0`, `1e16`) and turns to
scientific notation outside a fixed range of magnitudes.
-/
namespace SemanticLayer.Decimal

def zeros (n : Nat) : String := String.ofList (List.replicate n '0')

def positional (d : Decimal) : String :=
  let digits := toString d.digits
  if 0 ≤ d.exponent then
    if d.digits = 0 then "0" else digits ++ zeros d.exponent.toNat
  else
    let places := (-d.exponent).toNat
    if places < digits.length then
      let whole := digits.length - places
      String.ofList (digits.toList.take whole) ++ "." ++ String.ofList (digits.toList.drop whole)
    else "0." ++ zeros (places - digits.length) ++ digits

def scientific (d : Decimal) : String :=
  let digits := (toString d.digits).toList
  let power : Int := d.exponent + digits.length - 1
  let mantissa :=
    match digits with
    | [] => "0"
    | [c] => String.singleton c
    | c :: rest => String.singleton c ++ "." ++ String.ofList rest
  mantissa ++ "e" ++ toString power

/-- Positional with at least one fractional digit where the point falls within sixteen digits or at
most four zeros follow it, scientific elsewhere. -/
def general (d : Decimal) : String :=
  let digits := (toString d.digits).length
  let point : Int := digits + d.exponent
  if d.digits = 0 then "0.0"
  else if 0 ≤ d.exponent ∧ point ≤ 16 then d.positional ++ ".0"
  else if -5 < point ∧ point ≤ 16 then d.positional
  else d.scientific

def signed (negative : Bool) (text : String) : String := if negative then "-" ++ text else text

def plainText (x : Float) : String :=
  match Binary.ofFloat x with
  | .nan => "NaN"
  | .infinite negative => signed negative "inf"
  | .finite negative d => signed negative d.positional

def generalText? (x : Float) : Option String :=
  match Binary.ofFloat x with
  | .finite negative d => some (signed negative d.general)
  | _ => none

end SemanticLayer.Decimal
