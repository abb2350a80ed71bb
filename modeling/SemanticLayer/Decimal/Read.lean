/-!
Reading a decimal as the nearest binary64 number.
-/
namespace SemanticLayer.Decimal

def digitValue (c : Char) : Nat := c.toNat - '0'.toNat

def ofDigits (digits : List Char) : Nat := digits.foldl (fun n c => 10 * n + digitValue c) 0

def readExponent? (cs : List Char) : Option Int :=
  let (negative, digits) :=
    match cs with
    | '-' :: rest => (true, rest)
    | '+' :: rest => (false, rest)
    | rest => (false, rest)
  if digits.isEmpty || !digits.all Char.isDigit then none
  else some (if negative then -(ofDigits digits : Int) else ofDigits digits)

def readMagnitude? (cs : List Char) : Option Float :=
  let (whole, rest) := cs.span Char.isDigit
  let (fraction, rest) :=
    match rest with
    | '.' :: more => more.span Char.isDigit
    | _ => ([], rest)
  if whole.isEmpty && fraction.isEmpty then none
  else
    let exponent? :=
      match rest with
      | [] => some 0
      | c :: more => if c == 'e' || c == 'E' then readExponent? more else none
    exponent?.map fun exponent =>
      let mantissa := ofDigits (whole ++ fraction)
      let power : Int := exponent - fraction.length
      if mantissa = 0 then 0.0
      else if power < -20000 - whole.length then 0.0
      else if 20000 < power then Float.ofScientific 1 false 400
      else Float.ofScientific mantissa (power < 0) power.natAbs

def readFloat? (text : String) : Option Float :=
  let (negative, cs) :=
    match text.toList with
    | '-' :: rest => (true, rest)
    | '+' :: rest => (false, rest)
    | rest => (false, rest)
  let magnitude? :=
    match (String.ofList cs).toLower with
    | "inf" | "infinity" => some (1.0 / 0.0)
    | "nan" => some (0.0 / 0.0)
    | _ => readMagnitude? cs
  magnitude?.map fun magnitude => if negative then -magnitude else magnitude

end SemanticLayer.Decimal
