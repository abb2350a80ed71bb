/-!
The shortest decimal of a binary64 number: the fewest digits that read back as the same number,
and of those the nearest to it, an exact tie going to the even last digit.

The search is exact. A finite number is a fraction of natural numbers, and so are the two ends of
the interval of reals that round to it; for one digit, two digits, and so on, the two neighbours of
the number on that decimal grid are tried against the interval.
-/
namespace SemanticLayer

structure Decimal where
  digits : Nat
  exponent : Int
  deriving DecidableEq, Repr

namespace Decimal

def width (n : Nat) : Nat := if n = 0 then 0 else (Nat.toDigits 10 n).length

def normalize (fuel : Nat) (d : Decimal) : Decimal :=
  match fuel with
  | 0 => d
  | fuel + 1 =>
    if d.digits ≠ 0 ∧ d.digits % 10 = 0 then normalize fuel ⟨d.digits / 10, d.exponent + 1⟩ else d

structure Interval where
  low : Nat
  value : Nat
  high : Nat
  denominator : Nat
  closed : Bool

/-- The interval of `mantissa * 2 ^ exponent`. Below a power of two the numbers lie twice as dense,
so there the lower half of the interval is half as wide; `narrow` says so. -/
def Interval.ofBinary (mantissa : Nat) (exponent : Int) (narrow : Bool) : Interval :=
  let scale := if exponent < 2 then Nat.pow 2 (2 - exponent).toNat else 1
  let factor := if exponent < 2 then 1 else Nat.pow 2 (exponent - 2).toNat
  let below := if narrow then 1 else 2
  { low := (4 * mantissa - below) * factor
    value := 4 * mantissa * factor
    high := (4 * mantissa + 2) * factor
    denominator := scale
    closed := mantissa % 2 == 0 }

namespace Interval

def onGrid (numerator denominator : Nat) (exponent : Int) : Nat × Nat :=
  if exponent < 0 then (numerator * Nat.pow 10 (-exponent).toNat, denominator)
  else (numerator, denominator * Nat.pow 10 exponent.toNat)

def holds (i : Interval) (digits : Nat) (exponent : Int) : Bool :=
  let (low, below) := onGrid i.low i.denominator exponent
  let (high, above) := onGrid i.high i.denominator exponent
  if i.closed then low ≤ digits * below && digits * above ≤ high
  else low < digits * below && digits * above < high

def magnitude (i : Interval) : Int :=
  let guess : Int := (width i.value : Int) - (width i.denominator : Int)
  let (numerator, denominator) := onGrid i.value i.denominator guess
  if denominator ≤ numerator then guess + 1 else guess

/-- The nearest grid point with the given exponent that lies in the interval, if one does. -/
def nearest? (i : Interval) (exponent : Int) : Option Nat :=
  let (numerator, denominator) := onGrid i.value i.denominator exponent
  let floor := numerator / denominator
  let rest := 2 * (numerator % denominator)
  let upper := denominator < rest || (denominator == rest && floor % 2 == 1)
  let (first, second) := if upper then (floor + 1, floor) else (floor, floor + 1)
  if i.holds first exponent then some first
  else if i.holds second exponent then some second
  else none

/-- Tries the grids from `tried` digits on; seventeen digits always suffice. -/
def shortestFrom (i : Interval) (top : Int) : Nat → Nat → Decimal
  | 0, _ => ⟨i.value / i.denominator, 0⟩
  | left + 1, tried =>
    match i.nearest? (top - tried) with
    | some digits => ⟨digits, top - tried⟩
    | none => i.shortestFrom top left (tried + 1)

def shortest (i : Interval) : Decimal :=
  (i.shortestFrom i.magnitude 20 1).normalize 40

end Interval

inductive Binary where
  | nan
  | infinite (negative : Bool)
  | finite (negative : Bool) (magnitude : Decimal)

def Binary.ofFloat (x : Float) : Binary :=
  let bits := x.toBits.toNat
  let negative := bits / 0x8000000000000000 == 1
  let exponent : Nat := bits / 0x10000000000000 % 0x800
  let fraction := bits % 0x10000000000000
  if exponent = 2047 then
    if fraction = 0 then .infinite negative else .nan
  else if exponent = 0 then
    if fraction = 0 then .finite negative ⟨0, 0⟩
    else .finite negative (Interval.ofBinary fraction (-1074) false).shortest
  else
    let narrow := fraction == 0 && 1 < exponent
    let interval := Interval.ofBinary (fraction + 0x10000000000000) ((exponent : Int) - 1075) narrow
    .finite negative interval.shortest

end Decimal

end SemanticLayer
