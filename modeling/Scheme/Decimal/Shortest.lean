import Scheme.Decimal.Double

/-!
# The shortest decimal that reads back

A decimal is `digits · 10^exponent`. Every double and every midpoint between two neighbouring
doubles is a whole number of units of `10^-1076`, so the interval of reals that round to a double
has natural numbers as its ends. `Decimal.shortest` tries the grids of 1, 2, … 17 significant
digits in turn; the first grid with a point in the interval wins, and of two such points the one
nearer to the double, the upper one on a tie. A decimal is always written out in full, never with
an exponent.
-/

namespace Scheme

/-- The number `digits · 10^exponent`. -/
structure Decimal where
  digits : Nat
  exponent : Int
deriving DecidableEq, Repr

namespace Decimal

/-- The number of decimal digits of `n`. -/
def digitCount (n : Nat) : Nat := (Nat.toDigits 10 n).length

/-- The reals that round to one double, in units of `10^-1076`. The ends belong to it when
`closed` holds. -/
structure Interval where
  lower : Nat
  value : Nat
  upper : Nat
  closed : Bool

/-- The interval of `mantissa · 2^exponent`. The neighbour below a power of two is only half as
far away, and an even mantissa wins both its midpoints. -/
def Interval.ofDouble (mantissa : Nat) (exponent : Int) : Interval :=
  let unit := Nat.pow 2 (exponent + 1074).toNat * Nat.pow 5 1076
  let below := if mantissa = Double.leadingBit then 1 else 2
  ⟨(4 * mantissa - below) * unit, 4 * mantissa * unit, (4 * mantissa + 2) * unit,
    mantissa % 2 = 0⟩

/-- Whether a number of units rounds to the double. -/
def Interval.contains (i : Interval) (x : Nat) : Bool :=
  if i.closed then i.lower ≤ x && x ≤ i.upper else i.lower < x && x < i.upper

/-- The point of the grid with spacing `unit` that is in the interval and nearest to its value,
counted in units; the upper of two equally near. -/
def Interval.nearestOn (i : Interval) (unit : Nat) : Option Nat :=
  let q := i.value / unit
  match i.contains (q * unit), i.contains ((q + 1) * unit) with
  | true, true => some (if 2 * (i.value % unit) < unit then q else q + 1)
  | true, false => some q
  | false, true => some (q + 1)
  | false, false => none

/-- Tries `fuel` grids, from the one with `count` digits on; `size` is the digit count of the
value. -/
def search (i : Interval) (size : Nat) : (fuel count : Nat) → Decimal
  | 0, _ => ⟨i.value, -1076⟩
  | fuel + 1, count =>
    match i.nearestOn (Nat.pow 10 (size - count)) with
    | some q => ⟨q, (size - count : Nat) - 1076⟩
    | none => search i size fuel (count + 1)

/-- The shortest decimal that rounds to `mantissa · 2^exponent`. -/
def shortest (mantissa : Nat) (exponent : Int) : Decimal :=
  let i := Interval.ofDouble mantissa exponent
  search i (digitCount i.value) 17 1

/-- Drops up to `fuel` zeros at the end of the digits. -/
def trimmed : (fuel : Nat) → Decimal → Decimal
  | 0, d => d
  | fuel + 1, d => if d.digits % 10 = 0 then trimmed fuel ⟨d.digits / 10, d.exponent + 1⟩ else d

/-- The decimal written out, with a point only where digits follow it. -/
def text (d : Decimal) : String :=
  let ds := Nat.toDigits 10 d.digits
  if 0 ≤ d.exponent then String.ofList (ds ++ List.replicate d.exponent.toNat '0')
  else
    let places := (-d.exponent).toNat
    if places < ds.length then
      String.ofList (ds.take (ds.length - places) ++ '.' :: ds.drop (ds.length - places))
    else String.ofList ('0' :: '.' :: (List.replicate (places - ds.length) '0' ++ ds))

end Decimal

namespace Double

/-- The sign in front of a negative number. -/
def signText (negative : Bool) : String := if negative then "-" else ""

/-- The number in the fewest digits that read back, written out. -/
def plainText : Double → String
  | finite negative m e =>
    signText negative ++ (if m = 0 then "0" else ((Decimal.shortest m e).trimmed 17).text)
  | infinite negative => signText negative ++ "inf"
  | nan => "NaN"

/-- A whole number below this bound is written with one decimal place. -/
def oneDecimalBound : Nat := 10000000000000000

/-- The text of a float: whole numbers below `10^16` keep one decimal place, so that they are
not taken for integers, and all others are in the fewest digits that read back. -/
def text (d : Double) : String :=
  match d, d.whole? with
  | finite negative m e, some n =>
    if n < oneDecimalBound then signText negative ++ Nat.repr n ++ ".0"
    else (finite negative m e).plainText
  | d, _ => d.plainText

end Double

end Scheme
