import Scheme.Decimal.Double

/-!
# Numerals

The two spellings of numbers in program text. An integer numeral is an optional sign and decimal
digits, with underscores allowed after the first digit. A decimal numeral is an optional sign,
digits with at most one point among them, and an optional power of ten; it names the nearest
double.
-/

namespace Scheme.Numeral

/-- The value of an ASCII decimal digit. -/
def digit? (c : Char) : Option Nat :=
  if '0' ≤ c ∧ c ≤ '9' then some (c.toNat - '0'.toNat) else none

/-- An ASCII decimal digit. -/
def isDigit (c : Char) : Bool := (digit? c).isSome

/-- The number that a run of digits continues from `n`. -/
def value (n : Nat) (ds : List Char) : Nat :=
  ds.foldl (fun n c => n * 10 + (digit? c).getD 0) n

/-- Splits off a sign; the flag tells a minus. -/
def splitSign : List Char → Bool × List Char
  | '-' :: cs => (true, cs)
  | '+' :: cs => (false, cs)
  | cs => (false, cs)

/-! ## Integers -/

/-- Digits and underscores, the first of them a digit. -/
def natural? : List Char → Option Nat
  | [] => none
  | c :: cs =>
    if isDigit c && cs.all (fun d => isDigit d || d == '_') then
      some (value 0 (c :: cs.filter isDigit))
    else none

/-- An optional sign and a natural number. -/
def integer? (cs : List Char) : Option Int :=
  match splitSign cs with
  | (true, ds) => (natural? ds).map fun n => -(n : Int)
  | (false, ds) => (natural? ds).map fun n => (n : Int)

/-! ## Decimals -/

/-- A power of ten: nothing, or a mark, an optional sign and at least one digit. -/
def power? : List Char → Option Int
  | [] => some 0
  | c :: cs =>
    if c = 'e' ∨ c = 'E' then
      let (negative, ds) := splitSign cs
      if ds.isEmpty || !ds.all isDigit then none
      else some (if negative then -(value 0 ds : Int) else value 0 ds)
    else none

/-- The digits behind the point, if there is one, and what follows them. -/
def fraction : List Char → List Char × List Char
  | '.' :: cs => (cs.takeWhile isDigit, cs.dropWhile isDigit)
  | cs => ([], cs)

/-- The double nearest to `± digits · 10^power`. Far outside the range of doubles the answer does
not depend on the digits, and no large power is computed. -/
def toFloat (negative : Bool) (digits : Nat) (power : Int) : Float :=
  let size : Int := (Nat.toDigits 10 digits).length + power
  if digits = 0 ∨ size < -330 then Double.nearest negative 0 1
  else if 400 < size then Double.nearest negative (Nat.pow 2 1024) 1
  else if 0 ≤ power then Double.nearest negative (digits * Nat.pow 10 power.toNat) 1
  else Double.nearest negative digits (Nat.pow 10 (-power).toNat)

/-- An optional sign, digits around an optional point, at least one of them, and a power. -/
def decimal? (cs : List Char) : Option Float :=
  let (negative, cs) := splitSign cs
  let front := cs.takeWhile isDigit
  let (back, rest) := fraction (cs.dropWhile isDigit)
  if front.isEmpty && back.isEmpty then none
  else (power? rest).map fun power =>
    toFloat negative (value 0 (front ++ back)) (power - back.length)

end Scheme.Numeral
