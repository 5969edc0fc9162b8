/-!
# Doubles as whole numbers

A finite double is a sign and `mantissa · 2^exponent`. `Double.view` reads these off the bits of
a float and `Double.nearest` goes the other way: it gives the bits of the double nearest to a
positive quotient, a tie going to the even mantissa, so every conversion into floats is exact
arithmetic on natural numbers. `Double.ofInt` rounds a whole number after cutting it to one word
of leading digits.
-/

namespace Scheme

/-- What the bits of a double stand for. -/
inductive Double where
  /-- The number `± mantissa · 2^exponent`. -/
  | finite (negative : Bool) (mantissa : Nat) (exponent : Int)
  | infinite (negative : Bool)
  | nan
deriving DecidableEq, Repr

namespace Double

/-- The weight of the sign bit, `2^63`. -/
def signBit : Nat := 0x8000000000000000

/-- The weight of the lowest exponent bit, `2^52`, which is also that of the leading digit of a
mantissa with 53 digits. -/
def leadingBit : Nat := 0x10000000000000

/-- Reads the sign bit, the eleven exponent bits and the 52 fraction bits. -/
def view (f : Float) : Double :=
  let bits := f.toBits.toNat
  let negative := signBit ≤ bits
  let exponent : Nat := bits / leadingBit % 2048
  let fraction : Nat := bits % leadingBit
  if exponent = 2047 then
    if fraction = 0 then infinite negative else nan
  else if exponent = 0 then finite negative fraction (-1074)
  else finite negative (leadingBit + fraction) ((exponent : Int) - 1075)

/-- The magnitude of a finite double that is a whole number. -/
def whole? : Double → Option Nat
  | finite _ m e =>
    if 0 ≤ e then some (m * Nat.pow 2 e.toNat)
    else if m % Nat.pow 2 (-e).toNat = 0 then some (m / Nat.pow 2 (-e).toNat)
    else none
  | _ => none

/-- Whether the double is a finite whole number. -/
def isWhole (d : Double) : Bool := d.whole?.isSome

/-- The quotient rounded to a whole number, a half going to the even one. -/
def roundQuotient (n d : Nat) : Nat :=
  let q := n / d
  let r := n % d
  if 2 * r < d then q
  else if d < 2 * r then q + 1
  else if q % 2 = 0 then q else q + 1

/-- `n / (d · 2^e)` as a pair of natural numbers. -/
def scale (n d : Nat) (e : Int) : Nat × Nat :=
  if 0 ≤ e then (n, d * Nat.pow 2 e.toNat) else (n * Nat.pow 2 (-e).toNat, d)

/-- The bits of infinity. -/
def infinityBits : Nat := 2047 * leadingBit

/-- The bits of the positive double nearest to `n / d`. The unit `2^e` of the last place is the
one that leaves 53 binary digits, and never below `2^-1074`; a mantissa that rounds up to `2^53`
carries into the exponent by itself. -/
def nearestBits (n d : Nat) : Nat :=
  if n = 0 then 0
  else
    let guess : Int := (n.log2 : Int) - d.log2 - 53
    let (a, b) := scale n d guess
    let fit := if 2 * leadingBit ≤ a / b then guess + 1 else guess
    let e := max fit (-1074)
    let (a, b) := scale n d e
    min ((e + 1074).toNat * leadingBit + roundQuotient a b) infinityBits

/-- The double nearest to `± n / d`. -/
def nearest (negative : Bool) (n d : Nat) : Float :=
  let bits := nearestBits n d
  Float.ofBits (UInt64.ofNat (if negative then signBit + bits else bits))

/-! ## Whole numbers

A whole number is rounded in two stages. Beyond 64 binary digits it is first cut to its 64 leading
ones, and the last of these is set when a nonzero digit is seen behind the cut, so that the second
stage knows which way a tie leans. The number lies in words of 64 digits, and behind the cut each
word is seen only in as many of its lowest digits as the leading word has. -/

/-- The weight of the lowest digit of the second word, `2^64`. -/
def wordBase : Nat := 0x10000000000000000

/-- Whether a word of `n` has a nonzero digit among its `low` lowest ones. -/
def seesDigit (low n : Nat) : Bool :=
  if n = 0 then false
  else n % Nat.pow 2 low != 0 || seesDigit low (n / wordBase)
termination_by n
decreasing_by exact Nat.div_lt_self (by omega) (by decide)

/-- The number cut to 64 leading binary digits, the last of them set when a nonzero digit is seen
behind the cut. -/
def cutToWord (n : Nat) : Nat :=
  let size := n.log2 + 1
  if size ≤ 64 then n
  else
    let unit := Nat.pow 2 (size - 64)
    let lead := n / unit
    let seen := seesDigit ((size - 1) % 64 + 1) (n % unit)
    (if seen && lead % 2 == 0 then lead + 1 else lead) * unit

/-- A whole number as a double. -/
def ofInt (i : Int) : Float := nearest (i < 0) (cutToWord i.natAbs) 1

end Double

end Scheme
