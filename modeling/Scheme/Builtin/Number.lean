import Scheme.Builtin.Arguments

/-!
# Procedures on numbers

Arithmetic is exact while all operands are integers and goes over to doubles with the first
operand that is a double. Integers are unbounded. Division of integers stays exact where it comes
out even. `quotient` and `remainder` truncate toward zero; `modulo` takes the sign of the divisor.
-/

namespace Scheme

namespace Relation

/-- Whether the relation holds of two numbers in this order. -/
def holds : Relation → Ordering → Bool
  | eq, o => o == .eq
  | lt, o => o == .lt
  | gt, o => o == .gt
  | le, o => o != .gt
  | ge, o => o != .lt

end Relation

namespace Number

open Arguments

/-- Integers by the one operation, everything else by the other. -/
def combine (onInts : Int → Int → Int) (onFloats : Float → Float → Float) (a b : Value) :
    Except Fault Value :=
  match a, b with
  | .int x, .int y => .ok (.int (onInts x y))
  | a, b => do
    let x ← number a
    let y ← number b
    return .float (onFloats x y)

/-- The sum of two numbers. -/
def add (a b : Value) : Except Fault Value := combine (· + ·) (· + ·) a b

/-- The difference of two numbers. -/
def sub (a b : Value) : Except Fault Value := combine (· - ·) (· - ·) a b

/-- The product of two numbers. -/
def mul (a b : Value) : Except Fault Value := combine (· * ·) (· * ·) a b

/-- Whether a number is zero. -/
def isZero : Value → Except Fault Bool
  | .int i => .ok (i == 0)
  | .float f => .ok (f == 0)
  | v => .error (.notNumber v)

/-- The quotient of two numbers, exact if it comes out even. -/
def divide (a b : Value) : Except Fault Value := do
  if ← isZero b then throw .divisionByZero
  match a, b with
  | .int x, .int y =>
    if x.tmod y = 0 then return .int (x.tdiv y)
    else return .float (Double.ofInt x / Double.ofInt y)
  | a, b =>
    let x ← number a
    let y ← number b
    return .float (x / y)

/-- The sum of all arguments. -/
def sum (args : List Value) : Except Fault Value := args.foldlM add (.int 0)

/-- The product of all arguments. -/
def product (args : List Value) : Except Fault Value := args.foldlM mul (.int 1)

/-- An operation that goes from the first argument through the others, or from `unit` if there is
only one. -/
def chain (op : Value → Value → Except Fault Value) (unit : Value) :
    List Value → Except Fault Value
  | [] => .error (.tooFewArguments 1 0)
  | [v] => op unit v
  | v :: rest => do
    let first ← numeric v
    rest.foldlM op first

/-- The difference of the first argument and all others, or the negation of a single one. -/
def difference (args : List Value) : Except Fault Value := chain sub (.int 0) args

/-- The quotient of the first argument by all others, or the inverse of a single one. -/
def ratio (args : List Value) : Except Fault Value := chain divide (.int 1) args

/-! ## Integers -/

/-- Two integers of which the second is not zero. -/
def dividend (args : List Value) : Except Fault (Int × Int) := do
  let (v, w) ← two args
  let a ← integer v
  let b ← integer w
  if b = 0 then throw .divisionByZero
  return (a, b)

/-- The quotient truncated toward zero. -/
def quotient (a b : Int) : Int := a.tdiv b

/-- The remainder with the sign of the dividend. -/
def remainder (a b : Int) : Int := a.tmod b

/-- The remainder with the sign of the divisor. -/
def modulo (a b : Int) : Int :=
  let r := a.tmod b
  if r ≠ 0 ∧ (r < 0 ↔ ¬b < 0) then r + b else r

/-- The power of an integer; an odd power keeps the sign. -/
def power (base : Int) (n : Nat) : Int :=
  let magnitude : Int := (Nat.pow base.natAbs n : Nat)
  if base < 0 ∧ n % 2 = 1 then -magnitude else magnitude

/-- Powers with an exponent below this bound, `2^32`, are exact. -/
def exponentBound : Int := 4294967296

/-- A number to the power of another. -/
def expt (a b : Value) : Except Fault Value :=
  match a, b with
  | .int x, .int y =>
    if 0 ≤ y ∧ y < exponentBound then .ok (.int (power x y.toNat))
    else .ok (.float (Float.pow (Double.ofInt x) (Double.ofInt y)))
  | a, b => do
    let x ← number a
    let y ← number b
    return .float (Float.pow x y)

/-- The magnitude of a number. -/
def magnitude : Value → Except Fault Value
  | .int i => .ok (.int i.natAbs)
  | v => do return .float (← number v).abs

/-! ## Order -/

/-- The order of two doubles, if they have one. -/
def compareFloats (x y : Float) : Except Fault Ordering :=
  if x < y then .ok .lt
  else if x == y then .ok .eq
  else if y < x then .ok .gt
  else .error .notComparable

/-- The order of two numbers. -/
def compare (a b : Value) : Except Fault Ordering :=
  match a, b with
  | .int x, .int y => .ok (Ord.compare x y)
  | a, b => do
    let x ← number a
    let y ← number b
    compareFloats x y

/-- Whether each argument is in the relation to the next one, given whether all before were. All
arguments are compared, so that each of them is checked to be a number. -/
def ordered (r : Relation) (before : Bool) : List Value → Except Fault Bool
  | a :: b :: rest => do
    let o ← compare a b
    ordered r (before && r.holds o) (b :: rest)
  | _ => .ok before

/-- At least two numbers, compared one with the next. -/
def comparison (r : Relation) (args : List Value) : Except Fault Value :=
  if args.length < 2 then .error (.tooFewArguments 2 args.length)
  else do return .bool (← ordered r true args)

end Number

namespace NumericOp

open Arguments Number

/-- What a procedure on numbers answers. -/
def run (args : List Value) : NumericOp → Except Fault Value
  | add => sum args
  | sub => difference args
  | mul => product args
  | div => ratio args
  | quotient => do
    let (a, b) ← dividend args
    return .int (Number.quotient a b)
  | remainder => do
    let (a, b) ← dividend args
    return .int (Number.remainder a b)
  | modulo => do
    let (a, b) ← dividend args
    return .int (Number.modulo a b)
  | abs => do magnitude (← one args)
  | expt => do
    let (a, b) ← two args
    Number.expt a b
  | compare r => comparison r args
  | even => do
    let n ← integer (← one args)
    return .bool (n.tmod 2 == 0)
  | odd => do
    let n ← integer (← one args)
    return .bool (n.tmod 2 != 0)
  | zero => do return .bool (← isZero (← one args))

end NumericOp

end Scheme
