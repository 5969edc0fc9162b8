import Scheme.Builtin.Arguments

/-!
# Tests and comparisons

Procedures that answer a boolean about one value or two. They never look at what a value is bound
to, only at the value.
-/

namespace Scheme

/-- Whether a value passes a test. A double without fractional part counts as an integer. -/
def Test.holds : Test → Value → Bool
  | null, v => v.isNil
  | pair, .pair .. => true
  | list, v => v.isProper
  | number, .int _ => true
  | number, .float _ => true
  | integer, .int _ => true
  | integer, .float f => (Double.view f).isWhole
  | symbol, v => v.isSymbol
  | string, .str .. => true
  | boolean, .bool _ => true
  | procedure, v => v.isProcedure
  | atom, .bool _ => true
  | atom, .int _ => true
  | atom, .float _ => true
  | atom, .sym _ => true
  | atom, .str .. => true
  | atom, .nil => true
  | not, v => !v.isTrue
  | _, _ => false

/-- What a test answers. -/
def Test.run (args : List Value) (t : Test) : Except Fault Value := do
  return .bool (t.holds (← Arguments.one args))

/-- Whether two values are alike. -/
def Likeness.holds : Likeness → Value → Value → Bool
  | same, v, w => v.same w
  | equal, v, w => v.equal w

/-- What a comparison answers. -/
def Likeness.run (args : List Value) (l : Likeness) : Except Fault Value := do
  let (v, w) ← Arguments.two args
  return .bool (l.holds v w)

end Scheme
