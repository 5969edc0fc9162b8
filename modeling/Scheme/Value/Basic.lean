import Scheme.Builtin
import Scheme.Datum
import Scheme.Decimal.Double

/-!
# Values

Expressions and the results of evaluation are values of one type. Strings, pairs and procedures
written in the language are objects: each carries a label, and two objects are the same when
their labels are. Frames are named by their number in the store.

A procedure keeps its parameter list and its body as they stand in the expression that made it.
The body is the list of its expressions; `Value.sequence` is the one expression that they are
together.
-/

namespace Scheme

/-- The number of a frame. -/
abbrev FrameId := Nat

/-- The identity of an object. -/
abbrev Label := Nat

/-- Where a procedure's free names are looked up. -/
inductive Scope where
  /-- In the frame that the procedure was made in. -/
  | lexical (frame : FrameId)
  /-- In the frame that it is called from. -/
  | dynamic
deriving DecidableEq, Repr

/-- Expressions, data and everything else that evaluation handles. -/
inductive Value where
  | int (i : Int)
  | float (f : Float)
  | bool (b : Bool)
  | str (label : Label) (s : String)
  | sym (name : String)
  | nil
  | pair (label : Label) (first second : Value)
  | builtin (b : Builtin)
  | closure (label : Label) (scope : Scope) (formals body : Value)
  /-- A frame handed to a procedure that asks for the frame of its call. -/
  | env (frame : FrameId)
  /-- The result of what produces no value. -/
  | undefined

namespace Value

/-- Everything but the boolean false counts as true. -/
def isTrue : Value → Bool
  | bool false => false
  | _ => true

/-- The empty list. -/
def isNil : Value → Bool
  | nil => true
  | _ => false

/-- A symbol. -/
def isSymbol : Value → Bool
  | sym _ => true
  | _ => false

/-- A procedure, built in or not. -/
def isProcedure : Value → Bool
  | builtin _ => true
  | closure .. => true
  | _ => false

/-- A value that, taken as an expression, stands for itself. -/
def isSelfEvaluating : Value → Bool
  | sym _ => false
  | pair .. => false
  | undefined => false
  | _ => true

/-- A chain of pairs that ends in the empty list. -/
def isProper : Value → Bool
  | pair _ _ rest => rest.isProper
  | nil => true
  | _ => false

/-- A number as a double. -/
def toFloat? : Value → Option Float
  | int i => some (Double.ofInt i)
  | float f => some f
  | _ => none

/-- The label of expressions that are made up on the way and never kept. -/
def noLabel : Label := 0

/-- The expression that a body of one or more expressions stands for. -/
def sequence : Value → Value
  | pair _ e nil => e
  | body => pair noLabel (sym "begin") body

/-! ## Sameness -/

/-- The same object: objects by their label, all other values by what they are. -/
def same : Value → Value → Bool
  | int a, int b => a == b
  | float a, float b => a == b
  | bool a, bool b => a == b
  | sym a, sym b => a == b
  | str i _, str j _ => i == j
  | pair i _ _, pair j _ _ => i == j
  | builtin a, builtin b => a == b
  | closure i _ _ _, closure j _ _ _ => i == j
  | env f, env g => f == g
  | nil, nil => true
  | undefined, undefined => true
  | _, _ => false

/-- The same structure: pairs by their parts, strings by their characters, all other values by
sameness. -/
def equal : Value → Value → Bool
  | pair _ a b, pair _ c d => a.equal c && b.equal d
  | str _ a, str _ b => a == b
  | v, w => v.same w

end Value

end Scheme
