import Scheme.Value.List

/-!
# Forms

A form is an expression that starts with a keyword and has an evaluation rule of its own. A
keyword is known by its name, whatever the name is bound to. This module holds the keywords and
the checks of a form's shape: how many operands it has, and that parameters are distinct symbols.
-/

namespace Scheme

/-- The keywords. -/
inductive Keyword where
  | quote | cond | conditional | conjunction | disjunction | sequence | bindings
  | lambda | mu | define
deriving DecidableEq, Repr

namespace Keyword

/-- The name of a keyword. -/
def name : Keyword → String
  | quote => "quote"
  | conditional => "if"
  | conjunction => "and"
  | disjunction => "or"
  | cond => "cond"
  | sequence => "begin"
  | bindings => "let"
  | lambda => "lambda"
  | mu => "mu"
  | define => "define"

/-- All keywords. -/
def all : List Keyword :=
  [quote, conditional, conjunction, disjunction, cond, sequence, bindings, lambda, mu, define]

/-- The keyword of this name. -/
def ofName? (s : String) : Option Keyword := all.find? (·.name == s)

/-- The keyword that an expression is. -/
def ofValue? : Value → Option Keyword
  | .sym x => ofName? x
  | _ => none

/-- The table of keywords leaves none out. -/
theorem mem_all (k : Keyword) : k ∈ all := by
  cases k <;> decide

/-- Every keyword is found under its name. -/
theorem ofName?_name (k : Keyword) : ofName? k.name = some k := by
  cases k <;> rfl

end Keyword

namespace Form

/-- The operands of a form, of which there are at least `least` and at most `most`. -/
def operands (keyword : String) (v : Value) (least : Nat) (most : Option Nat) :
    Except Fault (List Value) :=
  match v.spine with
  | (xs, .nil) =>
    if xs.length < least then .error (.tooFewOperands keyword v)
    else if most.any (· < xs.length) then .error (.tooManyOperands keyword v)
    else .ok xs
  | _ => .error (.badForm keyword v)

/-- Distinct names for the rest of the parameters `formals`; `seen` holds those in front. -/
def distinctNames (formals : List Value) (seen : List String) :
    List Value → Except Fault (List String)
  | [] => .ok seen.reverse
  | .sym x :: rest =>
    if x ∈ seen then .error (.duplicateParameter formals x)
    else distinctNames formals (x :: seen) rest
  | _ :: _ => .error (.badParameters formals)

/-- The names of a list of distinct symbols. -/
def names (formals : List Value) : Except Fault (List String) := distinctNames formals [] formals

/-- The names of the parameters of a procedure. -/
def parameters (formals : Value) : Except Fault (List String) :=
  match formals.spine with
  | (xs, .nil) => names xs
  | _ => .error (.badFormals formals)

end Form

end Scheme
