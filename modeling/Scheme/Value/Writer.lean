import Scheme.Value.Basic
import Scheme.Text.Quoted
import Scheme.Decimal.Shortest

/-!
# The text of values

A value has two texts. The written form can be read back where that is possible: strings are
quoted. The displayed form shows strings as they are, inside lists too; only the parts of a
procedure are written in either form.

The text of a frame depends on the store, so every function here takes it as an argument. The
writer works along a list with the text so far in hand, hence `Place`: a value stands on its own,
or it is what follows the elements of a list already begun.
-/

namespace Scheme

/-- Where a value stands in the text. -/
inductive Place where
  | alone
  /-- Behind an element of a list that has not been closed. -/
  | rest
deriving DecidableEq, Repr

namespace Place

/-- Goes on to a value that is no list. -/
def start (acc : String) : Place → String
  | alone => acc
  | rest => acc ++ " . "

/-- Ends a value that is no list. -/
def finish (acc : String) : Place → String
  | alone => acc
  | rest => acc ++ ")"

/-- Puts the text of a value that is no list behind `acc`. -/
def put (acc text : String) (place : Place) : String := place.finish (place.start acc ++ text)

end Place

/-- The keyword that makes a procedure of this scope. -/
def Scope.keyword : Scope → String
  | lexical _ => "lambda"
  | dynamic => "mu"

namespace Value

/-- The text of a boolean. -/
def boolText (b : Bool) : String := if b then "#t" else "#f"

/-- The text of what has no value. -/
def undefinedText : String := "#!undefined"

/-- Puts the text of a value behind `acc`, strings quoted if `quoting` holds. -/
def writeOnto (frameText : FrameId → String) (quoting : Bool) (place : Place) (acc : String) :
    Value → String
  | int i => place.put acc (toString i)
  | float f => place.put acc (Double.view f).text
  | bool b => place.put acc (boolText b)
  | str _ s => place.put acc (if quoting then Text.quoted s else s)
  | sym name => place.put acc name
  | nil =>
    match place with
    | .alone => acc ++ "()"
    | .rest => acc ++ ")"
  | pair _ a d =>
    let opened := match place with
      | .alone => acc ++ "("
      | .rest => acc ++ " "
    d.writeOnto frameText quoting .rest (a.writeOnto frameText quoting .alone opened)
  | builtin b => place.put acc ("#[" ++ b.name ++ "]")
  | closure _ scope formals (pair _ e nil) =>
    let opened := place.start acc ++ "(" ++ scope.keyword ++ " "
    let named := formals.writeOnto frameText true .alone opened
    place.finish (e.writeOnto frameText true .alone (named ++ " ") ++ ")")
  | closure _ scope formals body =>
    let opened := place.start acc ++ "(" ++ scope.keyword ++ " "
    let named := formals.writeOnto frameText true .alone opened
    place.finish (body.writeOnto frameText true .rest (named ++ " (begin") ++ ")")
  | env f => place.put acc (frameText f)
  | undefined => place.put acc undefinedText

/-- The written form: strings in quotes. -/
def written (frameText : FrameId → String) (v : Value) : String :=
  v.writeOnto frameText true .alone ""

/-- The displayed form: strings as they are. -/
def displayed (frameText : FrameId → String) (v : Value) : String :=
  v.writeOnto frameText false .alone ""

/-- The written form of a list of values. -/
def writtenList (frameText : FrameId → String) : List Value → String
  | [] => "()"
  | v :: vs =>
    vs.foldl (fun acc w => w.writeOnto frameText true .alone (acc ++ " "))
      (v.writeOnto frameText true .alone "(") ++ ")"

/-- The written form of the keyword in front of its operands. -/
def writtenForm (frameText : FrameId → String) (keyword : String) (operands : Value) : String :=
  operands.writeOnto frameText true .rest ("(" ++ keyword)

/-- A text that shows how a value is built. -/
def inspect (frameText : FrameId → String) : Value → String
  | int i => "Int(" ++ toString i ++ ")"
  | float f => "Float(" ++ (Double.view f).plainText ++ ")"
  | bool b => "Bool(" ++ (if b then "true" else "false") ++ ")"
  | str _ s => "Str(" ++ Text.quoted s ++ ")"
  | sym name => "Symbol(" ++ Text.quoted name ++ ")"
  | nil => "Nil"
  | pair _ a d => "Pair(" ++ a.inspect frameText ++ ", " ++ d.inspect frameText ++ ")"
  | builtin b => "Procedure(" ++ (builtin b).written frameText ++ ")"
  | closure label scope formals body =>
    "Procedure(" ++ (closure label scope formals body).written frameText ++ ")"
  | env _ => "Environment"
  | undefined => "Undefined"

end Value

end Scheme
