import Scheme.Value.Writer
import Scheme.Reader

/-!
# Faults

A fault is the cause for which an evaluation fails, with the values at fault. `Fault.message` is
the one place that words them. A fault raised inside a built-in procedure is reported under the
procedure's name, unless its message starts with that name already.
-/

namespace Scheme

/-- Why an evaluation failed. -/
inductive Fault where
  /-- What has no value was taken as an expression. -/
  | undefinedExpression
  | unbound (name : String)
  /-- A list was expected and the chain does not end in the empty list. -/
  | malformedList (v : Value)
  | badlyFormed (v : Value)
  /-- The operands of a form are no list. -/
  | badForm (keyword : String) (operands : Value)
  | tooFewOperands (keyword : String) (operands : Value)
  | tooManyOperands (keyword : String) (operands : Value)
  | arityMismatch (expected got : Nat)
  /-- What stands for a parameter, or for all of them, is no symbol or no list. -/
  | badFormals (v : Value)
  /-- A parameter is no symbol. -/
  | badParameters (formals : List Value)
  | duplicateParameter (formals : List Value) (name : String)
  | badDefine (v : Value)
  | tooDeep
  | notCallable (v : Value)
  | elseNotLast
  | emptyElse
  | badBindings (v : Value)
  | badBinding (v : Value)
  /-- A built-in procedure takes exactly this many arguments. -/
  | wrongCount (expected got : Nat)
  /-- A built-in procedure takes at least this many arguments. -/
  | tooFewArguments (least got : Nat)
  | notArgumentList (v : Value)
  | notFileName (v : Value)
  /-- Loading takes one argument. -/
  | oneFileExpected (got : Nat)
  | cannotOpen (name : String)
  /-- The file holds no valid text. -/
  | notText (path : String)
  /-- A loaded text cannot be read to its end. -/
  | unreadableSource (origin : String) (e : ReadError)
  /-- A text to evaluate cannot be read to its end. -/
  | unreadable (e : ReadError)
  | notNumber (v : Value)
  | notInteger (v : Value)
  | divisionByZero
  /-- A number that is not a number has no place in the order. -/
  | notComparable
  | notPair
  | notList (v : Value)
  | missingFrame
  /-- A fault with a wording of its own. -/
  | custom (message : String)
  /-- A fault raised inside the procedure of this name. -/
  | inside (name : String) (fault : Fault)

namespace Fault

/-- The message of a fault raised inside the procedure `name`. -/
def under (name message : String) : String :=
  if name.toList.isPrefixOf message.toList then message else name ++ ": " ++ message

/-- A count of arguments, with the noun. -/
def countText (n : Nat) : String :=
  Nat.repr n ++ (if n = 1 then " argument" else " arguments")

/-- The wording of a fault. -/
def message (frameText : FrameId → String) : Fault → String
  | undefinedExpression => "Cannot evaluate an undefined expression."
  | unbound name => "unknown identifier: " ++ name
  | malformedList v => "malformed list: " ++ v.written frameText
  | badlyFormed v => "badly formed expression: " ++ v.written frameText
  | badForm keyword operands =>
    "badly formed expression: " ++ Value.writtenForm frameText keyword operands
  | tooFewOperands keyword operands =>
    "too few operands in form: " ++ Value.writtenForm frameText keyword operands
  | tooManyOperands keyword operands =>
    "too many operands in form: " ++ Value.writtenForm frameText keyword operands
  | arityMismatch expected got =>
    "arity mismatch: expected " ++ Nat.repr expected ++ " arguments, got " ++ Nat.repr got
  | badFormals v => "badly formed formals: " ++ v.written frameText
  | badParameters formals => "badly formed formals: " ++ Value.writtenList frameText formals
  | duplicateParameter formals name =>
    "badly formed formals: " ++ Value.writtenList frameText formals ++ " (duplicate parameter " ++
      name ++ ")"
  | badDefine v => "bad argument to define: " ++ v.written frameText
  | tooDeep => "maximum recursion depth exceeded"
  | notCallable v => "Cannot call " ++ v.written frameText
  | elseNotLast => "else must be last"
  | emptyElse => "badly formed else clause"
  | badBindings v => "bad bindings list in let form: " ++ v.written frameText
  | badBinding v => "bad binding in let form: " ++ v.written frameText
  | wrongCount expected got =>
    "expects exactly " ++ countText expected ++ ", got " ++ Nat.repr got
  | tooFewArguments least got =>
    "expects at least " ++ countText least ++ ", got " ++ Nat.repr got
  | notArgumentList v => "argument list expected, got " ++ v.written frameText
  | notFileName v => "argument must be a symbol or string, got " ++ v.written frameText
  | oneFileExpected got => "expected exactly 1 argument, got " ++ Nat.repr got
  | cannotOpen name => "could not open file '" ++ name ++ "'"
  | notText path =>
    "could not read file '" ++ path ++ "': stream did not contain valid UTF-8"
  | unreadableSource origin e => origin ++ ": " ++ e.message
  | unreadable e => e.message
  | notNumber v => "expected a number, got " ++ v.written frameText
  | notInteger v => "expected an integer, got " ++ v.written frameText
  | divisionByZero => "division by zero"
  | notComparable => "cannot compare NaN"
  | notPair => "argument must be a pair"
  | notList v => "argument must be a list, got " ++ v.written frameText
  | missingFrame => "missing calling environment"
  | custom message => message
  | inside name fault => under name (fault.message frameText)

end Fault

end Scheme
