import Scheme.Repl

/-!
# Sessions

What can be asked of an interpreter with one global frame. Every operation is an action on the
machine, so a session is a sequence of them; one that fails leaves the changes made until then,
and the next goes on from there.
-/

namespace Scheme

open EvalM

namespace Session

/-- A machine with the standard procedures in its global frame. -/
def new (files : String → FileEntry) : Machine := Machine.new Builtin.standard files

/-- A machine with an embedding program's procedures beside the standard ones. -/
def newHosted (files : String → FileEntry) : Machine :=
  Machine.new (Builtin.standard ++ Builtin.hosting) files

/-- The value of an expression in the global frame. -/
def evalValue (e : Value) : EvalM Value := evaluate (.eval e Machine.globalFrame)

/-- Evaluates expressions in order; the value of the last is the result. -/
def evalInTurn (ev : Evaluator) (last : Value) : List Datum → EvalM Value
  | [] => pure last
  | d :: rest => do evalInTurn ev (← evalDatum ev Machine.globalFrame d) rest

/-- Evaluates expressions in order, each to its end. -/
def evalAll (last : Value) (ds : List Datum) : EvalM Value := evalInTurn evaluate last ds

/-- Reads the whole text and then evaluates its expressions; the value of the last is the
result. A text that cannot be read to its end is not evaluated at all. -/
def evalText (source : String) : EvalM Value :=
  match (Program.ofText source).all with
  | .ok exprs => evalAll .undefined exprs
  | .error e => fail (.unreadable e)

/-- Applies a procedure in the global frame and runs it to its end. The arguments are given as a
list value. -/
def applyValue (p args : Value) : EvalM Value := do
  match ← applyStep evaluate p args.items Machine.globalFrame with
  | .done v => pure v
  | .next e f => evaluate (.eval e f)

end Session

end Scheme
