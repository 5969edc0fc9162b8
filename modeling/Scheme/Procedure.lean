import Scheme.Form
import Scheme.Machine

/-!
# Procedures and their frames

A procedure written in the language is made from its parameters and its body, and a call of it
runs the body in a new frame that binds the parameters to the arguments. The parent of that frame
is the frame the procedure was made in, or for a dynamic procedure the frame of the call.
-/

namespace Scheme

open EvalM

/-- Bindings of the parameters to the arguments in the same places. -/
def parameterBindings (b : Bindings) : List Value → List Value → Except Fault Bindings
  | .sym x :: formals, v :: args => parameterBindings (b.put x v) formals args
  | formal :: _, _ :: _ => .error (.badFormals formal)
  | _, _ => .ok b

/-- A new frame below `parent` that binds the parameters to the arguments. -/
def callFrame (parent : FrameId) (formals args : List Value) : EvalM FrameId := do
  if formals.length ≠ args.length then
    fail (.arityMismatch formals.length args.length)
  else
    let b ← check (parameterBindings [] formals args)
    newFrame (some parent) b

/-- A new frame for lists of parameters and arguments that have not been checked to be lists. -/
def callFrameOf (parent : FrameId) (formals : Value) (args : Except Fault (List Value)) :
    EvalM FrameId := do
  let formals ← check formals.items
  let args ← check args
  callFrame parent formals args

namespace Scope

/-- The frame in which a call from `caller` looks up free names. -/
def parent (caller : FrameId) : Scope → FrameId
  | lexical f => f
  | dynamic => caller

end Scope

/-- A new procedure; its parameters must be distinct symbols. -/
def newProcedure (scope : Scope) (formals body : Value) : EvalM Value := do
  let _ ← check (Form.parameters formals)
  return .closure (← newLabel) scope formals body

/-- The procedure that the operands of a `lambda` or `mu` describe. -/
def procedureOf (keyword : Keyword) (scope : Scope) (operands : Value) : EvalM Value := do
  let _ ← check (Form.operands keyword.name operands 2 none)
  match operands with
  | .pair _ formals body => newProcedure scope formals body
  | v => fail (.badForm keyword.name v)

end Scheme
