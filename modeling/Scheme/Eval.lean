import Scheme.Builtin.Effect
import Scheme.Load

/-!
# Evaluation

The value of an expression in a frame. A symbol has the value that the frame gives it, a list is a
form or a call, and every other value stands for itself; only what has no value is no expression.
In a call the operator is evaluated first and then the operands from left to right.

`loop` takes step after step until one is done. `run` ties the loop to the nested evaluations
that steps ask for. Both take fuel, and `evaluate` has more of it than any run could use up.
-/

namespace Scheme

open EvalM

/-! ## Calls -/

namespace ControlOp

/-- What a procedure that evaluates does. -/
def run (ev : Evaluator) (args : List Value) (op : ControlOp) : EvalM Value := do
  let (args, f) ← check (Arguments.withFrame args)
  match op, args with
  | eval, [e] => ev (.eval e f)
  | eval, args => fail (.wrongCount 1 args.length)
  | apply, [p, v] =>
    match v.spine with
    | (xs, .nil) => ev (.apply p xs f)
    | _ => fail (.notArgumentList v)
  | apply, args => fail (.wrongCount 2 args.length)
  | load, [.sym name] => do
    let _ ← loadFile ev name f
    return .undefined
  | load, [.str _ name] => do
    let _ ← loadFile ev name f
    return .undefined
  | load, [v] => fail (.notFileName v)
  | load, args => fail (.oneFileExpected args.length)

end ControlOp

namespace Builtin

/-- What a built-in procedure does on its arguments. -/
def run (ev : Evaluator) (args : List Value) : Builtin → EvalM Value
  | numeric op => check (op.run args)
  | list op => op.run args
  | test t => check (t.run args)
  | likeness l => check (l.run args)
  | output op => op.run args
  | control op => op.run ev args
  | host op => op.run args

/-- The arguments of a call from frame `f`, with the frame if it is wanted. -/
def arguments (b : Builtin) (args : List Value) (f : FrameId) : List Value :=
  if b.wantsFrame then args ++ [.env f] else args

/-- A call of a built-in procedure from frame `f`; its faults are reported under its name. -/
def call (ev : Evaluator) (b : Builtin) (args : List Value) (f : FrameId) : EvalM Value := fun m =>
  match b.run ev (b.arguments args f) m with
  | .ok v m => .ok v m
  | .error (.fault e) m => .error (.fault (.inside b.name e)) m
  | .error (.halt h) m => .error (.halt h) m

end Builtin

/-- One step of a call from frame `f`: a built-in procedure answers at once, and the body of any
other is left to be evaluated in the frame of the call. -/
def applyStep (ev : Evaluator) (p : Value) (args : Except Fault (List Value)) (f : FrameId) :
    EvalM Step :=
  match p with
  | .builtin b => do
    let args ← check args
    return .done (← b.call ev args f)
  | .closure _ scope formals body => do
    let g ← callFrameOf (scope.parent f) formals args
    return .next body.sequence g
  | v => fail (.notCallable v)

/-! ## Expressions -/

/-- The values of the operands of a call, from left to right. -/
def evalOperands (ev : Evaluator) (operands : Value) (f : FrameId) : EvalM (List Value) :=
  mapItems (fun e => ev (.eval e f)) operands

/-- One step of the evaluation of an expression. -/
def evalStep (ev : Evaluator) (e : Value) (f : FrameId) : EvalM Step :=
  match e with
  | .undefined => fail .undefinedExpression
  | .sym x => do return .done (← lookup f x)
  | .pair i head operands =>
    if !operands.isProper then fail (.malformedList (.pair i head operands))
    else
      match Keyword.ofValue? head with
      | some k => k.run ev operands f
      | none => do
        let p ← ev (.eval head f)
        let args ← evalOperands ev operands f
        applyStep ev p (.ok args) f
  | v => pure (.done v)

/-- Takes steps until one is done. -/
def loop (ev : Evaluator) : (fuel : Nat) → Value → FrameId → EvalM Value
  | 0, _, _ => halt .outOfFuel
  | n + 1, e, f => fun m =>
    match evalStep ev e f m with
    | .ok (.done v) m => .ok v m
    | .ok (.next e f) m => loop ev n e f m
    | .error s m => .error s m

/-- Carries out a task. An evaluation counts as one level of depth; an application does not, but
the evaluation of the procedure's body does. -/
def run : (fuel : Nat) → Evaluator
  | 0, _ => halt .outOfFuel
  | n + 1, .eval e f => nested (loop (run n) (n + 1) e f)
  | n + 1, .apply p args f => fun m =>
    match applyStep (run n) p (.ok args) f m with
    | .ok (.done v) m => .ok v m
    | .ok (.next e g) m => run n (.eval e g) m
    | .error s m => .error s m

/-- More fuel than any run could use up: `2^62`. -/
def ample : Nat := 0x4000000000000000

/-- Carries out a task to its end. -/
def evaluate : Evaluator := run ample

end Scheme
