import Scheme.Eval

/-!
# Evaluation by plain recursion

The rules of the language without steps: `Direct.expression` gives the value of an expression and
`Direct.application` that of a call, and where a rule needs the value of another expression it
asks for it. A conditional evaluates its test and then the branch; `and` answers false at the
first operand that is false, else the value of the last; `or` answers the first value that is not
false, else false; `cond`, `begin`, `let` and calls evaluate their last expression to its value.

What is asked for in the last place stands in tail position and costs no depth. Everything else is
inner and costs one level (`Position`).

`Direct.run` ties the recursion. It takes fuel, since programs need not come to an end.
-/

namespace Scheme.Direct

open EvalM

/-- Where an evaluation stands in the one that asks for it. -/
inductive Position where
  /-- Its value is the value of the whole. -/
  | tail
  /-- Its value is needed on the way. -/
  | inner
deriving DecidableEq, Repr

/-- What an evaluation costs: an inner one is one more under way. -/
def Position.charge {α : Type} (x : EvalM α) : Position → EvalM α
  | tail => x
  | inner => nested x

/-- What rules ask for. -/
abbrev Recursion := Position → Evaluator

section

variable (self : Recursion)

/-! ## Forms -/

/-- Evaluates expressions in order and answers the value of the last. -/
def sequence (f : FrameId) : List Value → EvalM Value
  | [] => fail (.tooFewOperands Keyword.sequence.name .nil)
  | [e] => self .tail (.eval e f)
  | e :: es => do
    let _ ← self .inner (.eval e f)
    sequence f es

/-- The first false value, else the value of the last expression. -/
def conjunction (f : FrameId) : List Value → EvalM Value
  | [] => pure (.bool true)
  | [e] => self .tail (.eval e f)
  | e :: es => do
    let v ← self .inner (.eval e f)
    if v.isTrue then conjunction f es else pure v

/-- The first value that is not false, else false. -/
def disjunction (f : FrameId) : List Value → EvalM Value
  | [] => pure (.bool false)
  | e :: es => do
    let v ← self (if es.isEmpty then .tail else .inner) (.eval e f)
    if v.isTrue then pure v else disjunction f es

/-- The value of the first clause whose test is true. -/
def clauses (f : FrameId) : List Value → EvalM Value
  | [] => pure .undefined
  | .pair i test exprs :: rest => do
    if !exprs.isProper then fail (.badlyFormed (.pair i test exprs))
    else if test.equal (.sym "else") then
      if !rest.isEmpty then fail .elseNotLast
      else if exprs.isNil then fail .emptyElse
      else sequence self f exprs.spine.1
    else
      let v ← self .inner (.eval test f)
      if !v.isTrue then clauses f rest
      else if exprs.isNil then pure v
      else sequence self f exprs.spine.1
  | v :: _ => fail (.badlyFormed v)

/-- The names of bindings and the values of their expressions, all in the frame `f`. -/
def initialValues (f : FrameId) : List Value → EvalM (List (Value × Value))
  | [] => pure []
  | b :: bs =>
    match b.spine with
    | ([x, e], .nil) => do
      let v ← self .inner (.eval e f)
      return (x, v) :: (← initialValues f bs)
    | _ => fail (.badBinding b)

/-- The value of expressions in a new frame with bindings. -/
def binding (f : FrameId) (bindings : Value) (exprs : List Value) : EvalM Value := do
  if !bindings.isProper then fail (.badBindings bindings)
  else
    let bound ← initialValues self f bindings.spine.1
    let _ ← check (Form.names (bound.map Prod.fst))
    let g ← callFrame f (bound.map Prod.fst) (bound.map Prod.snd)
    sequence self g exprs

/-- The effect and the value of a definition with these operands, of which there are at least
two. -/
def definition (f : FrameId) (operands : Value) : EvalM Value :=
  match operands with
  | .pair _ (.sym x) (.pair _ e .nil) => do
    EvalM.define f x (← self .inner (.eval e f))
    return .sym x
  | .pair _ (.sym _) _ => fail (.tooManyOperands Keyword.define.name operands)
  | .pair _ (.pair _ (.sym x) formals) exprs => do
    EvalM.define f x (← newProcedure (.lexical f) formals exprs)
    return .sym x
  | .pair _ (.pair _ target _) _ => fail (.badDefine target)
  | .pair _ target _ => fail (.badDefine target)
  | v => fail (.badForm Keyword.define.name v)

/-- The value of a form with these operands. -/
def form (operands : Value) (f : FrameId) (k : Keyword) : EvalM Value := do
  match k with
  | .quote => return (← check (Form.operands k.name operands 1 (some 1))).headD .undefined
  | .conditional =>
    match ← check (Form.operands k.name operands 3 (some 3)) with
    | [test, whenTrue, whenFalse] =>
      if (← self .inner (.eval test f)).isTrue then self .tail (.eval whenTrue f)
      else self .tail (.eval whenFalse f)
    | _ => fail (.badForm k.name operands)
  | .conjunction => conjunction self f (← check (Form.operands k.name operands 0 none))
  | .disjunction => disjunction self f (← check (Form.operands k.name operands 0 none))
  | .cond => clauses self f (← check (Form.operands k.name operands 0 none))
  | .sequence => sequence self f (← check (Form.operands k.name operands 1 none))
  | .bindings =>
    match ← check (Form.operands k.name operands 2 none) with
    | bindings :: exprs => binding self f bindings exprs
    | [] => fail (.badForm k.name operands)
  | .lambda => procedureOf .lambda (.lexical f) operands
  | .mu => procedureOf .mu .dynamic operands
  | .define => do
    let _ ← check (Form.operands k.name operands 2 none)
    definition self f operands

/-! ## Calls and expressions -/

/-- The value of a call from frame `f`. The body of a procedure is evaluated in the frame of the
call, at the position of the call. -/
def application (position : Position) (p : Value) (args : List Value) (f : FrameId) :
    EvalM Value :=
  match p with
  | .builtin b => b.call (self .inner) args f
  | .closure _ scope formals body => do
    let g ← callFrameOf (scope.parent f) formals (.ok args)
    self position (.eval body.sequence g)
  | v => fail (.notCallable v)

/-- The value of an expression. In a call the operator is evaluated first and then the operands
from left to right. -/
def expression (e : Value) (f : FrameId) : EvalM Value :=
  match e with
  | .undefined => fail .undefinedExpression
  | .sym x => lookup f x
  | .pair i head operands =>
    if !operands.isProper then fail (.malformedList (.pair i head operands))
    else
      match Keyword.ofValue? head with
      | some k => form self operands f k
      | none => do
        let p ← self .inner (.eval head f)
        let args ← operands.spine.1.mapM fun e => self .inner (.eval e f)
        application self .tail p args f
  | v => pure v

end

/-- Carries out a task by recursion at the given position. -/
def run : (fuel : Nat) → Recursion
  | 0, _, _ => halt .outOfFuel
  | n + 1, position, .eval e f => position.charge (expression (run n) e f)
  | n + 1, position, .apply p args f => application (run n) position p args f

end Scheme.Direct
