import Scheme.Procedure

/-!
# Steps of evaluation

Evaluation goes in steps. A step either finishes with a value or names the expression, and the
frame to evaluate it in, that the value is the value of. That is how the last expression of a body
or the chosen branch of a conditional runs without a nested evaluation: it takes the place of the
whole.

Other parts of an expression are evaluated on the way, by an `Evaluator`. It is an argument here;
`Scheme.Eval` closes the circle.
-/

namespace Scheme

open EvalM

/-- The result of one step. -/
inductive Step where
  | done (v : Value)
  /-- The value is that of this expression in this frame. -/
  | next (e : Value) (f : FrameId)

/-- What can be asked for as a nested evaluation. -/
inductive Task where
  | eval (e : Value) (f : FrameId)
  /-- Applies a procedure to arguments, called from the frame. -/
  | apply (p : Value) (args : List Value) (f : FrameId)

/-- Carries out nested evaluations. -/
abbrev Evaluator := Task → EvalM Value

namespace Form

variable (ev : Evaluator) (f : FrameId)

/-- Evaluates all expressions but the last, which is left. -/
def body : List Value → EvalM Step
  | [] => fail (.tooFewOperands Keyword.sequence.name .nil)
  | [e] => pure (.next e f)
  | e :: es => do
    let _ ← ev (.eval e f)
    body es

/-- The first value that is false, or the value of the last expression, which is left. -/
def conjunction : List Value → EvalM Step
  | [] => pure (.done (.bool true))
  | [e] => pure (.next e f)
  | e :: es => do
    let v ← ev (.eval e f)
    if v.isTrue then conjunction es else pure (.done (.bool false))

/-- The first value that is true, or the value of the last expression, which is left. -/
def disjunction : List Value → EvalM Step
  | [] => pure (.done (.bool false))
  | [e] => pure (.next e f)
  | e :: es => do
    let v ← ev (.eval e f)
    if v.isTrue then pure (.done v) else disjunction es

/-- What the clause of a true test gives: the test itself if it has no body. -/
def chosen (test clauseBody : Value) : EvalM Step :=
  if clauseBody.isNil then pure (.done test)
  else do body ev f (← check (operands Keyword.sequence.name clauseBody 1 none))

/-- The clause behind the others that is taken when no test is true. -/
def otherwise (isLast : Bool) (clauseBody : Value) : EvalM Step :=
  if !isLast then fail .elseNotLast
  else if clauseBody.isNil then fail .emptyElse
  else chosen ev f (.bool true) clauseBody

/-- The first clause whose test is true. -/
def clauses : List Value → EvalM Step
  | [] => pure (.done .undefined)
  | .pair i test clauseBody :: rest =>
    if !clauseBody.isProper then fail (.badlyFormed (.pair i test clauseBody))
    else
      match test with
      | .sym "else" => otherwise ev f rest.isEmpty clauseBody
      | test => do
        let v ← ev (.eval test f)
        if v.isTrue then chosen ev f v clauseBody else clauses rest
  | v :: _ => fail (.badlyFormed v)

/-- The name of a binding and the value of its expression. -/
def binding (b : Value) : EvalM (Value × Value) :=
  match operands Keyword.bindings.name b 2 (some 2) with
  | .ok [x, e] => do
    let v ← ev (.eval e f)
    return (x, v)
  | _ => fail (.badBinding b)

/-- Binds names in a new frame, each to a value found in the present one, and goes on there. -/
def bind (bindings : Value) (exprs : List Value) : EvalM Step := do
  if !bindings.isProper then fail (.badBindings bindings)
  else
    let bs ← check bindings.items
    let bound ← bs.mapM (binding ev f)
    let xs := bound.map Prod.fst
    let _ ← check (names xs)
    let g ← callFrame f xs (bound.map Prod.snd)
    body ev g exprs

/-- Gives a name the value of an expression, or of a procedure described in short. -/
def define (v : Value) : EvalM Step := do
  let _ ← check (operands Keyword.define.name v 2 none)
  match v with
  | .pair _ (.sym x) _ =>
    match ← check (operands Keyword.define.name v 2 (some 2)) with
    | [_, e] =>
      let value ← ev (.eval e f)
      EvalM.define f x value
      return .done (.sym x)
    | _ => fail (.badForm Keyword.define.name v)
  | .pair _ (.pair _ (.sym x) formals) exprs =>
    let value ← newProcedure (.lexical f) formals exprs
    EvalM.define f x value
    return .done (.sym x)
  | .pair _ (.pair _ target _) _ => fail (.badDefine target)
  | .pair _ target _ => fail (.badDefine target)
  | v => fail (.badForm Keyword.define.name v)

end Form

namespace Keyword

/-- The rule of a keyword, on the operands of its form. -/
def run (ev : Evaluator) (operands : Value) (f : FrameId) (k : Keyword) : EvalM Step :=
  match k with
  | quote => do
    match ← check (Form.operands k.name operands 1 (some 1)) with
    | [v] => pure (.done v)
    | _ => fail (.badForm k.name operands)
  | conditional => do
    match ← check (Form.operands k.name operands 3 (some 3)) with
    | [test, whenTrue, whenFalse] =>
      let v ← ev (.eval test f)
      return .next (if v.isTrue then whenTrue else whenFalse) f
    | _ => fail (.badForm k.name operands)
  | conjunction => do
    Form.conjunction ev f (← check (Form.operands k.name operands 0 none))
  | disjunction => do
    Form.disjunction ev f (← check (Form.operands k.name operands 0 none))
  | cond => do
    Form.clauses ev f (← check (Form.operands k.name operands 0 none))
  | sequence => do
    Form.body ev f (← check (Form.operands k.name operands 1 none))
  | bindings => do
    match ← check (Form.operands k.name operands 2 none) with
    | b :: exprs => Form.bind ev f b exprs
    | [] => fail (.badForm k.name operands)
  | lambda => do return .done (← procedureOf .lambda (.lexical f) operands)
  | mu => do return .done (← procedureOf .mu .dynamic operands)
  | define => Form.define ev f operands

end Keyword

end Scheme
