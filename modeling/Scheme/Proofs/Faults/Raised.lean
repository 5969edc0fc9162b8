import Scheme.Proofs.Faults.Wording
import Scheme.Proofs.Simulation.Eval

/-!
# Which faults are raised

Procedures that do not evaluate raise faults of the interpreter's own wording (`Fault.Plain`). An
evaluation raises these and the faults of the built-in procedures that it calls, under their names
(`Fault.Regular`); `raises_run` is the result, with one lemma for each form on the way. Loading
raises plain faults and the report that a text cannot be read to its end: what goes wrong in the
expressions of the text is caught.
-/

namespace Scheme

/-! ## Which faults are raised -/

/-- Every fault that the check can have has the property. -/
def Refuses {α : Type} (P : Fault → Prop) (x : Except Fault α) : Prop := ∀ ⦃e⦄, x = .error e → P e

/-- Every fault that the action can stop for has the property. -/
def Raises {α : Type} (P : Fault → Prop) (x : EvalM α) : Prop :=
  ∀ ⦃m e m'⦄, x m = .error (.fault e) m' → P e

section Rules

variable {α β : Type} {P : Fault → Prop}

namespace Refuses

theorem ok (a : α) : Refuses P (.ok a) := fun _ h => nomatch h

theorem error {e : Fault} (h : P e) : Refuses P (.error e : Except Fault α) := by
  rintro _ ⟨⟩
  exact h

/-- Two checks in a row have the faults of either. -/
theorem bind {x : Except Fault α} {k : α → Except Fault β} (hx : Refuses P x)
    (hk : ∀ a, Refuses P (k a)) : Refuses P (x >>= k) := by
  cases x with
  | ok a => exact hk a
  | error e => exact .error (hx rfl)

theorem foldlM {f : β → α → Except Fault β} (hf : ∀ b a, Refuses P (f b a)) (xs : List α) (b : β) :
    Refuses P (xs.foldlM f b) := by
  induction xs generalizing b with
  | nil => exact .ok b
  | cons a xs ih =>
    rw [List.foldlM_cons]
    exact (hf b a).bind ih

theorem mapM {f : α → Except Fault β} (hf : ∀ a, Refuses P (f a)) (xs : List α) :
    Refuses P (xs.mapM f) := by
  induction xs with
  | nil => exact .ok []
  | cons a xs ih =>
    rw [List.mapM_cons]
    exact (hf a).bind fun _ => ih.bind fun _ => .ok _

end Refuses

namespace Raises

/-- An action that never faults. -/
theorem of_ok {x : EvalM α} (h : ∀ m, ∃ a m', x m = .ok a m') : Raises P x := by
  intro m e m' hx
  obtain ⟨a, m₁, hok⟩ := h m
  rw [hok] at hx
  exact nomatch hx

theorem pure (a : α) : Raises P (Pure.pure a) := of_ok fun m => ⟨a, m, rfl⟩

theorem fail {e : Fault} (h : P e) : Raises P (EvalM.fail e : EvalM α) := by
  rintro m _ m' ⟨⟩
  exact h

theorem halt (h : Halt) : Raises P (EvalM.halt h : EvalM α) := by
  rintro m e m' ⟨⟩

/-- Two actions in a row raise the faults of either. -/
theorem bind {x : EvalM α} {k : α → EvalM β} (hx : Raises P x) (hk : ∀ a, Raises P (k a)) :
    Raises P (x >>= k) := by
  intro m e m' h
  change EStateM.bind x k m = _ at h
  rw [EStateM.bind] at h
  split at h
  · exact hk _ h
  · next hxm =>
    cases h
    exact hx hxm

/-- A check that is made as an action raises the faults that it has as a check. -/
theorem check {x : Except Fault α} (h : Refuses P x) : Raises P (EvalM.check x) := by
  cases x with
  | ok a => exact .pure a
  | error e => exact .fail (h rfl)

theorem mapM {f : α → EvalM β} (hf : ∀ a, Raises P (f a)) (xs : List α) :
    Raises P (xs.mapM f) := by
  induction xs with
  | nil => exact .pure []
  | cons a xs ih =>
    rw [List.mapM_cons]
    exact (hf a).bind fun _ => ih.bind fun _ => .pure _

theorem foldlM {f : β → α → EvalM β} (hf : ∀ b a, Raises P (f b a)) (xs : List α) (b : β) :
    Raises P (xs.foldlM f b) := by
  induction xs generalizing b with
  | nil => exact .pure b
  | cons a xs ih =>
    rw [List.foldlM_cons]
    exact (hf b a).bind ih

/-- An attempt catches every fault of what is attempted. -/
theorem attempt (x : EvalM α) : Raises P (EvalM.attempt x) := by
  intro m e m' h
  rw [EvalM.attempt] at h
  split at h <;> cases h

/-- One level down the faults are those of the action itself and that of the depth limit. -/
theorem nested (hd : P .tooDeep) {x : EvalM α} (hx : Raises P x) : Raises P (EvalM.nested x) := by
  intro m e m' h
  rw [EvalM.nested] at h
  split at h
  · cases h
    exact hd
  · split at h
    · cases h
    · next hxm =>
      cases h
      exact hx hxm

theorem cons (a d : Value) : Raises P (EvalM.cons a d) := of_ok fun _ => ⟨_, _, rfl⟩

/-- Making a list of given values never faults. -/
theorem consReversed (tail : Value) (xs : List Value) : Raises P (EvalM.consReversed tail xs) := by
  induction xs generalizing tail with
  | nil => exact .pure tail
  | cons a xs ih => exact (cons a tail).bind ih

end Raises

end Rules

/-! ## Procedures that do not evaluate -/

/-- The message begins with words of the interpreter. -/
def Fault.Plain (e : Fault) : Prop := e.opening?.isSome = true

namespace Arguments

theorem refuses_one (args : List Value) : Refuses Fault.Plain (one args) := by
  unfold one
  split
  · exact .ok _
  · exact .error rfl

theorem refuses_two (args : List Value) : Refuses Fault.Plain (two args) := by
  unfold two
  split
  · exact .ok _
  · exact .error rfl

theorem refuses_none (args : List Value) : Refuses Fault.Plain (none args) := by
  unfold none
  split
  · exact .ok _
  · exact .error rfl

theorem refuses_number (v : Value) : Refuses Fault.Plain (number v) := by
  unfold number
  split
  · exact .ok _
  · exact .error rfl

theorem refuses_numeric (v : Value) : Refuses Fault.Plain (numeric v) := by
  unfold numeric
  split
  · exact .ok _
  · exact .ok _
  · exact .error rfl

theorem refuses_integer (v : Value) : Refuses Fault.Plain (integer v) := by
  unfold integer
  split
  · exact .ok _
  · exact .error rfl

theorem refuses_list (v : Value) : Refuses Fault.Plain (list v) := by
  unfold list
  split
  · exact .ok _
  · exact .error rfl

/-- Arguments that should end in a frame and do not are refused in words of the interpreter. -/
theorem refuses_withFrame (args : List Value) : Refuses Fault.Plain (withFrame args) := by
  unfold withFrame
  split
  · exact .ok _
  · exact .error rfl

end Arguments

namespace Number

open Arguments

/-- Sums and products are refused in words of the interpreter. -/
theorem refuses_combine (onInts : Int → Int → Int) (onFloats : Float → Float → Float)
    (a b : Value) : Refuses Fault.Plain (combine onInts onFloats a b) := by
  unfold combine
  split
  · exact .ok _
  · exact (refuses_number _).bind fun _ => (refuses_number _).bind fun _ => .ok _

theorem refuses_isZero (v : Value) : Refuses Fault.Plain (isZero v) := by
  unfold isZero
  split
  · exact .ok _
  · exact .ok _
  · exact .error rfl

/-- A quotient is refused in words of the interpreter, be it for its divisor or for its operands. -/
theorem refuses_divide (a b : Value) : Refuses Fault.Plain (divide a b) := by
  refine (refuses_isZero b).bind fun z => ?_
  split
  · cases z with
    | true => exact .error rfl
    | false =>
      simp only [Bool.false_eq_true, if_false]
      split <;> exact .ok _
  · cases z with
    | true => exact .error rfl
    | false => exact (refuses_number _).bind fun _ => (refuses_number _).bind fun _ => .ok _

/-- A chain of operations is refused in words of the interpreter if each of the operations is. -/
theorem refuses_chain {op : Value → Value → Except Fault Value}
    (hop : ∀ a b, Refuses Fault.Plain (op a b)) (unit : Value) (args : List Value) :
    Refuses Fault.Plain (chain op unit args) := by
  unfold chain
  split
  · exact .error rfl
  · exact hop _ _
  · exact (refuses_numeric _).bind fun _ => .foldlM hop _ _

/-- The operands of a division of integers are refused in words of the interpreter. -/
theorem refuses_dividend (args : List Value) : Refuses Fault.Plain (dividend args) := by
  refine (refuses_two args).bind fun (v, w) => ?_
  refine (refuses_integer v).bind fun a => (refuses_integer w).bind fun b => ?_
  split
  · exact .error rfl
  · exact .ok _

theorem refuses_expt (a b : Value) : Refuses Fault.Plain (expt a b) := by
  unfold expt
  split
  · split <;> exact .ok _
  · exact (refuses_number _).bind fun _ => (refuses_number _).bind fun _ => .ok _

theorem refuses_magnitude (v : Value) : Refuses Fault.Plain (magnitude v) := by
  unfold magnitude
  split
  · exact .ok _
  · exact (refuses_number _).bind fun _ => .ok _

/-- A comparison is refused in words of the interpreter, also where two doubles have no order. -/
theorem refuses_compare (a b : Value) : Refuses Fault.Plain (compare a b) := by
  unfold compare
  split
  · exact .ok _
  · refine (refuses_number _).bind fun x => (refuses_number _).bind fun y => ?_
    unfold compareFloats
    split_ifs <;> first | exact .ok _ | exact .error rfl

/-- Comparing the neighbours in a list is refused in words of the interpreter. -/
theorem refuses_ordered (r : Relation) (before : Bool) (args : List Value) :
    Refuses Fault.Plain (ordered r before args) := by
  fun_induction ordered r before args with
  | case1 before a b rest ih => exact (refuses_compare a b).bind ih
  | case2 before args h => exact .ok _

theorem refuses_comparison (r : Relation) (args : List Value) :
    Refuses Fault.Plain (comparison r args) := by
  unfold comparison
  split
  · exact .error rfl
  · exact (refuses_ordered r true args).bind fun _ => .ok _

end Number

open Arguments Number

/-- Numeric procedures refuse their arguments in words of the interpreter. -/
theorem NumericOp.refuses_run (args : List Value) (op : NumericOp) :
    Refuses Fault.Plain (op.run args) := by
  cases op with
  | add => exact .foldlM (refuses_combine _ _) _ _
  | mul => exact .foldlM (refuses_combine _ _) _ _
  | sub => exact refuses_chain (refuses_combine _ _) _ _
  | div => exact refuses_chain refuses_divide _ _
  | quotient | remainder | modulo => exact (refuses_dividend args).bind fun _ => .ok _
  | abs => exact (refuses_one args).bind refuses_magnitude
  | expt => exact (refuses_two args).bind fun p => refuses_expt p.1 p.2
  | compare r => exact refuses_comparison r args
  | even | odd =>
    exact (refuses_one args).bind fun v => (refuses_integer v).bind fun _ => .ok _
  | zero => exact (refuses_one args).bind fun v => (refuses_isZero v).bind fun _ => .ok _

theorem ListOp.refuses_first (v : Value) : Refuses Fault.Plain (first v) := by
  unfold first
  split
  · exact .ok _
  · exact .error rfl

theorem ListOp.refuses_second (v : Value) : Refuses Fault.Plain (second v) := by
  unfold second
  split
  · exact .ok _
  · exact .error rfl

/-- Appending raises faults of the interpreter's own wording. -/
theorem ListOp.raises_appendAll (args : List Value) : Raises Fault.Plain (appendAll args) := by
  unfold appendAll
  split
  · exact .pure _
  · exact (Raises.check (.mapM refuses_list _)).bind fun _ => .consReversed _ _

/-- List procedures raise faults of the interpreter's own wording. -/
theorem ListOp.raises_run (args : List Value) (op : ListOp) :
    Raises Fault.Plain (op.run args) := by
  cases op with
  | car => exact .check ((refuses_one args).bind refuses_first)
  | cdr => exact .check ((refuses_one args).bind refuses_second)
  | cons => exact (Raises.check (refuses_two args)).bind fun p => .cons p.1 p.2
  | list => exact .consReversed _ _
  | append => exact raises_appendAll args
  | length =>
    exact (Raises.check ((refuses_one args).bind refuses_list)).bind fun _ => .pure _

/-- Output procedures raise faults of the interpreter's own wording. -/
theorem OutputOp.raises_run (args : List Value) (op : OutputOp) :
    Raises Fault.Plain (op.run args) := by
  cases op with
  | display | print =>
    refine (Raises.check (refuses_one args)).bind fun v => ?_
    exact .of_ok fun _ => ⟨_, _, rfl⟩
  | newline =>
    refine (Raises.check (refuses_none args)).bind fun v => ?_
    exact .of_ok fun _ => ⟨_, _, rfl⟩

/-- Procedures that do not evaluate raise faults of the interpreter's own wording. -/
theorem Builtin.raises_run {b : Builtin} (hb : b ∈ standard) (hc : ∀ op, b ≠ .control op)
    (ev : Evaluator) (args : List Value) : Raises Fault.Plain (b.run ev args) := by
  cases b with
  | numeric op => exact .check (op.refuses_run args)
  | list op => exact op.raises_run args
  | test t => exact .check ((refuses_one args).bind fun _ => .ok _)
  | likeness l => exact .check ((refuses_two args).bind fun _ => .ok _)
  | output op => exact op.raises_run args
  | control op => exact absurd rfl (hc op)
  | host op => exact absurd rfl ((mem_standard_iff _).mp hb op)

/-- A fault of a call was raised by the procedure and is reported under its name. -/
theorem Builtin.fault_of_call {ev : Evaluator} {b : Builtin} {args : List Value} {f : FrameId}
    {m m' : Machine} {e : Fault} (h : b.call ev args f m = .error (.fault e) m') :
    ∃ e₀, e = .inside b.name e₀ ∧ b.run ev (b.arguments args f) m = .error (.fault e₀) m' := by
  rw [call] at h
  split at h
  · cases h
  · next hrun =>
    cases h
    exact ⟨_, rfl, hrun⟩
  · cases h

/-! ## Evaluation -/

/-- A fault of an evaluation: plain, or raised inside a built-in procedure. Inside the procedures
that evaluate it is again a fault of an evaluation. -/
inductive Fault.Regular : Fault → Prop
  | plain {e : Fault} (h : e.Plain) : Regular e
  | inside (b : Builtin) {e : Fault} (h : b ∈ [.control .eval, .control .apply] → Regular e) :
      Regular (.inside b.name e)

namespace Form

/-- The operands of a form are refused by regular faults, whatever bounds there are on their
number. -/
theorem refuses_operands (keyword : String) (v : Value) (least : Nat) (most : Option Nat) :
    Refuses Fault.Regular (operands keyword v least most) := by
  unfold operands
  split
  · split
    · exact .error (.plain rfl)
    · split
      · exact .error (.plain rfl)
      · exact .ok _
  · exact .error (.plain rfl)

/-- Names are refused by regular faults, for being no symbols as for coming twice. -/
theorem refuses_distinctNames (formals rest : List Value) (seen : List String) :
    Refuses Fault.Regular (distinctNames formals seen rest) := by
  induction rest generalizing seen with
  | nil => exact .ok _
  | cons v rest ih =>
    cases v with
    | sym x =>
      rw [distinctNames]
      split
      · exact .error (.plain rfl)
      · exact ih (x :: seen)
    | _ => exact .error (.plain rfl)

theorem refuses_parameters (formals : Value) : Refuses Fault.Regular (parameters formals) := by
  unfold parameters
  split
  · exact refuses_distinctNames _ _ _
  · exact .error (.plain rfl)

end Form

theorem Value.refuses_items (v : Value) : Refuses Fault.Regular v.items := by
  unfold items
  split
  · exact .ok _
  · exact .error (.plain rfl)

/-- The fault at the end of an improper chain is a plain one. -/
theorem Value.regular_of_walk {v : Value} {e : Fault} (h : v.walk.2 = some e) : e.Regular := by
  unfold walk at h
  split at h
  · cases h
  · cases h
    exact .plain rfl

/-- Binding parameters to arguments is refused by regular faults. -/
theorem refuses_parameterBindings (b : Bindings) (formals args : List Value) :
    Refuses Fault.Regular (parameterBindings b formals args) := by
  fun_induction parameterBindings b formals args with
  | case1 _ _ _ _ _ ih => exact ih
  | case2 => exact .error (.plain rfl)
  | case3 => exact .ok _

/-- Making the frame of a call raises regular faults. -/
theorem raises_callFrame (parent : FrameId) (formals args : List Value) :
    Raises Fault.Regular (callFrame parent formals args) := by
  unfold callFrame
  split
  · exact .fail (.plain rfl)
  · refine (Raises.check (refuses_parameterBindings _ _ _)).bind fun _ => ?_
    exact .of_ok fun _ => ⟨_, _, rfl⟩

theorem raises_callFrameOf (parent : FrameId) (formals : Value) (args : List Value) :
    Raises Fault.Regular (callFrameOf parent formals (.ok args)) :=
  (Raises.check formals.refuses_items).bind fun _ => (Raises.check (.ok _)).bind fun _ =>
    raises_callFrame _ _ _

theorem raises_newProcedure (scope : Scope) (formals body : Value) :
    Raises Fault.Regular (newProcedure scope formals body) :=
  (Raises.check (Form.refuses_parameters formals)).bind fun _ => .of_ok fun _ => ⟨_, _, rfl⟩

/-- A procedure expression raises regular faults, for its operands as for its parameters. -/
theorem raises_procedureOf (keyword : Keyword) (scope : Scope) (operands : Value) :
    Raises Fault.Regular (procedureOf keyword scope operands) := by
  refine (Raises.check (Form.refuses_operands _ _ _ _)).bind fun _ => ?_
  split
  · exact raises_newProcedure _ _ _
  · exact .fail (.plain rfl)

/-- The lookup of a name that is not bound raises a regular fault. -/
theorem raises_lookup (f : FrameId) (x : String) : Raises Fault.Regular (EvalM.lookup f x) := by
  intro m e m' h
  rw [EvalM.lookup] at h
  split at h
  · cases h
  · cases h
    exact .plain rfl

section Evaluation

variable {ev : Evaluator} (hev : ∀ task, Raises Fault.Regular (ev task)) (f : FrameId)

include hev

namespace Form

/-- A body raises regular faults if its expressions do. -/
theorem raises_body (es : List Value) : Raises Fault.Regular (body ev f es) := by
  fun_induction body ev f es with
  | case1 => exact .fail (.plain rfl)
  | case2 => exact .pure _
  | case3 e es _ ih => exact (hev _).bind fun _ => ih

theorem raises_conjunction (es : List Value) : Raises Fault.Regular (conjunction ev f es) := by
  fun_induction conjunction ev f es with
  | case1 => exact .pure _
  | case2 => exact .pure _
  | case3 e es _ ih =>
    refine (hev _).bind fun v => ?_
    split
    · exact ih
    · exact .pure _

theorem raises_disjunction (es : List Value) : Raises Fault.Regular (disjunction ev f es) := by
  fun_induction disjunction ev f es with
  | case1 => exact .pure _
  | case2 => exact .pure _
  | case3 e es _ ih =>
    refine (hev _).bind fun v => ?_
    split
    · exact .pure _
    · exact ih

theorem raises_chosen (test clauseBody : Value) :
    Raises Fault.Regular (chosen ev f test clauseBody) := by
  unfold chosen
  split
  · exact .pure _
  · exact (Raises.check (refuses_operands _ _ _ _)).bind (raises_body hev f)

theorem raises_otherwise (isLast : Bool) (clauseBody : Value) :
    Raises Fault.Regular (otherwise ev f isLast clauseBody) := by
  unfold otherwise
  split
  · exact .fail (.plain rfl)
  · split
    · exact .fail (.plain rfl)
    · exact raises_chosen hev f _ _

/-- The clauses of a conditional raise regular faults if their tests and bodies do. -/
theorem raises_clauses (cs : List Value) : Raises Fault.Regular (clauses ev f cs) := by
  fun_induction clauses ev f cs with
  | case1 => exact .pure _
  | case2 => exact .fail (.plain rfl)
  | case3 => exact raises_otherwise hev f _ _
  | case4 _ _ _ _ _ _ ih =>
    refine (hev _).bind fun v => ?_
    split
    · exact raises_chosen hev f _ _
    · exact ih
  | case5 => exact .fail (.plain rfl)

theorem raises_binding (b : Value) : Raises Fault.Regular (binding ev f b) := by
  unfold binding
  split
  · exact (hev _).bind fun _ => .pure _
  · exact .fail (.plain rfl)

/-- Bindings raise regular faults if the expressions in them and in the body do. -/
theorem raises_bind (bindings : Value) (exprs : List Value) :
    Raises Fault.Regular (bind ev f bindings exprs) := by
  unfold bind
  split
  · exact .fail (.plain rfl)
  · refine (Raises.check bindings.refuses_items).bind fun bs => ?_
    refine (Raises.mapM (raises_binding hev f) bs).bind fun bound => ?_
    refine (Raises.check (refuses_distinctNames _ _ _)).bind fun _ => ?_
    exact (raises_callFrame _ _ _).bind fun g => raises_body hev g exprs

/-- A definition raises regular faults if its expression does. -/
theorem raises_define (v : Value) : Raises Fault.Regular (define ev f v) := by
  refine (Raises.check (refuses_operands _ _ _ _)).bind fun _ => ?_
  split
  · refine (Raises.check (refuses_operands _ _ _ _)).bind fun _ => ?_
    split
    · exact (hev _).bind fun _ => .of_ok fun _ => ⟨_, _, rfl⟩
    · exact .fail (.plain rfl)
  · exact (raises_newProcedure _ _ _).bind fun _ => .of_ok fun _ => ⟨_, _, rfl⟩
  all_goals exact .fail (.plain rfl)

end Form

/-- Every form raises regular faults if its expressions do. -/
theorem Keyword.raises_run (operands : Value) (k : Keyword) :
    Raises Fault.Regular (k.run ev operands f) := by
  have hops : ∀ least most, Raises Fault.Regular
      (EvalM.check (Form.operands k.name operands least most)) :=
    fun _ _ => .check (Form.refuses_operands _ _ _ _)
  cases k with
  | quote =>
    refine (hops 1 (some 1)).bind fun _ => ?_
    split
    · exact .pure _
    · exact .fail (.plain rfl)
  | conditional =>
    refine (hops 3 (some 3)).bind fun _ => ?_
    split
    · exact (hev _).bind fun _ => .pure _
    · exact .fail (.plain rfl)
  | conjunction => exact (hops 0 none).bind (Form.raises_conjunction hev f)
  | disjunction => exact (hops 0 none).bind (Form.raises_disjunction hev f)
  | cond => exact (hops 0 none).bind (Form.raises_clauses hev f)
  | sequence => exact (hops 1 none).bind (Form.raises_body hev f)
  | bindings =>
    refine (hops 2 none).bind fun _ => ?_
    split
    · exact Form.raises_bind hev f _ _
    · exact .fail (.plain rfl)
  | lambda => exact (raises_procedureOf _ _ _).bind fun _ => .pure _
  | mu => exact (raises_procedureOf _ _ _).bind fun _ => .pure _
  | define => exact Form.raises_define hev f operands

/-- The procedures that evaluate, but for the one that loads files. -/
theorem ControlOp.raises_run {op : ControlOp} (hop : op ∈ [eval, apply]) (args : List Value) :
    Raises Fault.Regular (op.run ev args) := by
  have hframe : Refuses Fault.Regular (withFrame args) :=
    fun e h => .plain (refuses_withFrame args h)
  refine (Raises.check hframe).bind fun (args, f) => ?_
  simp only [List.mem_cons, List.not_mem_nil, or_false] at hop
  rcases hop with rfl | rfl
  · match args with
    | [e] => exact hev _
    | [] => exact .fail (.plain rfl)
    | _ :: _ :: _ => exact .fail (.plain rfl)
  · match args with
    | [p, v] =>
      dsimp only
      split
      · exact hev _
      · exact .fail (.plain rfl)
    | [] => exact .fail (.plain rfl)
    | [_] => exact .fail (.plain rfl)
    | _ :: _ :: _ :: _ => exact .fail (.plain rfl)

/-- A call of a built-in procedure raises faults under its name, and those of the two that evaluate
are regular underneath. -/
theorem Builtin.raises_call (b : Builtin) (args : List Value) :
    Raises Fault.Regular (b.call ev args f) := by
  intro m e m' h
  obtain ⟨e₀, rfl, h₀⟩ := fault_of_call h
  refine .inside b fun hb => ?_
  simp only [List.mem_cons, List.not_mem_nil, or_false] at hb
  rcases hb with rfl | rfl
  · exact ControlOp.raises_run hev (by simp) _ h₀
  · exact ControlOp.raises_run hev (by simp) _ h₀

/-- Applying any value to arguments raises regular faults if evaluations do. -/
theorem raises_applyStep (p : Value) (args : List Value) :
    Raises Fault.Regular (applyStep ev p (.ok args) f) := by
  cases p with
  | builtin b =>
    refine (Raises.check (.ok _)).bind fun _ => ?_
    exact (b.raises_call hev f _).bind fun _ => .pure _
  | closure => exact (raises_callFrameOf _ _ _).bind fun _ => .pure _
  | _ => exact .fail (.plain rfl)

/-- Operands raise the faults of their expressions, and that of an improper list of them. -/
theorem raises_evalOperands (operands : Value) :
    Raises Fault.Regular (evalOperands ev operands f) := by
  refine (Raises.mapM (fun _ => hev _) _).bind fun _ => ?_
  split
  · exact .pure _
  · next hwalk => exact .fail (Value.regular_of_walk hwalk)

/-- A single step of the evaluation raises regular faults if the evaluations inside it do. -/
theorem raises_evalStep (e : Value) : Raises Fault.Regular (evalStep ev e f) := by
  unfold evalStep
  split
  · exact .fail (.plain rfl)
  · exact (raises_lookup _ _).bind fun _ => .pure _
  · split
    · exact .fail (.plain rfl)
    · split
      · exact Keyword.raises_run hev f _ _
      · refine (hev _).bind fun _ => (raises_evalOperands hev f _).bind fun _ => ?_
        exact raises_applyStep hev f _ _
  · exact .pure _

omit hev in
theorem raises_settle {next : Value → FrameId → EvalM Value}
    (h : ∀ e g, Raises Fault.Regular (next e g)) (s : Step) :
    Raises Fault.Regular (s.settle next) := by
  cases s with
  | done v => exact .pure v
  | next e g => exact h e g

/-- The loop over the steps raises regular faults, however many steps it takes. -/
theorem raises_loop (n : Nat) (e : Value) : Raises Fault.Regular (loop ev n e f) := by
  induction n generalizing e f with
  | zero => exact .halt _
  | succ n ih =>
    rw [loop_succ]
    exact (raises_evalStep hev f e).bind (raises_settle fun e g => ih g e)

end Evaluation

/-- Every fault of an evaluation is regular. -/
theorem raises_run (n : Nat) (task : Task) : Raises Fault.Regular (run n task) := by
  induction n generalizing task with
  | zero => exact .halt _
  | succ n ih =>
    cases task with
    | eval e f => exact .nested (.plain rfl) (raises_loop ih f (n + 1) e)
    | apply p args f =>
      rw [run_apply]
      exact (raises_applyStep ih f p args).bind (raises_settle fun _ _ => ih _)

/-! ## Loading -/

/-- A fault of the procedure that loads files. -/
def Fault.OfLoading (e : Fault) : Prop :=
  e.Plain ∨ ∃ path err, e = .unreadableSource path err

/-- Loading a single datum raises nothing, since its faults are caught and reported. -/
theorem raises_loadDatum {P : Fault → Prop} (ev : Evaluator) (f : FrameId) (failures : Nat)
    (d : Datum) : Raises P (loadDatum ev f failures d) := by
  refine (Raises.attempt _).bind fun r => ?_
  split
  · exact .pure _
  · exact .of_ok fun _ => ⟨_, _, rfl⟩

theorem raises_findSource (name : String) : Raises Fault.OfLoading (findSource name) := by
  have hcontents : ∀ name, Raises Fault.OfLoading (contents? name) := by
    intro name m e m' h
    rw [contents?] at h
    split at h <;> cases h
  refine (hcontents name).bind fun found => ?_
  split
  · exact .pure _
  · refine (hcontents _).bind fun found => ?_
    split
    · exact .pure _
    · exact .fail (.inl rfl)

/-- Loading a program raises plain faults, or the report that its text could not be read to the
end. -/
theorem raises_loadProgram (ev : Evaluator) (origin : String) (f : FrameId) (p : Program) :
    Raises Fault.OfLoading (loadProgram ev origin f p) := by
  refine (Raises.foldlM (raises_loadDatum ev f) _ _).bind fun _ => ?_
  split
  · exact .pure _
  · exact .fail (.inr ⟨_, _, rfl⟩)

theorem raises_loadFile (ev : Evaluator) (name : String) (f : FrameId) :
    Raises Fault.OfLoading (loadFile ev name f) := by
  refine (raises_findSource name).bind fun (path, bytes) => ?_
  dsimp only
  split
  · exact .bind (.of_ok fun _ => ⟨_, _, rfl⟩) fun _ => raises_loadProgram ev _ _ _
  · exact .fail (.inl rfl)

/-- The procedure that loads files raises plain faults, or the report that the file could not be
read to its end. -/
theorem ControlOp.raises_load (ev : Evaluator) (args : List Value) :
    Raises Fault.OfLoading (load.run ev args) := by
  have hframe : Refuses Fault.OfLoading (withFrame args) :=
    fun e h => .inl (refuses_withFrame args h)
  refine (Raises.check hframe).bind fun (args, f) => ?_
  match args with
  | [] => exact .fail (.inl rfl)
  | v :: _ :: _ => cases v <;> exact .fail (.inl rfl)
  | [v] =>
    cases v with
    | sym | str => exact (raises_loadFile ev _ f).bind fun _ => .pure _
    | _ => exact .fail (.inl rfl)

end Scheme
