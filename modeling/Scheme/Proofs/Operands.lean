import Scheme.Proofs.Walks

/-!
# Operands in their places

The rule of a form checks its operands before anything else: they are a list, and their number is
within the bounds of the form (`Form.operands_eq_ok_iff_items`). It then reads operands by their
places. `Keyword.runAt` writes the rules with these reads spelled out, and does `beyond` where there
is no operand in a place. What that is makes no difference (`Keyword.runAt_eq`,
`Form.bindingAt_eq`): behind the check there is an operand in every place that is read.

`list_walks_agree` puts this together with the walks along chains that the checks rest on.
-/

namespace Scheme

open EvalM

namespace Form

/-! ## The check -/

section

variable {keyword : String} {v : Value} {least : Nat} {most : Option Nat} {xs : List Value}

/-- Operands pass the check if and only if they are a list of a number within the bounds. -/
theorem operands_eq_ok_iff_items : operands keyword v least most = .ok xs ↔
    v.isProper = true ∧ v.items = .ok xs ∧ least ≤ xs.length ∧ ∀ n ∈ most, xs.length ≤ n := by
  rw [operands_eq_ok_iff, Value.items_eq_ok_iff]
  exact ⟨fun ⟨h, hbounds⟩ => ⟨Value.Lists.isProper h, h, hbounds⟩, And.right⟩

/-- It comes to the same to count the operands before they are taken apart. -/
theorem exists_operands_iff : (∃ xs, operands keyword v least most = .ok xs) ↔
    ∃ n, v.length = .ok n ∧ least ≤ n ∧ ∀ b ∈ most, n ≤ b := by
  constructor
  · rintro ⟨xs, h⟩
    obtain ⟨hxs, hbounds⟩ := operands_eq_ok_iff.mp h
    exact ⟨_, Value.length_eq_ok_iff.mpr ⟨xs, hxs, rfl⟩, hbounds⟩
  · rintro ⟨n, hn, hbounds⟩
    obtain ⟨xs, hxs, rfl⟩ := Value.length_eq_ok_iff.mp hn
    exact ⟨xs, operands_eq_ok_iff.mpr ⟨hxs, hbounds⟩⟩

/-- Operands of which there are at least two. -/
theorem exists_two_of_operands (h : operands keyword v 2 most = .ok xs) :
    ∃ i a j b d ys, v = .pair i a (.pair j b d) ∧ xs = a :: b :: ys := by
  obtain ⟨hxs, hleast, -⟩ := operands_eq_ok_iff.mp h
  match xs, hleast with
  | a :: b :: ys, _ =>
    obtain ⟨i, d, rfl, hd⟩ := Value.lists_cons_iff.mp hxs
    obtain ⟨j, e, rfl, -⟩ := Value.lists_cons_iff.mp hd
    exact ⟨i, a, j, b, e, ys, rfl, rfl⟩

/-- Operands of which there is a fixed number. -/
theorem length_eq_of_operands {n : Nat} (h : operands keyword v n (some n) = .ok xs) :
    xs.length = n := by
  obtain ⟨-, hleast, hmost⟩ := operands_eq_ok_iff.mp h
  exact Nat.le_antisymm (hmost n rfl) hleast

end

/-! ## Reading by place -/

variable (beyond : (α : Type) → EvalM α)

/-- The operand in a place; `beyond` is done where there is none. -/
def operandAt (xs : List Value) (i : Nat) : EvalM Value :=
  match xs[i]? with
  | some x => pure x
  | none => beyond Value

/-- The operands from a place on; there must be one in that place. -/
def operandsFrom (xs : List Value) (i : Nat) : EvalM (List Value) :=
  if i < xs.length then pure (xs.drop i) else beyond (List Value)

/-- The chain of the operands from a place on; there must be one in that place. -/
def chainFrom : Value → Nat → EvalM Value
  | .pair j a d, 0 => pure (.pair j a d)
  | .pair _ _ d, i + 1 => chainFrom d i
  | _, _ => beyond Value

/-- The procedure that the operands describe: the parameters stand in the first place, and the
body starts in the second. -/
def procedureAt (keyword : Keyword) (scope : Scope) (v : Value) : EvalM Value := do
  let xs ← check (operands keyword.name v 2 none)
  newProcedure scope (← operandAt beyond xs 0) (← chainFrom beyond v 1)

variable (ev : Evaluator) (f : FrameId)

/-- The name in the first place of a binding, and the value of the expression in the second. -/
def bindingAt (b : Value) : EvalM (Value × Value) :=
  match operands Keyword.bindings.name b 2 (some 2) with
  | .ok xs => do
    let x ← operandAt beyond xs 0
    let v ← ev (.eval (← operandAt beyond xs 1) f)
    return (x, v)
  | .error _ => fail (.badBinding b)

/-- A definition of the name in the first place, which may stand in front of parameters there. -/
def defineAt (v : Value) : EvalM Step := do
  let xs ← check (operands Keyword.define.name v 2 none)
  match ← operandAt beyond xs 0 with
  | .sym x =>
    let _ ← check (operands Keyword.define.name v 2 (some 2))
    let value ← ev (.eval (← operandAt beyond xs 1) f)
    EvalM.define f x value
    return .done (.sym x)
  | .pair _ (.sym x) formals =>
    let value ← newProcedure (.lexical f) formals (← chainFrom beyond v 1)
    EvalM.define f x value
    return .done (.sym x)
  | .pair _ target _ => fail (.badDefine target)
  | target => fail (.badDefine target)

end Form

/-- The rule of a keyword, with operands read by their places. The rules that are left go through
all their operands in order. -/
def Keyword.runAt (beyond : (α : Type) → EvalM α) (ev : Evaluator) (v : Value) (f : FrameId)
    (k : Keyword) : EvalM Step :=
  match k with
  | quote => do
    let xs ← check (Form.operands k.name v 1 (some 1))
    return .done (← Form.operandAt beyond xs 0)
  | conditional => do
    let xs ← check (Form.operands k.name v 3 (some 3))
    let test ← ev (.eval (← Form.operandAt beyond xs 0) f)
    return .next (← Form.operandAt beyond xs (if test.isTrue then 1 else 2)) f
  | bindings => do
    let xs ← check (Form.operands k.name v 2 none)
    Form.bind ev f (← Form.operandAt beyond xs 0) (← Form.operandsFrom beyond xs 1)
  | lambda => do return .done (← Form.procedureAt beyond .lambda (.lexical f) v)
  | mu => do return .done (← Form.procedureAt beyond .mu .dynamic v)
  | define => Form.defineAt beyond ev f v
  | k => k.run ev v f

/-! ## The places that are read -/

section

variable (beyond : (α : Type) → EvalM α) (ev : Evaluator) (f : FrameId)

theorem Form.procedureAt_eq (keyword : Keyword) (scope : Scope) (v : Value) :
    procedureAt beyond keyword scope v = procedureOf keyword scope v := by
  unfold procedureAt procedureOf
  cases h : operands keyword.name v 2 none with
  | error e => rfl
  | ok xs =>
    obtain ⟨i, a, j, b, d, ys, rfl, rfl⟩ := exists_two_of_operands h
    rfl

theorem Form.bindingAt_eq (b : Value) : bindingAt beyond ev f b = binding ev f b := by
  unfold bindingAt binding
  cases h : operands Keyword.bindings.name b 2 (some 2) with
  | error e => rfl
  | ok xs =>
    obtain ⟨x, e, rfl⟩ := List.length_eq_two.mp (length_eq_of_operands h)
    rfl

theorem Form.defineAt_eq (v : Value) : defineAt beyond ev f v = define ev f v := by
  unfold defineAt define
  cases h : operands Keyword.define.name v 2 none with
  | error e => rfl
  | ok xs =>
    obtain ⟨i, a, j, b, d, ys, rfl, rfl⟩ := exists_two_of_operands h
    cases a with
    | sym x =>
      -- The second check leaves the same operands, now exactly two.
      cases h' : operands Keyword.define.name (.pair i (.sym x) (.pair j b d)) 2 (some 2) with
      | error e => rfl
      | ok zs =>
        have hspine := (operands_eq_ok_iff.mp h').1.symm.trans (operands_eq_ok_iff.mp h).1
        obtain rfl : zs = .sym x :: b :: ys := congrArg Prod.fst hspine
        obtain rfl : ys = [] := by simpa using length_eq_of_operands h'
        rfl
    | pair i' t formals => cases t <;> rfl
    | _ => rfl

/-- What is done for want of an operand makes no difference to any form. -/
theorem Keyword.runAt_eq (v : Value) (k : Keyword) : k.runAt beyond ev v f = k.run ev v f := by
  cases k with
  | quote =>
    unfold runAt run
    cases h : Form.operands quote.name v 1 (some 1) with
    | error e => rfl
    | ok xs =>
      obtain ⟨x, rfl⟩ := List.length_eq_one_iff.mp (Form.length_eq_of_operands h)
      rfl
  | conditional =>
    unfold runAt run
    cases h : Form.operands conditional.name v 3 (some 3) with
    | error e => rfl
    | ok xs =>
      obtain ⟨t, a, b, rfl⟩ := List.length_eq_three.mp (Form.length_eq_of_operands h)
      refine congrArg (ev (.eval t f) >>= ·) (funext fun test => ?_)
      cases test.isTrue <;> rfl
  | bindings =>
    unfold runAt run
    cases h : Form.operands bindings.name v 2 none with
    | error e => rfl
    | ok xs =>
      obtain ⟨i, a, j, b, d, ys, rfl, rfl⟩ := Form.exists_two_of_operands h
      rfl
  | lambda => simp only [runAt, run, Form.procedureAt_eq]
  | mu => simp only [runAt, run, Form.procedureAt_eq]
  | define => exact Form.defineAt_eq beyond ev f v
  | _ => rfl

end

/-! ## The whole -/

/-- The walks along a chain of pairs agree on whether it is a list and on its elements, and a cursor
meets them in order, with one fault behind them if the chain is no list. A new list has the elements
that it is made of. A map makes one call after the other, up to the first that fails. The check of a
form gives the elements of a list whose length is within the bounds and refuses everything else, so
the operand that a rule reads in a place is always there. -/
theorem list_walks_agree :
    (∀ v : Value, v.WalksAgree) ∧
    (∀ xs k, ∃ w k', newList xs k = .ok w k' ∧ w.items = .ok xs) ∧
    (∀ g v, MapsAlong g v) ∧
    (∀ keyword v least most,
      ((∃ xs, Form.operands keyword v least most = .ok xs) ↔
        ∃ n, v.length = .ok n ∧ least ≤ n ∧ ∀ b ∈ most, n ≤ b) ∧
      ∀ xs, Form.operands keyword v least most = .ok xs ↔
        v.isProper = true ∧ v.items = .ok xs ∧ least ≤ xs.length ∧ ∀ b ∈ most, xs.length ≤ b) ∧
    ∀ beyond ev f, (∀ v k, Keyword.runAt beyond ev v f k = Keyword.run ev v f k) ∧
      ∀ b, Form.bindingAt beyond ev f b = Form.binding ev f b := by
  refine ⟨Value.walksAgree, exists_newList, mapsAlong, ?_, ?_⟩
  · intro keyword v least most
    exact ⟨Form.exists_operands_iff, fun xs => Form.operands_eq_ok_iff_items⟩
  · intro beyond ev f
    exact ⟨Keyword.runAt_eq beyond ev f, Form.bindingAt_eq beyond ev f⟩

/-- The chain `(1 2 . x)`, and an action that leaves a mark at every call. -/
theorem list_walks_agree_dotted :
    let k := Session.new fun _ => .absent
    let v : Value := .pair 1 (.int 1) (.pair 2 (.int 2) (.sym "x"))
    let g : Value → EvalM Value := fun x => do
      emit "."
      return x
    v.isProper = false ∧
    (Cursor.start v).answer 1 = some (.ok (.int 2)) ∧
    (Cursor.start v).answer 2 = some (.error (.malformedList v)) ∧
    (∀ n, 2 < n → (Cursor.start v).answer n = none) ∧
    (mapItems g v >>= newList) k = .error (.fault (.malformedList v))
      { k with out := k.out ++ "." ++ "." } ∧
    (∀ x k, ∃ y k', g x k = .ok y k') ∧
    (¬∃ w k', (mapItems g v >>= newList) k = .ok w k') ∧
    ¬∃ xs, Form.operands "if" v 2 none = .ok xs := by
  intro k v g
  obtain ⟨hwalks, -, hmaps, hoperands, -⟩ := list_walks_agree
  have htotal : ∀ x k, ∃ y k', g x k = .ok y k' := fun x k => ⟨x, _, rfl⟩
  obtain ⟨xs, us, tail, -, -, -, -, hlength, hwalk, helements, hfault, hover⟩ :=
    (hwalks v).improper rfl
  obtain rfl : [.int 1, .int 2] = xs := congrArg Prod.fst hwalk
  refine ⟨rfl, helements 1 (by decide), hfault, hover, ?_, htotal, ?_, ?_⟩
  · exact ((hmaps g v).error_iff k _ _).mpr
      (.inr ⟨rfl, rfl, [.int 1, .int 2], .cons rfl (.cons rfl (.nil _))⟩)
  · rw [(hmaps g v).total htotal k]
    exact Bool.false_ne_true
  · rw [(hoperands "if" v 2 none).1]
    rintro ⟨n, hn, -⟩
    cases hlength.symm.trans hn

end Scheme
