import Scheme.Proofs.Direct
import Scheme.Proofs.Simulation.Indifference

/-!
# Steps and recursion come to the same

Evaluation as the interpreter runs it takes step after step, and a step hands the expression in
tail position back to the loop. Evaluation by plain recursion (`Scheme.Proofs.Direct`) evaluates
that expression itself. The two finish with the same results on the same machines.

The argument has two parts. One rule at a time, recursion is a step followed by the recursive
evaluation of what the step leaves (`Direct.expression_eq`, `Direct.application_eq`); this is an
equation between actions. Then fuel: an evaluation with little fuel agrees with one that has more
as long as it finishes (`Fuel.Approximates`), and every step keeps that, so by induction on fuel
the loop approximates the recursion and the recursion the loop.
-/

namespace Scheme

open EvalM

/-! ## Recursion rule by rule -/

theorem EvalM.fail_bind {α β : Type} (e : Fault) (k : α → EvalM β) :
    (fail e >>= k : EvalM β) = fail e := rfl

/-- A proper list ends in the empty list. -/
theorem Value.spine_of_isProper {v : Value} (h : v.isProper = true) :
    v.spine = (v.spine.1, .nil) := by
  induction v with
  | pair i a d _ ih =>
    rw [Value.spine_pair, ih h]
  | nil => rfl
  | _ => simp [Value.isProper] at h

theorem Value.eq_nil_of_spine {v : Value} (h : v.spine = ([], .nil)) : v = .nil := by
  cases v with
  | pair i a d => simp [Value.spine_pair] at h
  | _ => exact congrArg Prod.snd h

theorem Value.eq_single_of_spine {v e : Value} (h : v.spine = ([e], .nil)) :
    ∃ i, v = .pair i e .nil := by
  cases v with
  | pair i a d =>
    rw [Value.spine_pair, Prod.mk.injEq, List.cons.injEq] at h
    obtain ⟨⟨rfl, hd⟩, hn⟩ := h
    obtain rfl := Value.eq_nil_of_spine (Prod.ext hd hn)
    exact ⟨i, rfl⟩
  | _ => simp [Value.spine, Value.spineOnto] at h

/-- Only the boolean is false. -/
theorem Value.eq_false_of_isTrue {v : Value} (h : v.isTrue = false) : v = .bool false := by
  cases v with
  | bool b => cases b <;> first | rfl | simp [Value.isTrue] at h
  | _ => simp [Value.isTrue] at h

/-- A form passes its check with these operands: it is a list of them, and they are neither too
few nor too many. -/
theorem Form.operands_eq_ok_iff {k : String} {v : Value} {least : Nat} {most : Option Nat}
    {xs : List Value} : Form.operands k v least most = .ok xs ↔
      v.spine = (xs, .nil) ∧ least ≤ xs.length ∧ ∀ n ∈ most, xs.length ≤ n := by
  unfold Form.operands
  split
  · next ys hs =>
    rw [hs]
    by_cases hl : ys.length < least
    · rw [if_pos hl]
      simp only [reduceCtorEq, Prod.mk.injEq, and_true, false_iff]
      rintro ⟨rfl, hle, -⟩
      omega
    · rw [if_neg hl]
      by_cases hm : most.any (· < ys.length) = true
      · rw [if_pos hm]
        obtain ⟨n, rfl, hn⟩ := Option.any_eq_true _ _ |>.1 hm
        simp only [reduceCtorEq, Prod.mk.injEq, and_true, false_iff]
        rintro ⟨rfl, -, hle⟩
        have := hle n rfl
        simp at hn
        omega
      · rw [if_neg hm]
        simp only [Except.ok.injEq, Prod.mk.injEq, and_true]
        refine ⟨?_, And.left⟩
        rintro rfl
        refine ⟨rfl, Nat.le_of_not_lt hl, fun n hn => ?_⟩
        rw [hn] at hm
        simpa using hm
  · next hn =>
    simp only [reduceCtorEq, false_iff]
    exact fun h => hn xs h.1

namespace Direct

variable (self : Recursion)

/-- What a step comes to when the expression that it leaves is evaluated at this position. -/
abbrev settle (position : Position) : Step → EvalM Value :=
  Step.settle fun e f => self position (.eval e f)

/-- Evaluating a sequence is taking the step of a body and settling it in tail position. -/
theorem sequence_eq (f : FrameId) (es : List Value) :
    sequence self f es = Form.body (self .inner) f es >>= settle self .tail := by
  induction es with
  | nil => rfl
  | cons e es ih =>
    cases es with
    | nil => rfl
    | cons e₁ es => simp only [sequence, Form.body, bind_assoc, ih]

theorem conjunction_eq (f : FrameId) (es : List Value) :
    conjunction self f es = Form.conjunction (self .inner) f es >>= settle self .tail := by
  induction es with
  | nil => rfl
  | cons e es ih =>
    cases es with
    | nil => rfl
    | cons e₁ es =>
      simp only [conjunction, Form.conjunction, bind_assoc, ih]
      congr 1
      funext v
      cases hv : v.isTrue with
      | true => rfl
      | false => rw [Value.eq_false_of_isTrue hv]; rfl

/-- An answer that is false is the boolean false. -/
theorem pure_or_false (v : Value) :
    (if v.isTrue then pure v else pure (.bool false)) = (pure v : EvalM Value) := by
  cases hv : v.isTrue with
  | true => rfl
  | false => rw [Value.eq_false_of_isTrue hv]; rfl

theorem disjunction_eq (f : FrameId) (es : List Value) :
    disjunction self f es = Form.disjunction (self .inner) f es >>= settle self .tail := by
  induction es with
  | nil => rfl
  | cons e es ih =>
    cases es with
    | nil =>
      simp only [disjunction, Form.disjunction, pure_or_false, List.isEmpty_nil, if_true,
        bind_pure, pure_bind]
      rfl
    | cons e₁ es =>
      rw [disjunction, Form.disjunction, ih, bind_assoc]
      · congr 1
        funext v
        cases v.isTrue <;> rfl
      · simp

/-- The expressions of a clause: they are a list and not empty, so their check never fails. -/
theorem chosen_eq (f : FrameId) {test exprs : Value} (hp : exprs.isProper = true)
    (hn : exprs.isNil = false) :
    Form.chosen (self .inner) f test exprs >>= settle self .tail =
      sequence self f exprs.spine.1 := by
  have hs := Value.spine_of_isProper hp
  have hl : ¬exprs.spine.1.length < 1 := by
    cases exprs with
    | pair i a d => simp [Value.spine_pair]
    | nil => simp [Value.isNil] at hn
    | _ => simp [Value.isProper] at hp
  have ho : Form.operands Keyword.sequence.name exprs 1 none = .ok exprs.spine.1 := by
    unfold Form.operands
    rw [hs]
    simp [hl]
  rw [Form.chosen, hn, ho, sequence_eq]
  rfl

theorem equal_sym {v : Value} {x : String} : v.equal (.sym x) = true ↔ v = .sym x := by
  cases v <;> simp [Value.equal, Value.same]

theorem clauses_eq (f : FrameId) (cs : List Value) :
    clauses self f cs = Form.clauses (self .inner) f cs >>= settle self .tail := by
  induction cs with
  | nil => rfl
  | cons c cs ih =>
    cases c with
    | pair i test exprs =>
      by_cases hx : test = .sym "else"
      · subst hx
        rw [clauses, if_pos (equal_sym.2 rfl), Form.clauses_else]
        cases hp : exprs.isProper with
        | false => rfl
        | true =>
          unfold Form.otherwise
          cases cs.isEmpty with
          | false => rfl
          | true =>
            cases hn : exprs.isNil with
            | true => rfl
            | false => exact (chosen_eq self f hp hn).symm
      · rw [clauses, if_neg fun h => hx (equal_sym.1 h), Form.clauses_test _ _ _ _ _ hx]
        cases hp : exprs.isProper with
        | false => rfl
        | true =>
          simp only [Bool.not_true, Bool.false_eq_true, if_false, bind_assoc]
          congr 1
          funext v
          cases hv : v.isTrue with
          | false => exact ih
          | true =>
            cases hn : exprs.isNil with
            | true => simp [Form.chosen, hn, Step.settle]
            | false => exact (chosen_eq self f hp hn).symm
    | _ => rfl

/-- The initial values are evaluated in order, off the tail position. -/
theorem initialValues_eq (f : FrameId) (bs : List Value) :
    initialValues self f bs = bs.mapM (Form.binding (self .inner) f) := by
  induction bs with
  | nil => rfl
  | cons b bs ih =>
    rw [List.mapM_cons, ← ih, initialValues]
    unfold Form.binding
    split
    · next x e hs =>
      rw [Form.operands_eq_ok_iff.2 ⟨hs, by simp, by simp⟩]
      simp
    · next hn =>
      split
      · next x e ho => exact absurd (Form.operands_eq_ok_iff.1 ho).1 (hn x e)
      · rfl

theorem binding_eq (f : FrameId) (bindings : Value) (exprs : List Value) :
    binding self f bindings exprs =
      Form.bind (self .inner) f bindings exprs >>= settle self .tail := by
  unfold binding Form.bind
  cases hp : bindings.isProper with
  | false => rfl
  | true =>
    have hi : bindings.items = .ok bindings.spine.1 := by
      unfold Value.items
      rw [Value.spine_of_isProper hp]
    simp only [hi, initialValues_eq, sequence_eq, check, bind_assoc, pure_bind, Bool.not_true,
      Bool.false_eq_true, if_false]

/-- A definition that has passed its first check, evaluated directly, is its step settled in tail
position. -/
theorem definition_eq (f : FrameId) (v : Value) :
    (do let _ ← check (Form.operands Keyword.define.name v 2 none); definition self f v) =
      Form.define (self .inner) f v >>= settle self .tail := by
  unfold Form.define
  rw [bind_assoc]
  cases ho : Form.operands Keyword.define.name v 2 none with
  | error e => rfl
  | ok xs =>
    obtain ⟨hs, hl, -⟩ := Form.operands_eq_ok_iff.1 ho
    congr 1
    funext _
    cases v with
    | pair i target rest =>
      cases target with
      | sym x =>
        by_cases hr : ∃ j e, rest = .pair j e .nil
        · obtain ⟨j, e, rfl⟩ := hr
          have ho₂ : Form.operands Keyword.define.name (.pair i (.sym x) (.pair j e .nil)) 2
              (some 2) = .ok [.sym x, e] :=
            Form.operands_eq_ok_iff.2 ⟨rfl, by simp, by simp⟩
          simp [definition, ho₂, check, Step.settle]
        · have ho₂ : Form.operands Keyword.define.name (.pair i (.sym x) rest) 2 (some 2) =
              .error (.tooManyOperands Keyword.define.name (.pair i (.sym x) rest)) := by
            have hl₂ : xs.length ≠ 2 := by
              intro h₂
              rw [Value.spine_pair, Prod.mk.injEq] at hs
              obtain ⟨e, he⟩ := List.length_eq_one_iff.1
                (show rest.spine.1.length = 1 by simp [← hs.1] at h₂; exact h₂)
              obtain ⟨j, rfl⟩ := Value.eq_single_of_spine (Prod.ext he hs.2)
              exact hr ⟨j, e, rfl⟩
            unfold Form.operands
            rw [hs]
            have hm : 2 < xs.length := by omega
            simp [hm, Nat.not_lt.2 hl]
          rw [definition, ho₂]
          · rfl
          · exact fun j e he => hr ⟨j, e, he⟩
      | pair j x formals => cases x <;> simp [definition, Step.settle, fail_bind]
      | _ => rfl
    | _ => rfl

/-- Every form evaluated directly is its step, settled in tail position. -/
theorem form_eq (operands : Value) (f : FrameId) (k : Keyword) :
    form self operands f k = k.run (self .inner) operands f >>= settle self .tail := by
  cases k with
  | quote =>
    simp only [form, Keyword.run, bind_assoc]
    cases ho : Form.operands Keyword.quote.name operands 1 (some 1) with
    | error e => rfl
    | ok xs =>
      obtain ⟨-, hl, hm⟩ := Form.operands_eq_ok_iff.1 ho
      obtain ⟨v, rfl⟩ := List.length_eq_one_iff.1 (Nat.le_antisymm (hm 1 rfl) hl)
      rfl
  | conditional =>
    simp only [form, Keyword.run, bind_assoc]
    congr 1
    funext xs
    rcases xs with _ | ⟨test, _ | ⟨a, _ | ⟨b, _ | ⟨_, _⟩⟩⟩⟩
    · rfl
    · rfl
    · rfl
    · simp only [bind_assoc, pure_bind]
      congr 1
      funext v
      cases v.isTrue <;> rfl
    · rfl
  | conjunction => simp only [form, Keyword.run, bind_assoc, conjunction_eq]
  | disjunction => simp only [form, Keyword.run, bind_assoc, disjunction_eq]
  | cond => simp only [form, Keyword.run, bind_assoc, clauses_eq]
  | sequence => simp only [form, Keyword.run, bind_assoc, sequence_eq]
  | bindings =>
    simp only [form, Keyword.run, bind_assoc]
    congr 1
    funext xs
    cases xs with
    | nil => rfl
    | cons b exprs => exact binding_eq self f b exprs
  | lambda => simp [form, Keyword.run, Step.settle]
  | mu => simp [form, Keyword.run, Step.settle]
  | define => exact definition_eq self f operands

/-- An application evaluated directly is its step, settled where the call stands. -/
theorem application_eq (position : Position) (p : Value) (args : List Value) (f : FrameId) :
    application self position p args f =
      applyStep (self .inner) p (.ok args) f >>= settle self position := by
  cases p with
  | builtin b => simp [application, applyStep, check, Step.settle]
  | closure i scope formals body => simp [application, applyStep, Step.settle]
  | _ => rfl

/-- Every expression evaluated directly is its step, settled in tail position. -/
theorem expression_eq (e : Value) (f : FrameId) :
    expression self e f = evalStep (self .inner) e f >>= settle self .tail := by
  cases e with
  | sym x => simp [expression, evalStep, Step.settle]
  | pair i head operands =>
    simp only [expression, evalStep]
    cases hp : operands.isProper with
    | false => rfl
    | true =>
      simp only [Bool.not_true, Bool.false_eq_true, if_false]
      cases Keyword.ofValue? head with
      | some k => exact form_eq self operands f k
      | none =>
        have hw : operands.walk = (operands.spine.1, none) := by
          unfold Value.walk
          rw [Value.spine_of_isProper hp]
        simp only [evalOperands, mapItems, hw, bind_assoc, bind_pure, application_eq]
  | _ => rfl

end Direct

/-! ## Fuel -/

/-- An outcome other than that the fuel is used up. -/
def Finished {α : Type} : EStateM.Result Stop Machine α → Prop
  | .error (.halt .outOfFuel) _ => False
  | _ => True

/-- With some fuel the action finishes, with this outcome. -/
def Finishes {α : Type} (x : Nat → EvalM α) (m : Machine) (r : EStateM.Result Stop Machine α) :
    Prop :=
  Finished r ∧ ∃ n, x n m = r

namespace Fuel

/-- Machines are compared with themselves, and runs as long as the first has fuel. -/
def indifference : Indifference where
  machine := Eq
  lax s := s = .halt .outOfFuel
  store h := h ▸ rfl
  nextLabel h := h ▸ rfl
  files h := h ▸ rfl
  setStore _ h := h ▸ rfl
  setLabel _ h := h ▸ rfl
  emit _ h := h ▸ rfl
  emitError _ h := h ▸ rfl
  lax_inside _ h := by cases h
  lax_file _ _ h := by cases h

instance : indifference.simulation.Nests where
  limit h := h ▸ id
  limit_lax h hd := Or.inl (h ▸ hd)
  enter h := h ▸ rfl
  leave h := h ▸ rfl

/-- The second action does what the first does, unless the first uses up its fuel. -/
def Approximates {α : Type} (x y : EvalM α) : Prop :=
  indifference.simulation.Agree .here (fun _ => Eq) x y

/-- The same of all tasks. -/
def Below (ev ev' : Evaluator) : Prop := indifference.simulation.Evaluators ev ev'

/-- Where the first action finishes, the second does the same. -/
theorem Approximates.eq_of_finished {α : Type} {x y : EvalM α} (h : Approximates x y)
    {m : Machine} (hf : Finished (x m)) : y m = x m := by
  rcases Indifference.related_cases (h m m rfl) with
    ⟨a, m₁, m₂, hx, hy, rfl⟩ | ⟨s, m₁, m₂, hx, hy, rfl⟩ | ⟨s, m₁, hx, rfl⟩
  · rw [hx, hy]
  · rw [hx, hy]
  · rw [hx] at hf
    exact hf.elim

theorem Below.approximates {ev ev' : Evaluator} (h : Below ev ev') (t : Task) :
    Approximates (ev t) (ev' t) :=
  h .here t t (Indifference.task_refl t)

theorem below_of_approximates {ev ev' : Evaluator} (h : ∀ t, Approximates (ev t) (ev' t)) :
    Below ev ev' := by
  intro w t t' ht
  cases ht with
  | eval he hf =>
    obtain rfl := Indifference.expr_iff.1 he
    obtain rfl := hf
    exact h _
  | apply hp ha hf =>
    obtain rfl := hp
    obtain rfl := List.forall₂_eq_eq_eq.le _ _ ha
    obtain rfl := hf
    exact h _

/-- An action without fuel approximates every other. -/
theorem outOfFuel {α : Type} (y : EvalM α) : Approximates (halt .outOfFuel) y :=
  fun _ _ _ => .lax rfl

/-- Steps that agree can be settled by actions of which one approximates the other. -/
theorem settle {x y : EvalM Step} {next next' : Value → FrameId → EvalM Value}
    (hx : indifference.simulation.Agree .here indifference.simulation.step x y)
    (hn : ∀ e f, Approximates (next e f) (next' e f)) :
    Approximates (x >>= Step.settle next) (y >>= Step.settle next') := by
  refine hx.bind fun _ s s' _ hs => Simulation.settle hs fun {e e' f f'} he hf => ?_
  obtain rfl := Indifference.expr_iff.1 he
  obtain rfl := hf
  exact hn e f

theorem evalStep {ev ev' : Evaluator} (h : Below ev ev') (e : Value) (f : FrameId) :
    indifference.simulation.Agree .here indifference.simulation.step (Scheme.evalStep ev e f)
      (Scheme.evalStep ev' e f) :=
  Simulation.evalStep h (Indifference.expr_iff.2 rfl) rfl

theorem applyStep {ev ev' : Evaluator} (h : Below ev ev') (p : Value) (args : List Value)
    (f : FrameId) :
    indifference.simulation.Agree .here indifference.simulation.step
      (Scheme.applyStep ev p (.ok args) f) (Scheme.applyStep ev' p (.ok args) f) :=
  Simulation.applyStep h rfl (.ok (List.forall₂_same.2 fun _ _ => rfl)) rfl

/-! ## The loop and the recursion -/

/-- One rule of the recursion against one round of the loop. -/
theorem expression_loop {ev : Evaluator} {self : Direct.Recursion} {k : Nat}
    (hev : Below (self .inner) ev)
    (htail : ∀ e f, Approximates (self .tail (.eval e f)) (loop ev k e f)) (e : Value)
    (f : FrameId) : Approximates (Direct.expression self e f) (loop ev (k + 1) e f) := by
  rw [Direct.expression_eq, loop_succ]
  exact settle (evalStep hev e f) htail

/-- A round of the loop approximates the direct evaluation, if what follows it does. -/
theorem loop_expression {ev : Evaluator} {self : Direct.Recursion} {k : Nat}
    (hev : Below ev (self .inner))
    (htail : ∀ e f, Approximates (loop ev k e f) (self .tail (.eval e f))) (e : Value)
    (f : FrameId) : Approximates (loop ev (k + 1) e f) (Direct.expression self e f) := by
  rw [Direct.expression_eq, loop_succ]
  exact settle (evalStep hev e f) htail

/-- The recursion never needs more fuel than the loop. -/
theorem direct_below_run (n : Nat) :
    (∀ k l e f, n ≤ k → n ≤ l →
        Approximates (Direct.run n .tail (.eval e f)) (loop (run k) l e f)) ∧
      ∀ k, n ≤ k → Below (Direct.run n .inner) (run k) := by
  induction n with
  | zero =>
    exact ⟨fun _ _ _ _ _ _ => outOfFuel _, fun _ _ => below_of_approximates fun _ => outOfFuel _⟩
  | succ n ih =>
    obtain ⟨ihtail, ihinner⟩ := ih
    have key : ∀ k l e f, n ≤ k → n ≤ l →
        Approximates (Direct.expression (Direct.run n) e f) (loop (run k) (l + 1) e f) :=
      fun k l e f hk hl => expression_loop (ihinner k hk) (fun e f => ihtail k l e f hk hl) e f
    refine ⟨fun k l e f hk hl => ?_, fun k hk => below_of_approximates fun t => ?_⟩
    · obtain ⟨l, rfl⟩ : ∃ l', l = l' + 1 := ⟨l - 1, by omega⟩
      exact key k l e f (by omega) (by omega)
    · obtain ⟨k, rfl⟩ : ∃ k', k = k' + 1 := ⟨k - 1, by omega⟩
      cases t with
      | eval e f => exact .nested (key k k e f (by omega) (by omega))
      | apply p args f =>
        rw [Direct.run, Direct.application_eq, run_apply]
        exact settle (applyStep (ihinner k (by omega)) p args f)
          fun e g => (ihinner k (by omega)).approximates (.eval e g)

/-- With as much fuel again for each round, the recursion does what the loop does. -/
theorem loop_below_direct {ev : Evaluator} {b : Nat}
    (hev : ∀ n, b ≤ n → Below ev (Direct.run n .inner)) (k : Nat) :
    ∀ n e f, b + k ≤ n → Approximates (loop ev k e f) (Direct.run n .tail (.eval e f)) := by
  induction k with
  | zero => exact fun _ _ _ _ => outOfFuel _
  | succ k ih =>
    intro n e f hn
    obtain ⟨n, rfl⟩ : ∃ n', n = n' + 1 := ⟨n - 1, by omega⟩
    exact loop_expression (hev n (by omega)) (fun e f => ih n e f (by omega)) e f

/-- With enough fuel the recursion does all that the loop does with the given fuel. -/
theorem run_below_direct (n : Nat) : ∃ b, ∀ k, b ≤ k → Below (run n) (Direct.run k .inner) := by
  induction n with
  | zero => exact ⟨0, fun _ _ => below_of_approximates fun _ => outOfFuel _⟩
  | succ n ih =>
    obtain ⟨b, hb⟩ := ih
    refine ⟨b + n + 1, fun k hk => below_of_approximates fun t => ?_⟩
    obtain ⟨k, rfl⟩ : ∃ k', k = k' + 1 := ⟨k - 1, by omega⟩
    cases t with
    | eval e f => exact .nested (loop_below_direct hb (n + 1) (k + 1) e f (by omega))
    | apply p args f =>
      rw [Direct.run, Direct.application_eq, run_apply]
      exact settle (applyStep (hb k (by omega)) p args f)
        fun e g => (hb k (by omega)).approximates (.eval e g)

end Fuel

/-- A task that finishes has the same outcome with any more fuel. -/
theorem Finishes.eventually {t : Task} {m : Machine} {r : EStateM.Result Stop Machine Value}
    (h : Finishes (fun n => run n t) m r) : ∃ b, ∀ n, b ≤ n → run n t m = r := by
  obtain ⟨hr, n, rfl⟩ := h
  obtain ⟨b, hb⟩ := Fuel.run_below_direct n
  have hd := ((hb b (Nat.le_refl b)).approximates t).eq_of_finished hr
  refine ⟨b, fun k hk => ?_⟩
  rw [(((Fuel.direct_below_run b).2 k hk).approximates t).eq_of_finished (hd ▸ hr), hd]

/-- A task finishes with one outcome, however much fuel it is given. -/
theorem Finishes.unique {t : Task} {m : Machine} {r r' : EStateM.Result Stop Machine Value}
    (h : Finishes (fun n => run n t) m r) (h' : Finishes (fun n => run n t) m r') : r = r' := by
  obtain ⟨b, hb⟩ := h.eventually
  obtain ⟨b', hb'⟩ := h'.eventually
  rw [← hb (max b b') (Nat.le_max_left _ _), ← hb' (max b b') (Nat.le_max_right _ _)]

/-- The interpreter's own fuel: as long as it lasts, the outcome is the one that the task finishes
with. -/
theorem evaluate_eq_iff {t : Task} {m : Machine} {r : EStateM.Result Stop Machine Value}
    (h : Finished (evaluate t m)) : evaluate t m = r ↔ Finishes (fun n => run n t) m r := by
  have he : Finishes (fun n => run n t) m (evaluate t m) := ⟨h, ample, rfl⟩
  exact ⟨fun hr => hr ▸ he, fun hr => he.unique hr⟩

/-- The loop over steps finishes exactly as the plain recursion does. -/
theorem run_finishes_iff_direct (e : Value) (f : FrameId) (m : Machine)
    (r : EStateM.Result Stop Machine Value) :
    Finishes (fun n => run n (.eval e f)) m r ↔
      Finishes (fun n => Direct.run n .inner (.eval e f)) m r := by
  constructor
  · rintro ⟨hr, n, rfl⟩
    obtain ⟨b, hb⟩ := Fuel.run_below_direct n
    exact ⟨hr, b, ((hb b (Nat.le_refl b)).approximates _).eq_of_finished hr⟩
  · rintro ⟨hr, n, rfl⟩
    have hbelow := (Fuel.direct_below_run n).2 n (Nat.le_refl n)
    exact ⟨hr, n, (hbelow.approximates _).eq_of_finished hr⟩

end Scheme
