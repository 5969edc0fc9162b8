import Scheme.Proofs.Simulation.Eval

/-!
# Observing the calls and answers of a run

The values that a run handles on its way do not show in its outcome. An observed run does what the
run does and shows two kinds of event: a procedure is about to be applied to its arguments, and an
evaluation or an application gives its value. Each event is checked, together with the machine at
that time, and an alarm halts the run where the check fails. Programs cannot catch a halt, so all
events of a run pass the check if the run is the same as the observed run, whatever the alarm.

A check that holds of all events of a simulation gives no alarm: `Simulation.observedStep` for one
step and `Simulation.observedRun` for a whole run.
-/

namespace Scheme

open EvalM

/-- What an observer sees of a run. -/
inductive Event where
  /-- A procedure is about to be applied to arguments, in a call from the frame. -/
  | call (p : Value) (args : List Value) (f : FrameId)
  /-- An evaluation or an application gives its value. -/
  | answer (v : Value)

/-- The values that an event shows. -/
def Event.values : Event → List Value
  | call p args _ => p :: args
  | answer v => [v]

section Observe

variable (fair : Event → Machine → Prop) [∀ e m, Decidable (fair e m)] (alarm : Halt)

/-- Lets an event pass if it passes the check. -/
def observe (e : Event) : EvalM Unit := fun m =>
  if fair e m then .ok () m else .error (.halt alarm) m

/-- One step of a call, with its event. -/
def observedApply (ev : Evaluator) (p : Value) (args : List Value) (f : FrameId) : EvalM Step := do
  observe fair alarm (.call p args f)
  applyStep ev p (.ok args) f

/-- One step of an evaluation; only calls have an event. -/
def observedStep (ev : Evaluator) (e : Value) (f : FrameId) : EvalM Step :=
  match e with
  | .pair i head operands =>
    if operands.isProper && (Keyword.ofValue? head).isNone then do
      let p ← ev (.eval head f)
      let args ← evalOperands ev operands f
      observedApply fair alarm ev p args f
    else evalStep ev (.pair i head operands) f
  | e => evalStep ev e f

/-- Takes observed steps until one is done. -/
def observedLoop (ev : Evaluator) : (fuel : Nat) → Value → FrameId → EvalM Value
  | 0, _, _ => halt .outOfFuel
  | n + 1, e, f => observedStep fair alarm ev e f >>= Step.settle (observedLoop ev n)

/-- An action that gives a value, with the event of its answer. -/
def answered (x : EvalM Value) : EvalM Value := do
  let v ← x
  observe fair alarm (.answer v)
  return v

/-- Carries out a task and shows its events. -/
def observedRun : (fuel : Nat) → Evaluator
  | 0, _ => halt .outOfFuel
  | n + 1, .eval e f =>
    answered fair alarm (nested (observedLoop fair alarm (observedRun n) (n + 1) e f))
  | n + 1, .apply p args f =>
    answered fair alarm (observedApply fair alarm (observedRun n) p args f >>=
      Step.settle fun e g => observedRun n (.eval e g))

variable {fair alarm}

theorem observe_of_fair {e : Event} {m : Machine} (h : fair e m) :
    observe fair alarm e m = .ok () m :=
  if_pos h

/-- A step of a call evaluates the operator, then the operands, and then applies the one to the
others. -/
theorem evalStep_of_call {ev : Evaluator} {head operands : Value}
    (h : (operands.isProper && (Keyword.ofValue? head).isNone) = true) (i : Label) (f : FrameId) :
    evalStep ev (.pair i head operands) f = (do
      let p ← ev (.eval head f)
      let args ← evalOperands ev operands f
      applyStep ev p (.ok args) f) := by
  obtain ⟨hp, hk⟩ := Bool.and_eq_true_iff.mp h
  simp only [evalStep, hp, Bool.not_true, Bool.false_eq_true, if_false,
    Option.isNone_iff_eq_none.mp hk]

end Observe

namespace Simulation

variable {W : Type} [Preorder W] {S : Simulation W} {w : W}

/-- Corresponding events. -/
inductive event (S : Simulation W) (w : W) : Event → Event → Prop
  | call {p p' : Value} {args args' : List Value} {f f' : FrameId} (hp : S.value w p p')
      (ha : List.Forall₂ (S.value w) args args') (hf : S.frame w f f') :
      event S w (.call p args f) (.call p' args' f')
  | answer {v v' : Value} (hv : S.value w v v') : event S w (.answer v) (.answer v')

variable {fair : Event → Machine → Prop} [∀ e m, Decidable (fair e m)]
  (hfair : ∀ {w m m' e e'}, S.machine w m m' → S.event w e e' → fair e' m') (alarm : Halt)

include hfair

/-- The event of an answer passes the check, so the action agrees with the observed one. -/
theorem answered {x y : EvalM Value} (h : S.Agree w S.value x y) :
    S.Agree w S.value x (Scheme.answered fair alarm y) := by
  have hpass : ∀ w' v v', w ≤ w' → S.value w' v v' → S.Agree w' S.value (Pure.pure v)
      (do observe fair alarm (.answer v'); return v') := by
    intro w' v v' _ hv m m' hm
    rw [bind_ok (observe_of_fair (hfair hm (.answer hv)))]
    exact .ok le_rfl hm hv
  rw [← bind_pure x]
  exact h.bind hpass

section Steps

variable {ev ev' : Evaluator} (hev : S.Evaluators ev ev')

include hev

/-- A call agrees with the observed call. -/
theorem observedApply {p p' : Value} {args args' : List Value} {f f' : FrameId}
    (hp : S.value w p p') (ha : List.Forall₂ (S.value w) args args') (hf : S.frame w f f') :
    S.Agree w S.step (Scheme.applyStep ev p (.ok args) f)
      (Scheme.observedApply fair alarm ev' p' args' f') := by
  intro m m' hm
  rw [Scheme.observedApply, bind_ok (observe_of_fair (hfair hm (.call hp ha hf)))]
  exact applyStep hev hp (.ok ha) hf m m' hm

/-- A step agrees with the observed step, whatever expression it is for. -/
theorem observedStep {e e' : Value} {f f' : FrameId} (he : S.expr w e e') (hf : S.frame w f f') :
    S.Agree w S.step (Scheme.evalStep ev e f) (Scheme.observedStep fair alarm ev' e' f') := by
  have hstep := evalStep hev he hf
  rcases he with he | ⟨b, b', rfl, rfl, hb⟩
  · cases S.layer he with
    | pair i j hhead hops =>
      simp only [Scheme.observedStep]
      split
      · next hcall =>
        rw [evalStep_of_call (by rwa [isProper_eq hops, ofValue?_eq hhead])]
        refine (eval hev hhead hf).bind fun w₁ _ _ hw₁ hp => ?_
        have hf₁ := S.frame_mono hw₁ hf
        refine (evalOperands hev (S.value_mono hw₁ hops) hf₁).bind fun w₂ _ _ hw₂ hargs => ?_
        exact observedApply hfair alarm hev (S.value_mono hw₂ hp) hargs (S.frame_mono hw₂ hf₁)
      · exact hstep
    | _ => exact hstep
  · -- The sequence that a body stands for starts with a keyword, so it is no call.
    have hkey : (Keyword.ofValue? (.sym "begin")).isNone = false := rfl
    simpa only [Scheme.observedStep, hkey, Bool.and_false, Bool.false_eq_true, if_false] using hstep

/-- The steps of one evaluation agree with the observed ones. -/
theorem observedLoop : ∀ (n : Nat) {w : W} {e e' : Value} {f f' : FrameId}, S.expr w e e' →
    S.frame w f f' →
      S.Agree w S.value (Scheme.loop ev n e f) (Scheme.observedLoop fair alarm ev' n e' f')
  | 0, _, _, _, _, _, _, _ => .halt _
  | n + 1, _, _, _, _, _, he, hf => by
    rw [loop_succ, Scheme.observedLoop]
    exact (observedStep hfair alarm hev he hf).bind fun _ _ _ _ hs =>
      settle hs fun he hf => observedLoop n he hf

end Steps

/-- The alarm is never given where the check holds of all events that correspond. -/
theorem observedRun [S.Nests] :
    ∀ n : Nat, S.Evaluators (Scheme.run n) (Scheme.observedRun fair alarm n)
  | 0, _, _, _, _ => .halt _
  | n + 1, _, _, _, .eval he hf =>
    answered hfair alarm (.nested (observedLoop hfair alarm (observedRun n) (n + 1) he hf))
  | n + 1, _, _, _, .apply hp ha hf => by
    rw [run_apply]
    refine answered hfair alarm ((observedApply hfair alarm (observedRun n) hp ha hf).bind ?_)
    exact fun _ _ _ _ hs => settle hs fun he hf => observedRun n _ _ _ (.eval he hf)

end Simulation

end Scheme
