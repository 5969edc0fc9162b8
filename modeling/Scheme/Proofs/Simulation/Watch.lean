import Scheme.Proofs.Simulation.Eval

/-!
# Watching a run

The outcome of a run does not show the machines that it went through. A watched run does what the
run does and looks at each of them: every round of every evaluation, nested ones included, starts
with a check of the frame it is to work in and of the machine, and an alarm halts the run where the
check fails. Programs cannot catch a halt, so a run is safe throughout if it is the same as the
watched run, whatever the alarm (`SafeThroughout`).

A check that holds of all machines of a simulation gives no alarm: `Simulation.watchedLoop` for
the rounds of one evaluation, `Simulation.watchedRun` for a whole run.
-/

namespace Scheme

open EvalM

section Watch

variable (safe : FrameId → Machine → Prop) [∀ f m, Decidable (safe f m)] (alarm : Halt)

/-- Takes steps until one is done, each from a machine and a frame that pass the check. -/
def watchedLoop (ev : Evaluator) : (fuel : Nat) → Value → FrameId → EvalM Value
  | 0, _, _ => halt .outOfFuel
  | n + 1, e, f => fun m =>
    if safe f m then (evalStep ev e f >>= Step.settle (watchedLoop ev n)) m
    else halt alarm m

/-- Carries out a task with a check before every step. -/
def watchedRun : (fuel : Nat) → Evaluator
  | 0, _ => halt .outOfFuel
  | n + 1, .eval e f => nested (watchedLoop safe alarm (watchedRun n) (n + 1) e f)
  | n + 1, .apply p args f =>
    applyStep (watchedRun n) p (.ok args) f >>= Step.settle fun e g => watchedRun n (.eval e g)

/-- Every step of the run passes the check. -/
def SafeThroughout (fuel : Nat) (t : Task) (m : Machine) : Prop :=
  ∀ alarm, watchedRun safe alarm fuel t m = run fuel t m

variable {safe alarm}

theorem watchedLoop_of_safe {ev : Evaluator} {n : Nat} {e : Value} {f : FrameId} {m : Machine}
    (h : safe f m) : watchedLoop safe alarm ev (n + 1) e f m =
      (evalStep ev e f >>= Step.settle (watchedLoop safe alarm ev n)) m :=
  if_pos h

end Watch

namespace Simulation

variable {W : Type} [Preorder W] {S : Simulation W} {safe : FrameId → Machine → Prop}
  [∀ f m, Decidable (safe f m)]

section Loop

variable {ev ev' : Evaluator} (hev : S.Evaluators ev ev')
  (hsafe : ∀ {w m m' f f'}, S.machine w m m' → S.frame w f f' → safe f' m') (alarm : Halt)

include hev hsafe

/-- The rounds of one evaluation agree with the watched rounds if the check holds of all machines
and frames that correspond. -/
theorem watchedLoop : ∀ (n : Nat) {w : W} {e e' : Value} {f f' : FrameId}, S.expr w e e' →
    S.frame w f f' →
      S.Agree w S.value (Scheme.loop ev n e f) (Scheme.watchedLoop safe alarm ev' n e' f')
  | 0, _, _, _, _, _, _, _ => .halt _
  | n + 1, _, _, _, _, _, he, hf => by
    intro m m' hm
    rw [loop_succ, watchedLoop_of_safe (hsafe hm hf)]
    exact (evalStep hev he hf).bind (fun _ _ _ _ hs => settle hs fun he hf => watchedLoop n he hf)
      m m' hm

end Loop

/-- An application agrees with the watched one if the evaluations inside it do. -/
theorem watchedApply {alarm : Halt} {n : Nat}
    (hev : S.Evaluators (Scheme.run n) (Scheme.watchedRun safe alarm n)) {w : W} {p p' : Value}
    {args args' : List Value} {f f' : FrameId} (hp : S.value w p p')
    (ha : List.Forall₂ (S.value w) args args') (hf : S.frame w f f') :
    S.Agree w S.value (Scheme.run (n + 1) (.apply p args f))
      (Scheme.watchedRun safe alarm (n + 1) (.apply p' args' f')) := by
  rw [run_apply, Scheme.watchedRun]
  exact (applyStep hev hp (.ok ha) hf).bind fun _ _ _ _ hs =>
    settle hs fun he hf => hev _ _ _ (.eval he hf)

/-- The alarm is never given where the check holds of all machines that correspond. -/
theorem watchedRun [S.Nests]
    (hsafe : ∀ {w m m' f f'}, S.machine w m m' → S.frame w f f' → safe f' m') (alarm : Halt) :
    ∀ n : Nat, S.Evaluators (Scheme.run n) (Scheme.watchedRun safe alarm n)
  | 0, _, _, _, _ => .halt _
  | n + 1, _, _, _, .eval he hf =>
    .nested (watchedLoop (watchedRun hsafe alarm n) hsafe alarm (n + 1) he hf)
  | n + 1, _, _, _, .apply hp ha hf => watchedApply (watchedRun hsafe alarm n) hp ha hf

end Simulation

end Scheme
