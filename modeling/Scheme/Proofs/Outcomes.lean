import Scheme.Proofs.Trampoline

/-!
# Outcomes without fuel

An evaluation that finishes has the same outcome with any more fuel (`Fuel.run_mono`,
`Fuel.loop_mono`). A family of actions that is indexed by fuel and has this property is `Steady`,
and then `Finishes` says all there is to say about it: a few units of fuel more or less make no
difference, and two steady families that agree from some fuel on finish alike (`finishes_congr`).

`rounds` is an evaluation without a level of its own, the rounds of the loop. A nested evaluation
takes a level, goes through the rounds and gives the level back (`finishes_eval_iff`). Expressions
are compared by comparing their steps: the rounds finish alike if the first step is the same, or if
one of the expressions takes a step more to the same place (`finishes_rounds_of_step`).
-/

namespace Scheme

open EvalM

/-! ## More fuel -/

namespace Fuel

theorem loop_mono {ev ev' : Evaluator} (hev : Below ev ev') :
    ∀ {l l' : Nat}, l ≤ l' → ∀ e f, Approximates (loop ev l e f) (loop ev' l' e f)
  | 0, _, _, _, _ => outOfFuel _
  | l + 1, 0, hl, _, _ => absurd hl (Nat.not_succ_le_zero l)
  | l + 1, l' + 1, hl, e, f => by
    rw [loop_succ, loop_succ]
    exact settle (evalStep hev e f) (loop_mono hev (Nat.le_of_succ_le_succ hl))

/-- A run approximates every run with more fuel. -/
theorem run_mono : ∀ {n k : Nat}, n ≤ k → Below (run n) (run k)
  | 0, _, _ => below_of_approximates fun _ => outOfFuel _
  | n + 1, 0, hn => absurd hn (Nat.not_succ_le_zero n)
  | n + 1, k + 1, hn => by
    have ih : Below (run n) (run k) := run_mono (Nat.le_of_succ_le_succ hn)
    refine below_of_approximates fun t => ?_
    cases t with
    | eval e f => exact .nested (loop_mono ih hn e f)
    | apply p args f =>
      rw [run_apply, run_apply]
      exact settle (applyStep ih p args f) fun e g => ih.approximates (.eval e g)

/-- More fuel keeps every outcome but that the fuel is used up. -/
def Steady {α : Type} (x : Nat → EvalM α) : Prop := ∀ ⦃n k : Nat⦄, n ≤ k → Approximates (x n) (x k)

theorem steady_run (t : Task) : Steady fun n => run n t :=
  fun _ _ hn => (run_mono hn).approximates t

end Fuel

open Fuel

section Finishes

variable {α β : Type} {x y : Nat → EvalM α} {m m' : Machine} {r : EStateM.Result Stop Machine α}

/-- A steady action that finishes gives its outcome with all fuel from some point on. -/
theorem Fuel.Steady.eventually (hx : Steady x) (h : Finishes x m r) :
    ∃ b, ∀ n, b ≤ n → x n m = r := by
  obtain ⟨hr, b, rfl⟩ := h
  exact ⟨b, fun n hn => (hx hn).eq_of_finished hr⟩

/-- What is made of an outcome is an outcome: one family finishes as the other does, if from some
fuel on it is the other with `g` applied to the outcome. -/
theorem finishes_map_iff {y : Nat → EvalM β} (hx : Steady x) (hy : Steady y)
    {g : EStateM.Result Stop Machine β → EStateM.Result Stop Machine α}
    (hg : ∀ r, Finished (g r) ↔ Finished r) (b : Nat) (h : ∀ n, b ≤ n → x n m = g (y n m')) :
    Finishes x m r ↔ ∃ r', Finishes y m' r' ∧ r = g r' := by
  constructor
  · intro hr
    obtain ⟨c, hc⟩ := hx.eventually hr
    have hmax := hc _ (Nat.le_max_right b c)
    rw [h _ (Nat.le_max_left b c)] at hmax
    exact ⟨_, ⟨(hg _).mp (hmax ▸ hr.1), max b c, rfl⟩, hmax.symm⟩
  · rintro ⟨r', hr', rfl⟩
    obtain ⟨c, hc⟩ := hy.eventually hr'
    refine ⟨(hg r').mpr hr'.1, max b c, ?_⟩
    rw [h _ (Nat.le_max_left b c), hc _ (Nat.le_max_right b c)]

/-- Families that agree from some fuel on finish alike. -/
theorem finishes_congr (hx : Steady x) (hy : Steady y) (b : Nat)
    (h : ∀ n, b ≤ n → x n m = y n m') : Finishes x m r ↔ Finishes y m' r := by
  rw [finishes_map_iff hx hy (g := id) (fun _ => Iff.rfl) b h]
  exact ⟨fun ⟨_, hr, h⟩ => h ▸ hr, fun hr => ⟨r, hr, rfl⟩⟩

theorem finishes_succ_iff (hx : Steady x) : Finishes (fun n => x (n + 1)) m r ↔ Finishes x m r := by
  constructor
  · rintro ⟨hr, n, hn⟩
    exact ⟨hr, n + 1, hn⟩
  · intro hr
    obtain ⟨b, hb⟩ := hx.eventually hr
    exact ⟨hr.1, b, hb (b + 1) (Nat.le_succ b)⟩

/-- Families each of which approximates the other finish alike. -/
theorem finishes_congr_of_approximates (hxy : ∀ n, ∃ k, Approximates (x n) (y k))
    (hyx : ∀ n, ∃ k, Approximates (y n) (x k)) : Finishes x m r ↔ Finishes y m r := by
  constructor
  · rintro ⟨hr, n, rfl⟩
    obtain ⟨k, hk⟩ := hxy n
    exact ⟨hr, k, hk.eq_of_finished hr⟩
  · rintro ⟨hr, n, rfl⟩
    obtain ⟨k, hk⟩ := hyx n
    exact ⟨hr, k, hk.eq_of_finished hr⟩

end Finishes

/-! ## Levels and rounds -/

/-- An evaluation in the place of another: it takes no level of its own. -/
def rounds (e : Value) (f : FrameId) (n : Nat) : EvalM Value := loop (run n) n e f

theorem steady_loop (j : Nat) (e : Value) (f : FrameId) :
    Steady fun n => loop (run n) (n + j) e f :=
  fun _ _ hn => loop_mono (run_mono hn) (Nat.add_le_add_right hn j) e f

theorem steady_rounds (e : Value) (f : FrameId) : Steady (rounds e f) := steady_loop 0 e f

/-- More rounds than there is fuel for each of them make no difference. -/
theorem finishes_rounds_iff (j : Nat) {e : Value} {f : FrameId} {m : Machine}
    {r : EStateM.Result Stop Machine Value} :
    Finishes (rounds e f) m r ↔ Finishes (fun n => loop (run n) (n + j) e f) m r :=
  finishes_congr_of_approximates
    (fun n => ⟨n, loop_mono (run_mono (Nat.le_refl n)) (Nat.le_add_right n j) e f⟩)
    fun n => ⟨n + j, loop_mono (run_mono (Nat.le_add_right n j)) (Nat.le_refl _) e f⟩

/-- The outcome of an evaluation as it is outside of its level. -/
def leave {α : Type} : EStateM.Result Stop Machine α → EStateM.Result Stop Machine α
  | .ok a m => .ok a { m with depth := m.depth - 1 }
  | .error s m => .error s { m with depth := m.depth - 1 }

/-- Leaving a level keeps an outcome finished or unfinished. -/
theorem finished_leave {α : Type} (r : EStateM.Result Stop Machine α) :
    Finished (leave r) ↔ Finished r := by
  cases r with
  | ok => rfl
  | error s m => rcases s with e | (_ | _) <;> rfl

/-- Within the limit a nested action is done one level down and left again. -/
theorem nested_eq_leave {α : Type} (x : EvalM α) {m : Machine} (hd : m.depth < maxDepth) :
    nested x m = leave (x { m with depth := m.depth + 1 }) := by
  rw [nested, if_neg (Nat.not_le_of_lt hd)]
  cases x { m with depth := m.depth + 1 } <;> rfl

theorem finishes_eval_iff_nested {e : Value} {f : FrameId} {m : Machine}
    {r : EStateM.Result Stop Machine Value} :
    Finishes (fun n => run n (.eval e f)) m r ↔ Finishes (fun n => nested (rounds e f n)) m r := by
  refine finishes_congr_of_approximates (fun n => ?_) fun n => ⟨n + 1, ?_⟩
  · cases n with
    | zero => exact ⟨0, outOfFuel _⟩
    | succ n =>
      exact ⟨n + 1, .nested (loop_mono (run_mono (Nat.le_succ n)) (Nat.le_refl _) e f)⟩
  · exact .nested (loop_mono (run_mono (Nat.le_refl n)) (Nat.le_succ n) e f)

/-- An evaluation below the limit takes a level and gives it back. -/
theorem finishes_eval_iff {e : Value} {f : FrameId} {m : Machine} (hd : m.depth < maxDepth)
    {r : EStateM.Result Stop Machine Value} :
    Finishes (fun n => run n (.eval e f)) m r ↔
      ∃ r', Finishes (rounds e f) { m with depth := m.depth + 1 } r' ∧ r = leave r' :=
  finishes_eval_iff_nested.trans (finishes_map_iff (fun _ _ hn => .nested (steady_rounds e f hn))
    (steady_rounds e f) finished_leave 0 fun n _ => nested_eq_leave (rounds e f n) hd)

/-- A task has no other outcome than the one that it has with some fuel. -/
theorem finishes_iff_eq {n : Nat} {t : Task} {m : Machine}
    {r₀ r : EStateM.Result Stop Machine Value} (h : run n t m = r₀) (hr₀ : Finished r₀) :
    Finishes (fun n => run n t) m r ↔ r = r₀ := by
  have hfin : Finishes (fun n => run n t) m r₀ := ⟨hr₀, n, h⟩
  exact ⟨fun hr => hr.unique hfin, fun hr => hr ▸ hfin⟩

/-- Expressions whose rounds finish alike are evaluated alike. -/
theorem finishes_eval_congr {e e' : Value} {f f' : FrameId}
    (h : ∀ k r, Finishes (rounds e f) k r ↔ Finishes (rounds e' f') k r) (m : Machine)
    (r : EStateM.Result Stop Machine Value) :
    Finishes (fun n => run n (.eval e f)) m r ↔ Finishes (fun n => run n (.eval e' f')) m r := by
  by_cases hd : m.depth < maxDepth
  · simp only [finishes_eval_iff hd, h]
  · have hdeep : ∀ (x : EvalM Value), nested x m = .error (.fault .tooDeep) m := fun x => by
      rw [nested, if_pos (Nat.le_of_not_lt hd)]
    rw [finishes_eval_iff_nested, finishes_eval_iff_nested]
    simp only [Finishes, hdeep]

/-! ## One step more -/

theorem EvalM.bind_congr_at {α β : Type} {x y : EvalM α} {m m' : Machine} (h : x m = y m')
    (k : α → EvalM β) : (x >>= k) m = (y >>= k) m' := by
  simp only [bind, EStateM.bind, h]

/-- An evaluation that is over in one step, which does what `x` does. -/
theorem run_of_step {n : Nat} {e : Value} {f : FrameId} {m : Machine} {x : EvalM Value}
    (hd : m.depth < maxDepth)
    (h : evalStep (run n) e f { m with depth := m.depth + 1 } =
      (do return Step.done (← x)) { m with depth := m.depth + 1 }) :
    run (n + 1) (.eval e f) m = leave (x { m with depth := m.depth + 1 }) := by
  rw [run, nested_eq_leave _ hd, loop_succ, bind_congr_at h, bind_assoc]
  simp only [pure_bind, Step.settle, bind_pure]

/-- Takes the step after this one, if the evaluation is not done. -/
def Step.advance (ev : Evaluator) : Step → EvalM Step
  | .done v => pure (.done v)
  | .next e f => evalStep ev e f

/-- An expression that takes one step more to where another one is. -/
theorem loop_eq_of_advance {ev : Evaluator} {e e' : Value} {f f' : FrameId} {m m' : Machine}
    (h : evalStep ev e f m = (evalStep ev e' f' >>= Step.advance ev) m') (l : Nat) :
    loop ev (l + 1) e f m = loop ev (l + 2) e' f' m' := by
  have hsettle : ∀ s : Step, s.settle (loop ev (l + 1)) =
      s.advance ev >>= Step.settle (loop ev l) := by
    intro s
    cases s with
    | done v => simp [Step.settle, Step.advance]
    | next e f => exact loop_succ ev l e f
  rw [loop_succ, loop_succ]
  simp only [funext hsettle, ← bind_assoc]
  exact bind_congr_at h _

theorem loop_eq_of_step {ev : Evaluator} {e e' : Value} {f f' : FrameId} {m m' : Machine}
    (h : evalStep ev e f m = evalStep ev e' f' m') (l : Nat) :
    loop ev (l + 1) e f m = loop ev (l + 1) e' f' m' := by
  rw [loop_succ, loop_succ]
  exact bind_congr_at h _

/-- The rounds of two expressions finish alike if both take the same step, or if the second takes
one step more. -/
theorem finishes_rounds_of_step {e e' : Value} {f f' : FrameId} {m m' : Machine} (b : Nat)
    (h : (∀ n, b ≤ n → evalStep (run n) e f m = evalStep (run n) e' f' m') ∨
      ∀ n, b ≤ n →
        evalStep (run n) e f m = (evalStep (run n) e' f' >>= Step.advance (run n)) m')
    {r : EStateM.Result Stop Machine Value} :
    Finishes (rounds e f) m r ↔ Finishes (rounds e' f') m' r := by
  rcases h with hstep | hstep
  · rw [finishes_rounds_iff 1, finishes_rounds_iff 1]
    exact finishes_congr (steady_loop 1 e f) (steady_loop 1 e' f') b fun n hn =>
      loop_eq_of_step (hstep n hn) n
  · rw [finishes_rounds_iff 1, finishes_rounds_iff 2]
    exact finishes_congr (steady_loop 1 e f) (steady_loop 2 e' f') b fun n hn =>
      loop_eq_of_advance (hstep n hn) n

end Scheme
