import Scheme.Proofs.Simulation.Indifference
import Scheme.Proofs.Simulation.Watch

/-!
# The depth of evaluations

A nested evaluation counts itself while it runs. Whatever happens inside, a fault of any kind
included, the count at its end is the one it started with, and no evaluation is under way past the
limit.

The count shows only in the fault that the limit gives. An evaluation that succeeds has not met
that fault, unless it was caught on the way, and only loading catches faults. So where there is no
file to load, a success at one depth is the same success at every lower depth.

Two comparisons of runs say this. In `Depth.level` a machine is compared with itself while the
count stays at a given level; between an evaluation and the one around it the level changes, and
`Depth.nested` goes from one level to the next. In `Depth.lower` the second machine has the lower
count, and a run that ends at the limit is compared with nothing. `depth_discipline` is the
result.
-/

namespace Scheme

open EvalM

/-- The limit on depth was met, perhaps inside built-in procedures. -/
def Fault.isTooDeep : Fault → Bool
  | tooDeep => true
  | inside _ e => e.isTooDeep
  | _ => false

/-- Stopped because the limit on depth was met. -/
def Stop.isTooDeep : Stop → Bool
  | fault e => e.isTooDeep
  | halt _ => false

namespace Depth

/-! ## One level -/

/-- Machines are compared with themselves while `k` evaluations are under way. -/
def level (k : Nat) : Indifference where
  machine m m' := m = m' ∧ m.depth = k
  lax _ := False
  store h := h.1 ▸ rfl
  nextLabel h := h.1 ▸ rfl
  files h := h.1 ▸ rfl
  setStore _ h := ⟨h.1 ▸ rfl, h.2⟩
  setLabel _ h := ⟨h.1 ▸ rfl, h.2⟩
  emit _ h := ⟨h.1 ▸ rfl, h.2⟩
  emitError _ h := ⟨h.1 ▸ rfl, h.2⟩
  lax_inside _ := False.elim
  lax_file _ _ h := h.elim

/-- What keeps to the next level inside a nested evaluation keeps to this one around it. -/
theorem nested {α : Type} {k : Nat} {x y : EvalM α}
    (h : k < maxDepth → (level (k + 1)).simulation.Agree .here (fun _ => Eq) x y) :
    (level k).simulation.Agree .here (fun _ => Eq) (EvalM.nested x) (EvalM.nested y) := by
  rintro m _ ⟨rfl, hk⟩
  unfold EvalM.nested
  by_cases hd : maxDepth ≤ m.depth
  · rw [if_pos hd, if_pos hd]
    exact .error le_rfl ⟨rfl, hk⟩ (.fault (Simulation.fault_plain rfl))
  · rw [if_neg hd, if_neg hd]
    have hin := h (by omega) { m with depth := m.depth + 1 } _ ⟨rfl, congrArg (· + 1) hk⟩
    revert hin
    generalize x _ = r, y _ = r'
    intro hin
    cases hin with
    | @ok _ _ _ m₁ _ _ hm hq =>
      obtain ⟨rfl, hd₁⟩ := hm
      exact .ok le_rfl ⟨rfl, by simp [hd₁]⟩ hq
    | @error _ _ _ m₁ _ _ hm hs =>
      obtain ⟨rfl, hd₁⟩ := hm
      exact .error le_rfl ⟨rfl, by simp [hd₁]⟩ (Indifference.stop_change hs _)
    | lax hl => exact hl.elim

/-- A run keeps to its level, and no evaluation in it is past the limit. -/
theorem watchedRun (alarm : Halt) : ∀ n k, k ≤ maxDepth → (level k).simulation.Evaluators (run n)
    (watchedRun (fun _ m => m.depth ≤ maxDepth) alarm n)
  | 0, _, _, _, _, _, _ => .halt _
  | n + 1, k, hk, _, _, _, .eval he hf => by
    obtain rfl := Indifference.expr_iff.1 he
    obtain rfl := hf
    refine nested fun hlt => ?_
    have hsafe : ∀ {w m m' f f'}, (level (k + 1)).simulation.machine w m m' →
        (level (k + 1)).simulation.frame w f f' → m'.depth ≤ maxDepth := by
      rintro w m _ f _ ⟨rfl, hd⟩ -
      exact hd.trans_le hlt
    exact Simulation.watchedLoop (watchedRun alarm n (k + 1) hlt) hsafe alarm (n + 1)
      (Indifference.expr_iff.2 rfl) rfl
  | n + 1, k, hk, _, _, _, .apply hp ha hf =>
    Simulation.watchedApply (watchedRun alarm n k hk) hp ha hf

theorem run_watched (fuel : Nat) (t : Task) {m : Machine} (hd : m.depth ≤ maxDepth)
    (alarm : Halt) :
    (finalMachine (run fuel t m)).depth = m.depth ∧
      Scheme.watchedRun (fun _ m => m.depth ≤ maxDepth) alarm fuel t m = run fuel t m := by
  have h := watchedRun alarm fuel m.depth hd .here t t (Indifference.task_refl t) m m ⟨rfl, rfl⟩
  rcases Indifference.related_cases h with
    ⟨v, m₁, _, hx, hy, rfl, hd₁⟩ | ⟨s, m₁, _, hx, hy, rfl, hd₁⟩ | ⟨s, m₁, -, hl⟩
  · rw [hx, hy]
    exact ⟨hd₁, rfl⟩
  · rw [hx, hy]
    exact ⟨hd₁, rfl⟩
  · exact hl.elim

/-! ## Lower depths -/

/-- The second machine is the first at a lower depth, and there is nothing to load. -/
def lower : Indifference where
  machine m m' := (∃ d ≤ m.depth, m' = { m with depth := d }) ∧
    ∀ name bytes, m.files name ≠ .file bytes
  lax s := s.isTooDeep = true
  store := by rintro m m' ⟨⟨d, -, rfl⟩, -⟩; rfl
  nextLabel := by rintro m m' ⟨⟨d, -, rfl⟩, -⟩; rfl
  files := by rintro m m' ⟨⟨d, -, rfl⟩, -⟩; rfl
  setStore s := by rintro ⟨⟨d, hd, rfl⟩, hf⟩; exact ⟨⟨d, hd, rfl⟩, hf⟩
  setLabel i := by rintro ⟨⟨d, hd, rfl⟩, hf⟩; exact ⟨⟨d, hd, rfl⟩, hf⟩
  emit text := by rintro ⟨⟨d, hd, rfl⟩, hf⟩; exact ⟨⟨d, hd, rfl⟩, hf⟩
  emitError text := by rintro ⟨⟨d, hd, rfl⟩, hf⟩; exact ⟨⟨d, hd, rfl⟩, hf⟩
  lax_inside _ h := h
  lax_file name bytes _ h := h.2 name bytes

instance : lower.simulation.Nests where
  limit := by
    rintro w m m' ⟨⟨d, hd, rfl⟩, -⟩ h
    exact Nat.le_trans h hd
  limit_lax _ _ := .inr rfl
  enter := by
    rintro w m m' ⟨⟨d, hd, rfl⟩, hf⟩
    exact ⟨⟨d + 1, Nat.succ_le_succ hd, rfl⟩, hf⟩
  leave := by
    rintro w m m' ⟨⟨d, hd, rfl⟩, hf⟩
    exact ⟨⟨d - 1, Nat.sub_le_sub_right hd 1, rfl⟩, hf⟩

end Depth

/-- For every expression, frame and machine whose depth is not past the limit: the depth is the
same again when the evaluation is over, whatever the outcome, and not past the limit at any time.
Where there is no file to load, an evaluation that succeeds has the same value, and leaves the same
machine, from any lower depth. -/
theorem depth_discipline (e : Value) (f : FrameId) (m : Machine) (hd : m.depth ≤ maxDepth)
    (fuel : Nat) :
    (finalMachine (run fuel (.eval e f) m)).depth = m.depth ∧
    SafeThroughout (fun _ m => m.depth ≤ maxDepth) fuel (.eval e f) m ∧
    ((∀ name bytes, m.files name ≠ .file bytes) → ∀ v m₁, run fuel (.eval e f) m = .ok v m₁ →
      ∀ d ≤ m.depth,
        run fuel (.eval e f) { m with depth := d } = .ok v { m₁ with depth := d }) := by
  refine ⟨(Depth.run_watched fuel _ hd .outOfFuel).1,
    fun alarm => (Depth.run_watched fuel _ hd alarm).2, fun hfiles v m₁ hv d hle => ?_⟩
  have hrun := Depth.lower.simulation.run fuel .here _ _ (Indifference.task_refl (.eval e f)) m
    { m with depth := d } ⟨⟨d, hle, rfl⟩, hfiles⟩
  rcases Indifference.related_cases hrun with
    ⟨u, m₂, _, hu, hu', ⟨d', -, rfl⟩, -⟩ | ⟨s, m₂, m₂', hs, -⟩ | ⟨s, m₂, hs, -⟩
  · obtain ⟨rfl, rfl⟩ := EStateM.Result.ok.inj (hv.symm.trans hu)
    have hdepth := (Depth.run_watched fuel (.eval e f) (m := { m with depth := d })
      (Nat.le_trans hle hd) .outOfFuel).1
    rw [hu'] at hdepth ⊢
    simp only [finalMachine] at hdepth
    rw [hdepth]
  · exact absurd (hv.symm.trans hs) (by simp)
  · exact absurd (hv.symm.trans hs) (by simp)

/-- A conditional needs two levels: its own and that of its test. From the last depth that leaves
room for both it succeeds, and so it does from a lower one; a level further up it fails, with the
depth as before. -/
theorem depth_discipline_conditional :
    let e : Value := .pair 1 (.sym "if")
      (.pair 2 (.bool true) (.pair 3 (.int 1) (.pair 4 (.int 2) .nil)))
    let m : Machine := { Machine.new [] (fun _ => .absent) with depth := 998 }
    (m.depth ≤ maxDepth ∧ (∀ name bytes, m.files name ≠ .file bytes) ∧
      run 3 (.eval e 0) m = .ok (.int 1) m) ∧
    SafeThroughout (fun _ m => m.depth ≤ maxDepth) 3 (.eval e 0) m ∧
    run 3 (.eval e 0) { m with depth := 7 } = .ok (.int 1) { m with depth := 7 } ∧
    run 3 (.eval e 0) { m with depth := 999 } = .error (.fault .tooDeep) { m with depth := 999 } ∧
    (finalMachine (run 3 (.eval e 0) { m with depth := 999 })).depth = 999 := by
  intro e m
  have hd : m.depth ≤ maxDepth := by decide
  have hfiles : ∀ name bytes, m.files name ≠ .file bytes := fun _ _ h => FileEntry.noConfusion h
  obtain ⟨-, hsafe, hlower⟩ := depth_discipline e 0 m hd 3
  obtain ⟨hkept, -, -⟩ := depth_discipline e 0 { m with depth := 999 } (by decide) 3
  exact ⟨⟨hd, hfiles, rfl⟩, hsafe, hlower hfiles _ _ rfl 7 (by decide), rfl, hkept⟩

end Scheme
