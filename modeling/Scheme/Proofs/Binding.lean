import Scheme.Proofs.Expressions
import Scheme.Proofs.Relabelling

/-!
# `let` and applied procedures

`(let ((x e) ..) b ..)` does what `((lambda (x ..) b ..) e ..)` does. Both evaluate all expressions
in the present frame before there is a new one, make the same frame below the present one and go on
with the body there. The call also makes a procedure, which nothing else gets hold of: it takes one
label. So the call finishes as the `let` does one label later (`finishes_applies_iff`), and from the
same machine they finish alike but for labels: `let_is_application`.

A procedure keeps its body as one expression, a sequence if there are several. To take the sequence
apart is one step more for the call, but it takes no level.
-/

namespace Scheme

open EvalM

/-- The expression applies a new procedure to the values of expressions: it is
`((lambda (x ..) b ..) e ..)`. -/
def Value.Applies (e : Value) (bound : List (String × Value)) (bs : List Value) : Prop :=
  ∃ lam formals, e.Lists (lam :: bound.map Prod.snd) ∧
    lam.Lists (.sym "lambda" :: formals :: bs) ∧ formals.Lists (bound.map fun p => .sym p.1)

section

variable {e e' : Value} {bound : List (String × Value)} {bs : List Value}
  (hn : (bound.map Prod.fst).Nodup) (hbs : bs ≠ [])

include hn hbs

/-- The call makes its procedure and then the frame that a `let` makes. -/
theorem Value.Applies.step (h : e.Applies bound bs) :
    ∃ body : Value, body.Lists bs ∧ ∀ n f m, m.depth < maxDepth →
      evalStep (run (n + 1)) e f m = (do
        let g ← boundFrame (run (n + 1)) f bound
        return Step.next body.sequence g) { m with nextLabel := m.nextLabel + 1 } := by
  obtain ⟨lam, formals, he, hlam, hformals⟩ := h
  obtain ⟨body, hbody, hstep⟩ := hlam.step_lambda hbs
  have hparams : ParameterList formals (bound.map Prod.fst) :=
    parameterList_iff.mpr ⟨by rw [List.map_map]; exact hformals, hn⟩
  have hkey : Keyword.ofValue? lam = none := by
    obtain ⟨i, d, rfl, -⟩ := Value.lists_cons_iff.mp hlam
    rfl
  refine ⟨body, hbody, fun n f m hd => ?_⟩
  have hmade : run (n + 1) (.eval lam f) m =
      .ok (.closure m.nextLabel (.lexical f) formals body)
        { m with nextLabel := m.nextLabel + 1 } := by
    have hdone : evalStep (run n) lam f { m with depth := m.depth + 1 } =
        .ok (.done (.closure m.nextLabel (.lexical f) formals body))
          { m with depth := m.depth + 1, nextLabel := m.nextLabel + 1 } := by
      rw [hstep, newProcedure, Form.parameters_eq_ok_iff.mpr hparams]
      rfl
    exact run_of_done hd hdone
  rw [he.step_call _ f hkey, bind_ok hmade, List.mapM_map, boundFrame, bind_assoc]
  refine congrFun (EvalM.mapM_bind_congr fun us hus => ?_) _
  rw [hparams.applyStep_eq, enter]
  refine congrArg (· >>= _) (funext fun k => ?_)
  rw [frameFor, if_pos (by simp [hus])]
  rfl

/-- A call that makes its own procedure finishes as a `let` does one label later. -/
theorem finishes_applies_iff (he : e.Lets bound bs) (he' : e'.Applies bound bs) (f : FrameId)
    {m : Machine} (hd : m.depth + 2 ≤ maxDepth) {r : EStateM.Result Stop Machine Value} :
    Finishes (fun n => run n (.eval e' f)) m r ↔
      Finishes (fun n => run n (.eval e f)) { m with nextLabel := m.nextLabel + 1 } r := by
  obtain ⟨body, hbody, hcall⟩ := he'.step hn hbs
  have hrounds : ∀ r, Finishes (rounds e f)
      { m with depth := m.depth + 1, nextLabel := m.nextLabel + 1 } r ↔
        Finishes (rounds e' f) { m with depth := m.depth + 1 } r := by
    refine fun r => finishes_rounds_of_step 1 ?_
    -- The frame is the same; then the body is left whole, or the sequence is taken apart.
    refine (Form.body_cases hbody hbs).imp (fun hleft n hn' => ?_) fun hleft n hn' => ?_
    all_goals
      obtain ⟨n, rfl⟩ : ∃ n', n = n' + 1 := ⟨n - 1, by omega⟩
      rw [he.step hn hbs]
    · rw [hcall n f { m with depth := m.depth + 1 } hd]
      simp only [hleft]
    · rw [bind_congr_at (hcall n f { m with depth := m.depth + 1 } hd), bind_assoc]
      simp only [hleft, pure_bind, Step.advance]
  rw [finishes_eval_iff (Nat.lt_of_succ_lt hd),
    finishes_eval_iff (m := { m with nextLabel := m.nextLabel + 1 }) (Nat.lt_of_succ_lt hd)]
  simp only [hrounds]

end

/-- `(let ((x e) ..) b ..)`, with distinct names, is `((lambda (x ..) b ..) e ..)`. All of the
expressions are evaluated in the present frame, and none of them sees a new binding. The call
finishes as the `let` does one label later, on any machine that leaves two levels. If no object has
a label that is still to come, as at every point of a session (`Session.Course.labels`), then both
finish from the same machine with the same outcome: the same value or message, the same output and
the same frames, but that the labels from that of the procedure on are one higher. -/
theorem let_is_application {e e' : Value} {bound : List (String × Value)} {bs : List Value}
    (he : e.Lets bound bs) (he' : e'.Applies bound bs) (hn : (bound.map Prod.fst).Nodup)
    (hbs : bs ≠ []) (f : FrameId) (m : Machine) (hd : m.depth ≤ 998) :
    (∀ ev : Evaluator, evalStep ev e f = (do
      let us ← bound.mapM fun p => ev (.eval p.2 f)
      let g ← newFrame (some f) ((bound.map Prod.fst).zip us)
      Form.body ev g bs)) ∧
    (∀ r, Finishes (fun n => run n (.eval e' f)) m r ↔
      Finishes (fun n => run n (.eval e f)) { m with nextLabel := m.nextLabel + 1 } r) ∧
    (m.Labels e →
      (∀ r, Finishes (fun n => run n (.eval e f)) m r →
        ∃ r', Finishes (fun n => run n (.eval e' f)) m r' ∧
          Relabelled (skip m.nextLabel) r r') ∧
      ∀ r', Finishes (fun n => run n (.eval e' f)) m r' →
        ∃ r, Finishes (fun n => run n (.eval e f)) m r ∧
          Relabelled (skip m.nextLabel) r r') := by
  have hlevels : m.depth + 2 ≤ maxDepth := Nat.add_le_add_right hd 2
  have hiff := fun r => finishes_applies_iff (r := r) hn hbs he he' f hlevels
  refine ⟨fun ev => ?_, hiff, fun hlabels => ?_⟩
  · rw [he.step hn hbs, boundFrame, bind_assoc]
  · simp only [hiff]
    exact hlabels.finishes f

/-- `(let ((x 5)) 1 (lambda () x))` and `((lambda (x) 1 (lambda () x)) 5)` with two levels left:
both make the same frame, and a procedure in it that has another label. -/
theorem let_is_application_procedure :
    let b : Value := .pair 1 (.sym "lambda") (.pair 2 .nil (.pair 3 (.sym "x") .nil))
    let e : Value := .pair 4 (.sym "let")
      (.pair 5 (.pair 6 (.pair 7 (.sym "x") (.pair 8 (.int 5) .nil)) .nil)
        (.pair 9 (.int 1) (.pair 10 b .nil)))
    let e' : Value := .pair 11
      (.pair 12 (.sym "lambda") (.pair 13 (.pair 14 (.sym "x") .nil)
        (.pair 15 (.int 1) (.pair 16 b .nil)))) (.pair 17 (.int 5) .nil)
    let m : Machine := { Machine.new [] (fun _ => .absent) with nextLabel := 18, depth := 998 }
    let p (i : Label) : Value := .closure i (.lexical 1) .nil (.pair 3 (.sym "x") .nil)
    let m' : Machine := { m with store := m.store.push ⟨some 0, [("x", .int 5)]⟩ }
    m.Labels e ∧
    Finishes (fun n => run n (.eval e 0)) m (.ok (p 18) { m' with nextLabel := 19 }) ∧
    Finishes (fun n => run n (.eval e' 0)) m (.ok (p 19) { m' with nextLabel := 20 }) := by
  intro b e e' m p m'
  have he : e.Lets [("x", .int 5)] [.int 1, b] := ⟨_, _, rfl, rfl, .cons rfl .nil⟩
  have he' : e'.Applies [("x", .int 5)] [.int 1, b] := ⟨_, _, rfl, rfl, rfl⟩
  have hlabels : m.Labels e := by
    rintro u (hu | rfl)
    · have hu : (Machine.new [] fun _ => .absent).store.Binds u := hu
      obtain ⟨_, hbuiltin, -⟩ := Machine.binds_new hu
      cases hbuiltin
    · decide
  have hlet : Finishes (fun n => run n (.eval e 0)) m (.ok (p 18) { m' with nextLabel := 19 }) :=
    ⟨trivial, 3, rfl⟩
  obtain ⟨-, -, halike⟩ :=
    let_is_application he he' (List.nodup_singleton _) (by simp) 0 m (Nat.le_refl _)
  obtain ⟨r', hr', hsame⟩ := (halike hlabels).1 _ hlet
  have hstore : m'.store.relabel (skip 18) = m'.store := by
    simp [m', m, Machine.new, Store.push, Store.relabel, Frame.relabel, Bindings.relabel,
      Bindings.putAll, Value.relabel]
  cases hsame
  rw [Machine.relabel, hstore] at hr'
  exact ⟨hlabels, hlet, hr'⟩

end Scheme
