import Scheme.Proofs.Allocation
import Scheme.Proofs.Expressions
import Scheme.Proofs.Outcomes

/-!
# What a definition changes

A definition binds one name in one frame, and the binding is seen from that frame and from all
frames below it that have no nearer binding of the name. `Store.chain` is the way up from a frame
and `Store.binder?` the first frame on it that binds a name; `Store.get?_define` says in these terms
what becomes of every look-up.

The operands of a definition are a name and an expression, or a name with parameters and a body
(`Form.Describes`). The value is found first, on whatever machine its evaluation leaves, and then
bound there. All other operands are rejected on the machine as it is. The second kind is short for
a definition with a `lambda`: both make the same procedure or raise the same fault
(`Value.Shorthand.run_eq`, `Value.Longhand.run_eq`).
-/

namespace Scheme

open EvalM

/-! ## The way up -/

namespace Store

/-- The frames on the way up from `f`, which is the first of them. -/
def chain (s : Store) (f : FrameId) : List FrameId :=
  match h : s.parent? f with
  | some p =>
    have : p < f := lt_of_parent? h
    f :: s.chain p
  | none => [f]
termination_by f

/-- The first frame on the way up that binds the name. -/
def binder? (s : Store) (f : FrameId) (x : String) : Option FrameId :=
  (s.chain f).find? fun g => (s.local? g x).isSome

theorem chain_eq (s : Store) (f : FrameId) :
    s.chain f = f :: ((s.parent? f).map s.chain).getD [] := by
  rw [chain.eq_def]
  split <;> rename_i hp <;> simp [hp]

/-- The binder of a name is the frame itself or, if the name is not bound there, one on the way
up. -/
theorem binder?_eq (s : Store) (f : FrameId) (x : String) :
    s.binder? f x =
      if (s.local? f x).isSome then some f else (s.parent? f).bind fun p => s.binder? p x := by
  rw [binder?, chain_eq, List.find?_cons]
  cases hlocal : (s.local? f x).isSome with
  | true => rfl
  | false =>
    cases s.parent? f with
    | none => rfl
    | some p => rfl

/-- A definition is seen from the frames for which its frame is now the nearest that binds the name,
and nothing else changes. -/
theorem get?_define {s : Store} {f : FrameId} (hf : f < s.size) (x y : String) (v : Value)
    (g : FrameId) : (s.define f x v).get? g y =
      if y = x ∧ (s.define f x v).binder? g x = some f then some v else s.get? g y := by
  induction g using Nat.strongRecOn with
  | ind g ih =>
    rw [get?_eq, get?_eq, binder?_eq, parent?_define, local?_define _ _ _ _ _ _ hf,
      local?_define _ _ _ _ _ _ hf]
    by_cases hy : y = x
    · subst hy
      by_cases hg : g = f
      · simp [hg]
      · cases hlocal : s.local? g y with
        | some w => simp [hg]
        | none =>
          cases hp : s.parent? g with
          | none => simp [hg]
          | some p => simpa [hg, hlocal] using ih p (lt_of_parent? hp)
    · cases hlocal : s.local? g y with
      | some w => simp [hy]
      | none =>
        cases hp : s.parent? g with
        | none => simp [hy]
        | some p => simpa [hy, hlocal] using ih p (lt_of_parent? hp)

end Store

/-- The second machine is the first with the name bound in the frame. -/
structure Machine.Defined (m : Machine) (f : FrameId) (x : String) (v : Value) (m' : Machine) :
    Prop where
  others : m' = { m with store := m'.store }
  parent? (g : FrameId) : m'.store.parent? g = m.store.parent? g
  local? (g : FrameId) (y : String) :
    m'.store.local? g y = if g = f ∧ y = x then some v else m.store.local? g y
  get? (g : FrameId) (y : String) : m'.store.get? g y =
    if y = x ∧ m'.store.binder? g x = some f then some v else m.store.get? g y

theorem Machine.defined_define {m : Machine} {f : FrameId} (hf : f < m.store.size) (x : String)
    (v : Value) : m.Defined f x v { m with store := m.store.define f x v } where
  others := rfl
  parent? g := m.store.parent?_define f g x v
  local? g y := m.store.local?_define f g x y v hf
  get? g y := Store.get?_define hf x y v g

/-! ## Operands -/

namespace Form

/-- The operands of a definition say which name is defined and how its value is found: the outcome
is that of an expression, or a new procedure. -/
inductive Describes (ev : Evaluator) (f : FrameId) (m : Machine) :
    Value → String → EStateM.Result Stop Machine Value → Prop
  | value {v e : Value} {x : String} (h : v.Lists [.sym x, e]) :
      Describes ev f m v x (ev (.eval e f) m)
  | procedure (i j : Label) (x : String) {formals body : Value} {xs : List String}
      {bs : List Value} (hp : ParameterList formals xs) (hb : body.Lists bs) (hbs : bs ≠ []) :
      Describes ev f m (.pair i (.pair j (.sym x) formals) body) x
        (.ok (.closure m.nextLabel (.lexical f) formals body)
          { m with nextLabel := m.nextLabel + 1 })

/-- Binds a name to the value that was found. -/
def bound (f : FrameId) (x : String) :
    EStateM.Result Stop Machine Value → EStateM.Result Stop Machine Step
  | .ok v m => .ok (.done (.sym x)) { m with store := m.store.define f x v }
  | .error s m => .error s m

variable {ev : Evaluator} {f : FrameId} {m : Machine}

/-- A definition of a value evaluates its expression, binds the name and answers it. -/
theorem define_value {v e : Value} {x : String} (h : v.Lists [.sym x, e]) :
    define ev f v = (do
      EvalM.define f x (← ev (.eval e f))
      return .done (.sym x)) := by
  obtain ⟨i, d, rfl, hd⟩ := Value.lists_cons_iff.mp h
  rw [define, h.operands_eq (by simp) (by simp), h.operands_eq (by simp) (by simp)]
  rfl

/-- A definition with parameters binds the name to a procedure of the present frame, and answers the
name. -/
theorem define_procedure {formals body : Value} {bs : List Value} (hb : body.Lists bs)
    (hbs : bs ≠ []) (i j : Label) (x : String) :
    define ev f (.pair i (.pair j (.sym x) formals) body) = (do
      EvalM.define f x (← newProcedure (.lexical f) formals body)
      return .done (.sym x)) := by
  have hv : (Value.pair i (.pair j (.sym x) formals) body).Lists (.pair j (.sym x) formals :: bs) :=
    Value.lists_cons_iff.mpr ⟨_, _, rfl, hb⟩
  have hlen : 2 ≤ (Value.pair j (.sym x) formals :: bs).length :=
    Nat.succ_le_succ (List.length_pos_iff.mpr hbs)
  rw [define, hv.operands_eq hlen (by simp)]
  rfl

end Form

/-- With a list of different names for its parameters a procedure is made, and takes one label. -/
theorem ParameterList.newProcedure_eq {formals : Value} {xs : List String}
    (h : ParameterList formals xs) (scope : Scope) (body : Value) (m : Machine) :
    newProcedure scope formals body m =
      .ok (.closure m.nextLabel scope formals body) { m with nextLabel := m.nextLabel + 1 } := by
  rw [newProcedure, Form.parameters_eq_ok_iff.mpr h]
  rfl

namespace Form

theorem Describes.define_eq {v : Value} {x : String} {r : EStateM.Result Stop Machine Value}
    (h : Describes ev f m v x r) : define ev f v m = bound f x r := by
  cases h with
  | @value _ e _ h =>
    rw [define_value h]
    change EStateM.bind (ev (.eval e f)) _ m = _
    rw [EStateM.bind]
    cases ev (.eval e f) m with
    | ok w m₁ => rfl
    | error s m₁ => rfl
  | @procedure i j _ formals body xs bs hp hb hbs =>
    rw [define_procedure hb hbs, bind_ok (hp.newProcedure_eq (.lexical f) body m)]
    rfl

/-- All other operands are rejected before anything is done. -/
theorem define_of_not_describes {v : Value} (h : ∀ x r, ¬Describes ev f m v x r) :
    ∃ e, define ev f v m = .error (.fault e) m := by
  cases ho : operands Keyword.define.name v 2 none with
  | error e =>
    unfold define
    exact ⟨e, by rw [ho]; rfl⟩
  | ok xs =>
    obtain ⟨hs, hl, -⟩ := operands_eq_ok_iff.mp ho
    obtain ⟨target, bs, rfl⟩ := List.exists_cons_of_length_pos (Nat.zero_lt_of_lt hl)
    have hbs : bs ≠ [] := List.length_pos_iff.mp (Nat.le_of_succ_le_succ hl)
    obtain ⟨i, rest, rfl, hrest⟩ := Value.lists_cons_iff.mp hs
    cases target with
    | sym x =>
      cases ho₂ : operands Keyword.define.name (.pair i (.sym x) rest) 2 (some 2) with
      | error e =>
        unfold define
        exact ⟨e, by simp only [ho, ho₂]; rfl⟩
      | ok ys =>
        obtain ⟨hs₂, hl₂, hm₂⟩ := operands_eq_ok_iff.mp ho₂
        obtain ⟨a, e, rfl⟩ := List.length_eq_two.mp (Nat.le_antisymm (hm₂ 2 rfl) hl₂)
        obtain ⟨_, _, heq, -⟩ := Value.lists_cons_iff.mp hs₂
        cases heq
        exact absurd (.value hs₂) (h x _)
    | pair j t formals =>
      cases t with
      | sym x =>
        rw [define_procedure hrest hbs]
        cases hp : parameters formals with
        | error e => exact ⟨e, by rw [newProcedure, hp]; rfl⟩
        | ok ys =>
          exact absurd (.procedure i j x (parameters_eq_ok_iff.mp hp) hrest hbs) (h x _)
      | _ =>
        unfold define
        exact ⟨_, by rw [ho]; rfl⟩
    | _ =>
      unfold define
      exact ⟨_, by rw [ho]; rfl⟩

end Form

/-! ## In short -/

/-- The expression is `(define (x . formals) b ..)`, and `body` is the list of the `b`. -/
def Value.Shorthand (e : Value) (x : String) (formals body : Value) : Prop :=
  ∃ i j k, e = .pair i (.sym "define") (.pair j (.pair k (.sym x) formals) body)

/-- The expression is `(define x (lambda formals b ..))`, and `body` is the list of the `b`. -/
def Value.Longhand (e : Value) (x : String) (formals body : Value) : Prop :=
  ∃ i j lam, e.Lists [.sym "define", .sym x, lam] ∧
    lam = .pair i (.sym "lambda") (.pair j formals body)

/-- Defines a procedure if its parameters are distinct symbols, and else nothing. -/
def defineProcedure (f : FrameId) (x : String) (formals body : Value) : EvalM Value := fun m =>
  match Form.parameters formals with
  | .ok _ => .ok (.sym x)
      { m with
        nextLabel := m.nextLabel + 1
        store := m.store.define f x (.closure m.nextLabel (.lexical f) formals body) }
  | .error e => .error (.fault e) m

theorem newProcedure_bind_define (f : FrameId) (x : String) (formals body : Value) :
    (do
      EvalM.define f x (← newProcedure (.lexical f) formals body)
      return Step.done (.sym x)) =
    (do return Step.done (← defineProcedure f x formals body)) := by
  funext m
  change EStateM.bind _ _ m = EStateM.bind _ _ m
  simp only [newProcedure, EStateM.bind, defineProcedure]
  cases Form.parameters formals with
  | ok xs => rfl
  | error e => rfl

/-- Making and binding a procedure takes no level. -/
theorem leave_defineProcedure (f : FrameId) (x : String) (formals body : Value) (m : Machine) :
    leave (defineProcedure f x formals body { m with depth := m.depth + 1 }) =
      defineProcedure f x formals body m := by
  unfold defineProcedure
  cases Form.parameters formals with
  | ok xs => rfl
  | error e => rfl

section

variable {e : Value} {x : String} {formals body : Value} {bs : List Value} (hb : body.Lists bs)
  (hbs : bs ≠ []) (n : Nat) (f : FrameId) {m : Machine}

include hb hbs

/-- A definition in short makes the procedure itself. -/
theorem Value.Shorthand.run_eq (h : e.Shorthand x formals body) (hd : m.depth < maxDepth) :
    run (n + 1) (.eval e f) m = defineProcedure f x formals body m := by
  obtain ⟨i, j, k, rfl⟩ := h
  have hops : (Value.pair j (.pair k (.sym x) formals) body).Lists
      (.pair k (.sym x) formals :: bs) := Value.lists_cons_iff.mpr ⟨_, _, rfl, hb⟩
  have hstep := hops.evalStep_keyword (run n) f .define i
  rw [Keyword.run, Form.define_procedure hb hbs, newProcedure_bind_define] at hstep
  exact (run_of_step hd (congrFun hstep _)).trans (leave_defineProcedure f x formals body m)

/-- A `lambda` is evaluated by making its procedure. -/
theorem run_lambda (hd : m.depth < maxDepth) (i j : Label) :
    run (n + 1) (.eval (.pair i (.sym "lambda") (.pair j formals body)) f) m =
      newProcedure (.lexical f) formals body m := by
  rw [run_of_step hd (congrFun (hb.evalStep_lambda _ f hbs i j formals) _), newProcedure]
  cases Form.parameters formals with
  | ok xs => rfl
  | error e => rfl

/-- A definition with a `lambda` takes a level for it, and does the same. -/
theorem Value.Longhand.run_eq (h : e.Longhand x formals body) (hd : m.depth + 1 < maxDepth) :
    run (n + 2) (.eval e f) m = defineProcedure f x formals body m := by
  obtain ⟨i, j, lam, he, rfl⟩ := h
  obtain ⟨ops, hops, hstep⟩ := he.step_keyword (run (n + 1)) f .define
  have hmade : run (n + 1) (.eval (.pair i (.sym "lambda") (.pair j formals body)) f)
      { m with depth := m.depth + 1 } =
        newProcedure (.lexical f) formals body { m with depth := m.depth + 1 } :=
    run_lambda hb hbs n f hd i j
  have hdefine : evalStep (run (n + 1)) e f { m with depth := m.depth + 1 } =
      (do return Step.done (← defineProcedure f x formals body))
        { m with depth := m.depth + 1 } := by
    rw [hstep, Keyword.run, Form.define_value hops, ← newProcedure_bind_define]
    exact bind_congr_at hmade _
  rw [run_of_step (Nat.lt_of_succ_lt hd) hdefine, leave_defineProcedure]

end

theorem finished_defineProcedure (f : FrameId) (x : String) (formals body : Value) (m : Machine) :
    Finished (defineProcedure f x formals body m) := by
  unfold defineProcedure
  cases Form.parameters formals with
  | ok xs => trivial
  | error e => trivial

/-! ## Definitions -/

/-- The frame is still there when the value has been found. -/
theorem Form.Describes.lt_size {n : Nat} {f g : FrameId} {m : Machine} {v : Value} {x : String}
    {r : EStateM.Result Stop Machine Value} (h : Describes (run n) f m v x r)
    (hg : g < m.store.size) : g < (finalMachine r).store.size := by
  cases h with
  | @value _ e _ h => exact (m.precedes_run n (.eval e f)).lt_size hg
  | procedure => exact hg

/-- A definition on any operands in a frame of the store. If it succeeds, it answers the name, and
the value that was found is seen under the name from all frames for which the frame of the
definition is now the first on the way up that binds it; every other look-up is as it was when the
value had been found. If it fails, then either no value was found, and the machine is the one that
is left from that, or nothing has been done.

`(define (x . formals) b ..)` is `(define x (lambda formals b ..))`. With a level left for the
`lambda`, both finish with the same procedure bound or with the same fault and nothing bound. -/
theorem definition_exact {f : FrameId} {m : Machine} (hf : f < m.store.size) :
    (∀ n v, match Keyword.define.run (run n) v f m with
      | .ok s m' => ∃ x w m₁, Form.Describes (run n) f m v x (.ok w m₁) ∧ s = .done (.sym x) ∧
          m₁.Defined f x w m'
      | .error s m' => (∃ x, Form.Describes (run n) f m v x (.error s m')) ∨
          (∀ x r, ¬Form.Describes (run n) f m v x r) ∧ m' = m) ∧
    ∀ {e e' formals body body' : Value} {x : String} {bs : List Value},
      e.Shorthand x formals body → e'.Longhand x formals body' →
      body.Lists bs → body'.Lists bs → bs ≠ [] → m.depth + 1 < maxDepth → ∀ r,
        (Finishes (fun n => run n (.eval e f)) m r ↔ r = defineProcedure f x formals body m) ∧
        (Finishes (fun n => run n (.eval e' f)) m r ↔ r = defineProcedure f x formals body' m) := by
  refine ⟨fun n v => ?_, fun he he' hb hb' hbs hd r => ?_⟩
  · rw [Keyword.run]
    by_cases h : ∃ x r, Form.Describes (run n) f m v x r
    · obtain ⟨x, r, hr⟩ := h
      rw [hr.define_eq]
      cases r with
      | ok w m₁ => exact ⟨x, w, m₁, hr, rfl, Machine.defined_define (hr.lt_size hf) x w⟩
      | error s m₁ => exact .inl ⟨x, hr⟩
    · have hnone : ∀ x r, ¬Form.Describes (run n) f m v x r := fun x r hr => h ⟨x, r, hr⟩
      obtain ⟨e, he⟩ := Form.define_of_not_describes hnone
      rw [he]
      exact .inr ⟨hnone, rfl⟩
  · have hshort := he.run_eq hb hbs 0 f (Nat.lt_of_succ_lt hd)
    have hlong := he'.run_eq hb' hbs 0 f hd
    exact ⟨finishes_iff_eq hshort (finished_defineProcedure ..),
      finishes_iff_eq hlong (finished_defineProcedure ..)⟩

/-- The name is bound three times: above the frame, in the frame while the value is found, and below
it, where the old value stays. With one level left, `(define (x) 5)` and `(define x (lambda () 5))`
bind the same procedure. -/
theorem definition_exact_shadowed :
    let b : Value := .pair 1 (.sym "define")
      (.pair 2 (.pair 3 (.sym "x") .nil) (.pair 4 (.int 5) .nil))
    let b' : Value := .pair 5 (.sym "define") (.pair 6 (.sym "x")
      (.pair 7 (.pair 8 (.sym "lambda") (.pair 9 .nil (.pair 10 (.int 5) .nil))) .nil))
    let v : Value := .pair 11 (.sym "x")
      (.pair 12 (.pair 13 (.sym "begin") (.pair 14 b (.pair 15 (.int 6) .nil))) .nil)
    let m : Machine := { Machine.new [] (fun _ => .absent) with
      store := ⟨#[⟨none, [("x", .int 1)]⟩, ⟨some 0, []⟩, ⟨some 1, [("x", .int 9)]⟩]⟩
      nextLabel := 16
      depth := 998 }
    let p (body : Value) : Value := .closure 16 (.lexical 1) .nil body
    1 < m.store.size ∧ m.depth + 1 < maxDepth ∧
    (∃ m₁ m' : Machine, Keyword.define.run (run 3) v 1 m = .ok (.done (.sym "x")) m' ∧
      m₁.Defined 1 "x" (.int 6) m' ∧ m'.store.get? 1 "x" = some (.int 6) ∧
      m'.store.binder? 2 "x" = some 2) ∧
    Finishes (fun n => run n (.eval b 1)) m (.ok (.sym "x") { m with
      nextLabel := 17, store := m.store.define 1 "x" (p (.pair 4 (.int 5) .nil)) }) ∧
    Finishes (fun n => run n (.eval b' 1)) m (.ok (.sym "x") { m with
      nextLabel := 17, store := m.store.define 1 "x" (p (.pair 10 (.int 5) .nil)) }) := by
  intro b b' v m p
  have hf : 1 < m.store.size := by decide
  obtain ⟨hdefine, hsame⟩ := definition_exact hf
  have hb : b.Shorthand "x" .nil (.pair 4 (.int 5) .nil) := ⟨_, _, _, rfl⟩
  have hb' : b'.Longhand "x" .nil (.pair 10 (.int 5) .nil) := ⟨_, _, _, rfl, rfl⟩
  have hfive : (Value.pair 4 (.int 5) .nil).Lists [.int 5] := rfl
  have hboth := hsame hb hb' hfive rfl (by simp) (by decide)
  refine ⟨hf, by decide, ?_, (hboth _).1.mpr rfl, (hboth _).2.mpr rfl⟩
  obtain ⟨_, w, m₁, -, hs, hdefined⟩ := hdefine 3 v
  cases hs
  have hw := hdefined.local? 1 "x"
  cases hw
  refine ⟨m₁, _, rfl, hdefined, ?_, ?_⟩
  · rw [hdefined.get?, if_pos ⟨rfl, by rw [Store.binder?_eq]; rfl⟩]
  · rw [Store.binder?_eq]
    rfl

end Scheme
