import Scheme.Proofs.Depth
import Scheme.Proofs.Expressions
import Scheme.Proofs.Outcomes
import Scheme.Session

/-!
# Evaluation from inside a program

A program can evaluate an expression that it holds as data, and apply a procedure to arguments that
it holds in a list. `reentry_transparent` says that this adds nothing: `(eval 'e)` does what `e`
does in the frame of the call, one level further down, and `(apply p '(a ..))` does what the call
`(p 'a ..)` does there. Only a fault is reported under the name of the procedure that it went
through.

The frame of the call is passed to `eval` and `apply` behind their arguments. What they ask for is
then done in that frame, also where it is `eval` or `apply` again that is applied. A procedure
written in the language is entered by `apply` without the level that the call takes for itself, and
its body takes one instead, so the call has to be made one level down to be at the same depth; a
built-in procedure is called by `apply` at the depth at which the call would call it.
-/

namespace Scheme

open EvalM Fuel

/-- The expression stands for the value. -/
def Value.Quotes (q v : Value) : Prop := q.Lists [.sym "quote", v]

/-! ## Parts that are done at once -/

/-- In the frame `f` of the store `s` the expression has the value `v` after one step, which changes
nothing. -/
def Immediate (s : Store) (f : FrameId) (e v : Value) : Prop :=
  ∀ (ev : Evaluator) (m : Machine), m.store = s → evalStep ev e f m = .ok (.done v) m

namespace Immediate

variable {s : Store} {f : FrameId} {e v a p : Value} {es args : List Value} {m : Machine}

theorem name {x : String} (h : s.get? f x = some v) : Immediate s f (.sym x) v := by
  intro ev m hm
  have hl : lookup f x m = .ok v m := by simp only [lookup, hm, h]
  rw [evalStep, bind_ok hl]
  rfl

theorem quotation (h : e.Quotes v) : Immediate s f e v := by
  intro ev m _
  rw [Value.Lists.step_quote ev f h]
  rfl

theorem procedure (h : p.isProcedure = true) : Immediate s f p p := by
  intro ev m _
  cases p with
  | builtin | closure => rfl
  | _ => simp [Value.isProcedure] at h

/-- A value that is there at once is what one unit of fuel gives. -/
theorem run_eq (h : Immediate m.store f e v) (hd : m.depth < maxDepth) (n : Nat) :
    run (n + 1) (.eval e f) m = .ok v m :=
  run_of_done hd (h (run n) { m with depth := m.depth + 1 } rfl)

theorem mapM_eq (h : List.Forall₂ (Immediate m.store f) es args) (hd : m.depth < maxDepth)
    (n : Nat) : es.mapM (fun e => run (n + 1) (.eval e f)) m = .ok args m := by
  induction h with
  | nil => rfl
  | cons he _ ih =>
    rw [List.mapM_cons, bind_ok (he.run_eq hd n), bind_ok ih]
    rfl

/-- A call whose parts are done at once comes down to the application. -/
theorem evalStep_call (he : e.Lists (a :: es)) (ha : Keyword.ofValue? a = none)
    (hp : Immediate m.store f a p) (hargs : List.Forall₂ (Immediate m.store f) es args)
    (hd : m.depth < maxDepth) (n : Nat) :
    evalStep (run (n + 1)) e f m = applyStep (run (n + 1)) p (.ok args) f m := by
  rw [he.step_call _ f ha, bind_ok (hp.run_eq hd n), bind_ok (mapM_eq hargs hd n)]

end Immediate

/-! ## Entering a procedure -/

/-- The rounds of a call from frame `f`. -/
def entered (p : Value) (args : List Value) (f : FrameId) (n : Nat) : EvalM Value :=
  applyStep (run n) p (.ok args) f >>= Step.settle (loop (run n) n)

theorem steady_entered (p : Value) (args : List Value) (f : FrameId) :
    Steady (entered p args f) :=
  fun _ _ hn => settle (Fuel.applyStep (run_mono hn) p args f) (loop_mono (run_mono hn) hn)

/-- A call whose operator and operands are there at once finishes as the application does. -/
theorem Immediate.finishes_rounds_iff {f : FrameId} {e a p : Value} {es args : List Value}
    {m : Machine} (he : e.Lists (a :: es)) (ha : Keyword.ofValue? a = none)
    (hp : Immediate m.store f a p) (hargs : List.Forall₂ (Immediate m.store f) es args)
    (hd : m.depth < maxDepth) {r : EStateM.Result Stop Machine Value} :
    Finishes (rounds e f) m r ↔ Finishes (entered p args f) m r := by
  rw [Scheme.finishes_rounds_iff 1]
  refine finishes_congr (steady_loop 1 e f) (steady_entered p args f) 1 fun n hn => ?_
  obtain ⟨n, rfl⟩ : ∃ n', n = n' + 1 := ⟨n - 1, by omega⟩
  rw [loop_succ, entered]
  exact bind_congr_at (evalStep_call he ha hp hargs hd n) _

/-- The frame of a call, if the parameters and arguments allow one: its making depends on nothing
else. -/
theorem callFrameOf_cases (parent : FrameId) (formals : Value) (args : Except Fault (List Value)) :
    (∃ e, ∀ m, callFrameOf parent formals args m = .error (.fault e) m) ∨
    ∃ b, ∀ m, callFrameOf parent formals args m =
      .ok m.store.size { m with store := m.store.push ⟨some parent, b⟩ } := by
  unfold callFrameOf
  cases formals.items with
  | error e => exact .inl ⟨e, fun _ => rfl⟩
  | ok xs =>
    cases args with
    | error e => exact .inl ⟨e, fun _ => rfl⟩
    | ok vs =>
      simp only [check, pure_bind, callFrame]
      split
      · exact .inl ⟨_, fun _ => rfl⟩
      · cases parameterBindings [] xs vs with
        | error e => exact .inl ⟨e, fun _ => rfl⟩
        | ok b => exact .inr ⟨b, fun _ => rfl⟩

/-- The rounds of a call of a procedure written in the language are those of its body in the frame
of the call. -/
theorem finishes_entered_closure_iff {i : Label} {scope : Scope} {formals body : Value}
    {args : List Value} {f : FrameId} {b : Bindings} {m : Machine}
    (h : callFrameOf (scope.parent f) formals (.ok args) m =
      .ok m.store.size { m with store := m.store.push ⟨some (scope.parent f), b⟩ })
    {r : EStateM.Result Stop Machine Value} :
    Finishes (entered (.closure i scope formals body) args f) m r ↔
      Finishes (rounds body.sequence m.store.size)
        { m with store := m.store.push ⟨some (scope.parent f), b⟩ } r := by
  refine finishes_congr (steady_entered _ args f) (steady_rounds _ _) 0 fun n _ => ?_
  simp only [entered, applyStep, bind_assoc, bind_ok h]
  rfl

/-! ## Applications -/

/-- Nested applications of a built-in procedure call it as the rounds of a call do. -/
theorem finishes_apply_builtin_iff {b : Builtin} {args : List Value} {f : FrameId} {m : Machine}
    {r : EStateM.Result Stop Machine Value} :
    Finishes (fun n => run n (.apply (.builtin b) args f)) m r ↔
      Finishes (entered (.builtin b) args f) m r := by
  rw [← finishes_succ_iff (steady_run _)]
  refine finishes_congr (fun _ _ hn => steady_run _ (Nat.succ_le_succ hn)) (steady_entered _ _ _) 0
    fun n _ => ?_
  rw [run_apply, entered]
  simp only [applyStep, check, pure_bind, bind_assoc, Step.settle]

/-- Nested applications of a procedure written in the language do what a nested evaluation of a call
does. -/
theorem finishes_apply_closure_iff {i : Label} {scope : Scope} {formals body : Value}
    {args : List Value} {f : FrameId} {m : Machine} (hd : m.depth < maxDepth)
    {r : EStateM.Result Stop Machine Value} :
    Finishes (fun n => run n (.apply (.closure i scope formals body) args f)) m r ↔
      ∃ r', Finishes (entered (.closure i scope formals body) args f)
        { m with depth := m.depth + 1 } r' ∧ r = leave r' := by
  have hsteady : Steady fun n => run (n + 1) (.apply (.closure i scope formals body) args f) :=
    fun _ _ hn => steady_run _ (Nat.succ_le_succ hn)
  rw [← finishes_succ_iff (steady_run _)]
  rcases callFrameOf_cases (scope.parent f) formals (.ok args) with ⟨e, he⟩ | ⟨b, hb⟩
  · refine finishes_map_iff hsteady (steady_entered _ _ _) finished_leave 0 fun n _ => ?_
    rw [run_apply, entered, applyStep]
    simp only [bind, EStateM.bind, he]
    rfl
  · have hrun :
        Finishes (fun n => run (n + 1) (.apply (.closure i scope formals body) args f)) m r ↔
          Finishes (fun n => run n (.eval body.sequence m.store.size))
            { m with store := m.store.push ⟨some (scope.parent f), b⟩ } r := by
      refine finishes_congr hsteady (steady_run _) 0 fun n _ => ?_
      rw [run_apply, applyStep, bind_assoc, bind_ok (hb m)]
      rfl
    rw [hrun, finishes_eval_iff
      (m := { m with store := m.store.push ⟨some (scope.parent f), b⟩ }) hd]
    simp only [finishes_entered_closure_iff (hb { m with depth := m.depth + 1 })]

/-! ## Reports -/

/-- The outcome as a procedure of this name passes it on: its faults are reported under the name. -/
def announced (name : String) :
    EStateM.Result Stop Machine Value → EStateM.Result Stop Machine Value
  | .error (.fault e) m => .error (.fault (.inside name e)) m
  | r => r

/-- The outcome, on a machine at this depth. -/
def atDepth (d : Nat) : EStateM.Result Stop Machine Value → EStateM.Result Stop Machine Value
  | .ok v m => .ok v { m with depth := d }
  | .error s m => .error s { m with depth := d }

theorem finished_announced (name : String) (r : EStateM.Result Stop Machine Value) :
    Finished (announced name r) ↔ Finished r := by
  rcases r with ⟨v, m⟩ | ⟨e | h, m⟩ <;> rfl

theorem leave_announced (name : String) (r : EStateM.Result Stop Machine Value) :
    leave (announced name r) = announced name (leave r) := by
  rcases r with ⟨v, m⟩ | ⟨e | h, m⟩ <;> rfl

/-- Leaving a level that was entered brings the depth back. -/
theorem leave_eq_atDepth {r : EStateM.Result Stop Machine Value} {d : Nat}
    (h : (finalMachine r).depth = d + 1) : leave r = atDepth d r := by
  rcases r with ⟨v, m⟩ | ⟨s, m⟩ <;> simp only [finalMachine] at h <;> simp [leave, atDepth, h]

theorem atDepth_leave (d : Nat) (r : EStateM.Result Stop Machine Value) :
    atDepth d (leave r) = atDepth d r := by
  rcases r with ⟨v, m⟩ | ⟨s, m⟩ <;> rfl

/-- An evaluation leaves the depth as it was. -/
theorem Finishes.depth_eq {t : Task} {m : Machine} {r : EStateM.Result Stop Machine Value}
    (h : Finishes (fun n => run n t) m r) (hd : m.depth ≤ maxDepth) :
    (finalMachine r).depth = m.depth := by
  obtain ⟨-, n, rfl⟩ := h
  exact (Depth.run_watched n t hd .outOfFuel).1

/-- A call of a built-in procedure is its run with faults reported under its name. -/
theorem call_eq_announced (ev : Evaluator) (b : Builtin) (args : List Value) (f : FrameId)
    (m : Machine) : b.call ev args f m = announced b.name (b.run ev (b.arguments args f) m) := by
  rw [Builtin.call]
  rcases b.run ev (b.arguments args f) m with ⟨v, m⟩ | ⟨e | h, m⟩ <;> rfl

theorem call_eval (ev : Evaluator) (e : Value) (f : FrameId) (m : Machine) :
    Builtin.call ev (.control .eval) [e] f m = announced "eval" (ev (.eval e f) m) :=
  call_eq_announced ev (.control .eval) [e] f m

theorem call_apply (ev : Evaluator) (p : Value) {v : Value} {args : List Value}
    (hv : v.Lists args) (f : FrameId) (m : Machine) :
    Builtin.call ev (.control .apply) [p, v] f m =
      announced "apply" (ev (.apply p args f) m) := by
  have hframe : Arguments.withFrame [p, v, .env f] = .ok ([p, v], f) := rfl
  have hrun : Builtin.run ev [p, v, .env f] (.control .apply) = ev (.apply p args f) := by
    rw [Value.Lists] at hv
    simp only [Builtin.run, ControlOp.run, hframe, check, pure_bind, hv]
  rw [call_eq_announced, ← hrun]
  rfl

/-- A procedure that evaluates, called with arguments that are done at once: it carries out the task
one level further down. -/
theorem finishes_control_iff {op : ControlOp} {x : Value} {qs args : List Value} {t : Task}
    {f : FrameId} {m : Machine} (hd : m.depth + 1 < maxDepth)
    (hf : m.store.get? f op.name = some (.builtin (.control op)))
    (hx : x.Lists (.sym op.name :: qs)) (hqs : List.Forall₂ (Immediate m.store f) qs args)
    (hcall : ∀ ev k, Builtin.call ev (.control op) args f k = announced op.name (ev t k))
    {r : EStateM.Result Stop Machine Value} :
    Finishes (fun n => run n (.eval x f)) m r ↔
      ∃ r', Finishes (fun n => run n t) { m with depth := m.depth + 1 } r' ∧
        r = announced op.name (atDepth m.depth r') := by
  have hkey : Keyword.ofValue? (.sym op.name) = none := by cases op <;> rfl
  have hentered : ∀ r', Finishes (entered (.builtin (.control op)) args f)
      { m with depth := m.depth + 1 } r' ↔
      ∃ r₀, Finishes (fun n => run n t) { m with depth := m.depth + 1 } r₀ ∧
        r' = announced op.name r₀ := by
    intro r'
    refine finishes_map_iff (steady_entered _ _ _) (steady_run t) (finished_announced _) 0
      fun n _ => ?_
    rw [← hcall]
    change ((do return Step.done (← Builtin.call (run n) (.control op) args f)) >>= _) _ = _
    simp [Step.settle]
  rw [finishes_eval_iff (Nat.lt_of_succ_lt hd)]
  simp only [Immediate.finishes_rounds_iff (m := { m with depth := m.depth + 1 }) hx hkey
    (.name hf) hqs hd, hentered]
  have hleave : ∀ r₀, Finishes (fun n => run n t) { m with depth := m.depth + 1 } r₀ →
      leave (announced op.name r₀) = announced op.name (atDepth m.depth r₀) := by
    intro r₀ hr₀
    rw [leave_announced, leave_eq_atDepth (hr₀.depth_eq (Nat.le_of_lt hd))]
  constructor
  · rintro ⟨_, ⟨r₀, hr₀, rfl⟩, rfl⟩
    exact ⟨r₀, hr₀, hleave r₀ hr₀⟩
  · rintro ⟨r₀, hr₀, rfl⟩
    exact ⟨_, ⟨r₀, hr₀, rfl⟩, (hleave r₀ hr₀).symm⟩

/-! ## Calls and applications -/

/-- The levels that a call needs to be made further down than an application: the body of a
procedure written in the language takes the place of a call, but an application nests it. -/
def Value.callLevels : Value → Nat
  | closure .. => 1
  | _ => 0

/-- An application one level down does what the call does. -/
theorem finishes_apply_iff {p y : Value} {args qs : List Value} {f : FrameId} {m : Machine}
    (hd : m.depth + 2 < maxDepth) (hp : p.isProcedure = true)
    (hqs : List.Forall₂ Value.Quotes qs args)
    (hy : y.Lists (p :: qs)) {r : EStateM.Result Stop Machine Value} :
    (∃ r', Finishes (fun n => run n (.apply p args f)) { m with depth := m.depth + 1 } r' ∧
      r = atDepth m.depth r') ↔
    ∃ r', Finishes (fun n => run n (.eval y f)) { m with depth := m.depth + p.callLevels } r' ∧
      r = atDepth m.depth r' := by
  have hcall : ∀ (k : Machine) r', Keyword.ofValue? p = none → k.depth < maxDepth →
      (Finishes (rounds y f) k r' ↔ Finishes (entered p args f) k r') := fun k r' hkey hk =>
    Immediate.finishes_rounds_iff hy hkey (.procedure hp) (hqs.imp fun _ _ hq => .quotation hq) hk
  have hlt : m.depth < maxDepth := Nat.lt_of_succ_lt (Nat.lt_of_succ_lt hd)
  cases p with
  | builtin b =>
    simp only [Value.callLevels, Nat.add_zero, finishes_eval_iff hlt, finishes_apply_builtin_iff,
      hcall { m with depth := m.depth + 1 } _ rfl (Nat.lt_of_succ_lt hd)]
    constructor
    · rintro ⟨r₀, hr₀, rfl⟩
      exact ⟨_, ⟨r₀, hr₀, rfl⟩, (atDepth_leave m.depth r₀).symm⟩
    · rintro ⟨_, ⟨r₀, hr₀, rfl⟩, rfl⟩
      exact ⟨r₀, hr₀, atDepth_leave m.depth r₀⟩
  | closure i scope formals body =>
    have hlt₁ : ({ m with depth := m.depth + 1 } : Machine).depth < maxDepth :=
      Nat.lt_of_succ_lt hd
    simp only [Value.callLevels, finishes_eval_iff hlt₁, finishes_apply_closure_iff hlt₁,
      hcall { m with depth := m.depth + 1 + 1 } _ rfl hd]
  | _ => simp [Value.isProcedure] at hp

/-- Evaluating a quoted expression from inside a program does what the expression does in the same
frame one level further down. Applying a procedure to a quoted list of arguments does what its call
with the quoted arguments does: one level further down if the procedure is written in the language,
at the same depth if it is built in. The machine is the same afterwards, and a fault is reported
under the name of the procedure that was called. -/
theorem reentry_transparent (f : FrameId) (m : Machine) (hd : m.depth + 2 < maxDepth) :
    (m.store.get? f "eval" = some (.builtin (.control .eval)) →
      ∀ e q x : Value, q.Quotes e → x.Lists [.sym "eval", q] →
        ∀ r, Finishes (fun n => run n (.eval x f)) m r ↔
          ∃ r', Finishes (fun n => run n (.eval e f)) { m with depth := m.depth + 1 } r' ∧
            r = announced "eval" (atDepth m.depth r')) ∧
    (m.store.get? f "apply" = some (.builtin (.control .apply)) →
      ∀ (p : Value) (args qs : List Value) (v q x y : Value), p.isProcedure = true →
        v.Lists args → q.Quotes v → x.Lists [.sym "apply", p, q] →
        List.Forall₂ Value.Quotes qs args → y.Lists (p :: qs) →
        ∀ r, Finishes (fun n => run n (.eval x f)) m r ↔
          ∃ r', Finishes (fun n => run n (.eval y f))
              { m with depth := m.depth + p.callLevels } r' ∧
            r = announced "apply" (atDepth m.depth r')) := by
  refine ⟨fun hf e q x hq hx r => ?_, fun hf p args qs v q x y hp hv hq hx hqs hy r => ?_⟩
  · exact finishes_control_iff (Nat.lt_of_succ_lt hd) hf hx (.cons (.quotation hq) .nil)
      fun ev k => call_eval ev e f k
  · rw [finishes_control_iff (Nat.lt_of_succ_lt hd) hf hx
      (.cons (.procedure hp) (.cons (.quotation hq) .nil)) fun ev k => call_apply ev p hv f k]
    have happly := fun r₀ => finishes_apply_iff (f := f) (r := r₀) hd hp hqs hy
    constructor
    · rintro ⟨r', hr', rfl⟩
      obtain ⟨r₀, hr₀, h⟩ := (happly _).mp ⟨r', hr', rfl⟩
      exact ⟨r₀, hr₀, congrArg (announced "apply") h⟩
    · rintro ⟨r', hr', rfl⟩
      obtain ⟨r₀, hr₀, h⟩ := (happly _).mpr ⟨r', hr', rfl⟩
      exact ⟨r₀, hr₀, congrArg (announced "apply") h⟩

/-- Two levels below the limit: `(eval '(<car> 5))` fails as `(<car> 5)` does, and
`(apply <(mu (x) 7)> '(5))` makes the frame that the call makes. -/
theorem reentry_transparent_at_limit :
    let m : Machine := { Session.new (fun _ => .absent) with depth := 997 }
    let e : Value := .pair 1 (.builtin (.list .car)) (.pair 2 (.int 5) .nil)
    let p : Value := .closure 9 .dynamic (.pair 10 (.sym "x") .nil) (.pair 11 (.int 7) .nil)
    let quoted (i : Label) (v : Value) : Value := .pair i (.sym "quote") (.pair (i + 1) v .nil)
    let m' : Machine := { m with store := m.store.push ⟨some 0, [("x", .int 5)]⟩ }
    m.depth + 2 < maxDepth ∧
    m.store.get? 0 "eval" = some (.builtin (.control .eval)) ∧
    m.store.get? 0 "apply" = some (.builtin (.control .apply)) ∧
    Finishes (fun n => run n (.eval (.pair 3 (.sym "eval") (.pair 4 (quoted 5 e) .nil)) 0)) m
      (.error (.fault (.inside "eval" (.inside "car" .notPair))) m) ∧
    Finishes (fun n => run n (.eval (.pair 12 (.sym "apply")
        (.pair 13 p (.pair 14 (quoted 15 (.pair 17 (.int 5) .nil)) .nil))) 0)) m
      (.ok (.int 7) m') := by
  intro m e p quoted m'
  have heval : m.store.get? 0 "eval" = some (.builtin (.control .eval)) :=
    (Store.get?_global m.store "eval").trans rfl
  have happly : m.store.get? 0 "apply" = some (.builtin (.control .apply)) :=
    (Store.get?_global m.store "apply").trans rfl
  have hd : m.depth + 2 < maxDepth := by decide
  obtain ⟨htransparent, hcalls⟩ := reentry_transparent 0 m hd
  refine ⟨hd, heval, happly, ?_, ?_⟩
  · have he : Finishes (fun n => run n (.eval e 0)) { m with depth := 998 }
        (.error (.fault (.inside "car" .notPair)) { m with depth := 998 }) := ⟨trivial, 3, rfl⟩
    exact (htransparent heval e (quoted 5 e) (.pair 3 (.sym "eval") (.pair 4 (quoted 5 e) .nil))
      rfl rfl _).mpr ⟨_, he, rfl⟩
  · let y : Value := .pair 22 p (.pair 23 (quoted 20 (.int 5)) .nil)
    let v : Value := .pair 17 (.int 5) .nil
    have hy : Finishes (fun n => run n (.eval y 0)) { m with depth := 998 }
        (.ok (.int 7) { m' with depth := 998 }) := ⟨trivial, 3, rfl⟩
    exact (hcalls happly p [.int 5] [quoted 20 (.int 5)] v (quoted 15 v)
      (.pair 12 (.sym "apply") (.pair 13 p (.pair 14 (quoted 15 v) .nil))) y rfl rfl rfl rfl
      (.cons rfl .nil) rfl _).mpr ⟨_, hy, rfl⟩

end Scheme
