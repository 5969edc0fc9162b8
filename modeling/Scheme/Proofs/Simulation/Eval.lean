import Scheme.Proofs.Simulation.Builtin

/-!
# Evaluation of corresponding expressions

The main statement is `Simulation.run`: on corresponding machines, corresponding tasks have
corresponding outcomes. Below it, `Simulation.evalStep` says the same of one step, for any two
evaluators that carry out the nested evaluations alike, and there is one lemma for each form.
-/

namespace Scheme

open EvalM

/-! ## Steps in sequence -/

/-- What a step comes to, with `next` for the expression that it leaves. -/
def Step.settle (next : Value → FrameId → EvalM Value) : Step → EvalM Value
  | .done v => pure v
  | .next e f => next e f

/-- One round of the loop: a step, and the loop again for what comes next. -/
theorem loop_succ (ev : Evaluator) (n : Nat) (e : Value) (f : FrameId) :
    loop ev (n + 1) e f = evalStep ev e f >>= Step.settle (loop ev n) := by
  funext m
  change _ = EStateM.bind (evalStep ev e f) (Step.settle (loop ev n)) m
  simp only [loop, EStateM.bind]
  cases evalStep ev e f m with
  | ok s m => cases s <;> rfl
  | error s m => rfl

/-- An application is a step, and an evaluation of what comes next. -/
theorem run_apply (n : Nat) (p : Value) (args : List Value) (f : FrameId) :
    run (n + 1) (.apply p args f) =
      applyStep (run n) p (.ok args) f >>= Step.settle fun e g => run n (.eval e g) := by
  funext m
  change _ = EStateM.bind _ (Step.settle fun e g => run n (.eval e g)) m
  simp only [run, EStateM.bind]
  cases applyStep (run n) p (.ok args) f m with
  | ok s m => cases s <;> rfl
  | error s m => rfl

/-- A clause that starts with `else` is checked for its shape and then taken, if it may stand
there. -/
theorem Form.clauses_else (ev : Evaluator) (f : FrameId) (i : Label) (exprs : Value)
    (rest : List Value) :
    clauses ev f (.pair i (.sym "else") exprs :: rest) =
      if !exprs.isProper then fail (.badlyFormed (.pair i (.sym "else") exprs))
      else otherwise ev f rest.isEmpty exprs := rfl

/-- Any other clause is checked for its shape, then tested, and passed over if the test is false. -/
theorem Form.clauses_test (ev : Evaluator) (f : FrameId) (i : Label) {test : Value}
    (exprs : Value) (rest : List Value) (h : test ≠ .sym "else") :
    clauses ev f (.pair i test exprs :: rest) =
      if !exprs.isProper then fail (.badlyFormed (.pair i test exprs))
      else ev (.eval test f) >>= fun v =>
        if v.isTrue then chosen ev f v exprs else clauses ev f rest := by
  rw [clauses]
  exact h

namespace Simulation

variable {W : Type} [Preorder W] {S : Simulation W} {w : W}

/-- Corresponding steps come out alike if what follows them does. -/
theorem settle {s s' : Step} {next next' : Value → FrameId → EvalM Value} (hs : S.step w s s')
    (hn : ∀ {e e' f f'}, S.expr w e e' → S.frame w f f' →
      S.Agree w S.value (next e f) (next' e' f')) :
    S.Agree w S.value (s.settle next) (s'.settle next') := by
  cases hs with
  | done hv => exact .pure hv
  | next he hf => exact hn he hf

/-! ## Procedures and their frames -/

/-- Putting corresponding values under one name keeps bindings in correspondence. -/
theorem alike_put {b b' : Bindings} {v v' : Value} (x : String) (hb : b.Alike (S.value w) b')
    (hv : S.value w v v') : (b.put x v).Alike (S.value w) (b'.put x v') := by
  induction hb with
  | nil => exact .cons ⟨rfl, hv⟩ .nil
  | @cons e e' rest rest' he hs ih =>
    obtain ⟨y, u⟩ := e
    obtain ⟨y', u'⟩ := e'
    obtain ⟨rfl, hu⟩ := he
    simp only [Bindings.put]
    split
    · exact .cons ⟨rfl, hv⟩ hs
    · exact .cons ⟨rfl, hu⟩ ih

/-- Corresponding parameters and arguments make corresponding bindings. -/
theorem parameterBindings : ∀ {formals formals' args args' : List Value} {b b' : Bindings},
    b.Alike (S.value w) b' → List.Forall₂ (S.value w) formals formals' →
      List.Forall₂ (S.value w) args args' →
        S.Checked w (Bindings.Alike (S.value w)) (Scheme.parameterBindings b formals args)
          (Scheme.parameterBindings b' formals' args')
  | _, _, _, _, _, _, hb, .nil, _ => .ok hb
  | _, _, _, _, _, _, hb, .cons hx hs, .nil => by cases S.layer hx <;> exact .ok hb
  | _, _, _, _, _, _, hb, .cons hx hs, .cons hv ha => by
    have hf := Fault.Alike.badFormals (expr_of_value hx)
    cases S.layer hx with
    | sym x =>
      simp only [Scheme.parameterBindings]
      exact parameterBindings (alike_put x hb hv) hs ha
    | _ => exact .error hf

/-- A call makes corresponding frames, or fails on both sides. -/
theorem callFrame {p p' : FrameId} {formals formals' args args' : List Value}
    (hp : S.frame w p p') (hx : List.Forall₂ (S.value w) formals formals')
    (ha : List.Forall₂ (S.value w) args args') :
    S.Agree w S.frame (Scheme.callFrame p formals args) (Scheme.callFrame p' formals' args') := by
  unfold Scheme.callFrame
  rw [← hx.length_eq, ← ha.length_eq]
  split
  · exact .fail (fault_plain rfl)
  · have hb : S.Agree w (fun w => Bindings.Alike (S.value w))
        (check (Scheme.parameterBindings [] formals args))
        (check (Scheme.parameterBindings [] formals' args')) :=
      .check (parameterBindings .nil hx ha)
    exact hb.bind fun _ _ _ hw hb => .newFrame (S.frame_mono hw hp) hb

theorem callFrameOf {p p' : FrameId} {formals formals' : Value}
    {args args' : Except Fault (List Value)} (hp : S.frame w p p')
    (hx : S.value w formals formals') (ha : S.Checked w (List.Forall₂ (S.value w)) args args') :
    S.Agree w S.frame (Scheme.callFrameOf p formals args)
      (Scheme.callFrameOf p' formals' args') := by
  have hi : S.Agree w (fun w => List.Forall₂ (S.value w)) (check formals.items)
      (check formals'.items) := .check (items hx)
  refine hi.bind fun w₁ xs xs' hw₁ hxs => ?_
  cases ha with
  | ok ha =>
    exact callFrame (S.frame_mono hw₁ hp) hxs (values_mono hw₁ ha)
  | error he => exact .fail (fault_mono hw₁ he)

/-- Procedures made alike correspond. -/
theorem newProcedure {s s' : Scope} {formals formals' body body' : Value}
    (hs : s.Alike (S.frame w) s') (hx : S.value w formals formals')
    (hb : S.value w body body') :
    S.Agree w S.value (Scheme.newProcedure s formals body)
      (Scheme.newProcedure s' formals' body') := by
  intro m m' hm
  have hp := parameters hx
  unfold Scheme.newProcedure
  cases hc : Form.parameters formals with
  | error e =>
    rw [hc] at hp
    revert hp
    generalize Form.parameters formals' = c
    intro hp
    cases hp with
    | error he => exact .error le_rfl hm (.fault he)
  | ok xs =>
    obtain ⟨w', hw, hm', hv⟩ := S.newClosure hm hs hx hb hc
    rw [hc] at hp
    revert hp
    generalize Form.parameters formals' = c
    intro hp
    cases hp with
    | ok => exact .ok hw hm' hv

theorem procedureOf (k : Keyword) {s s' : Scope} {v v' : Value} (hs : s.Alike (S.frame w) s')
    (h : S.value w v v') :
    S.Agree w S.value (Scheme.procedureOf k s v) (Scheme.procedureOf k s' v') := by
  have ho : S.Agree w (fun w => List.Forall₂ (S.value w))
      (check (Form.operands k.name v 2 .none)) (check (Form.operands k.name v' 2 .none)) :=
    .check (operands k.name 2 .none h)
  refine ho.bind fun w' _ _ hw _ => ?_
  have hs' : s.Alike (S.frame w') s' := by
    cases hs with
    | lexical hf => exact .lexical (S.frame_mono hw hf)
    | dynamic => exact .dynamic
  have hf : S.fault w' (.badForm k.name v) (.badForm k.name v') :=
    .badForm _ (expr_of_value (S.value_mono hw h))
  cases S.layer h with
  | pair _ _ ha hd => exact newProcedure hs' (S.value_mono hw ha) (S.value_mono hw hd)
  | _ => exact .fail hf

/-- Corresponding bodies are corresponding expressions, though the sequences they stand for are no
objects. -/
theorem sequence {b b' : Value} (h : S.value w b b') : S.expr w b.sequence b'.sequence := by
  rcases Value.single_cases S.layer h with ⟨i, i', e, e', rfl, rfl, he⟩ | ⟨hb, hb'⟩
  · exact Or.inl he
  · rw [Value.sequence.eq_2 b hb, Value.sequence.eq_2 b' hb']
    exact Or.inr ⟨b, b', rfl, rfl, h⟩

/-! ## What evaluates nothing -/

/-- Corresponding values are the same keyword, if they are one. -/
theorem ofValue?_eq {v v' : Value} (h : S.value w v v') :
    Keyword.ofValue? v = Keyword.ofValue? v' := by
  cases S.layer h <;> rfl

/-- A binding, and the name that it gives as the value of the form. -/
theorem defineName {f f' : FrameId} {v v' : Value} (x : String) (hf : S.frame w f f')
    (hv : S.value w v v') :
    S.Agree w S.step (do EvalM.define f x v; return .done (.sym x))
      (do EvalM.define f' x v'; return .done (.sym x)) :=
  (Agree.define x hf hv).bind fun w' _ _ _ _ => .pure (.done (S.constant w' rfl))

theorem report {e e' : Fault} (h : S.fault w e e') :
    S.Agree w (fun _ => Eq) (Scheme.report e) (Scheme.report e') :=
  (Agree.messageNow h).map fun _ _ _ _ ht => ht ▸ rfl

/-- The same contents on both sides, and none at all if a lax fault could be caught. -/
theorem contents? (name : String) :
    S.Agree w (fun _ c c' => c = c' ∧ (c ≠ .none → ∀ e, ¬S.lax (.fault e)))
      (Scheme.contents? name) (Scheme.contents? name) := by
  intro m m' hm
  have hl : ∀ bytes, m.files name = .file bytes → ∀ e, ¬S.lax (.fault e) :=
    fun bytes hb e he => S.lax_file name bytes he hm hb
  unfold Scheme.contents?
  rw [← S.files hm]
  cases hc : m.files name with
  | file bytes => exact .ok le_rfl hm ⟨rfl, fun _ => hl bytes hc⟩
  | unread => exact .error le_rfl hm (.halt _)
  | _ => exact .ok le_rfl hm ⟨rfl, fun h => absurd rfl h⟩

/-- Both machines find the same file, and where they do no fault of the first run is lax. -/
theorem findSource (name : String) :
    S.Agree w (fun _ r r' => r = r' ∧ ∀ e, ¬S.lax (.fault e)) (Scheme.findSource name)
      (Scheme.findSource name) := by
  refine (contents? name).bind fun w₁ c c' _ hc => ?_
  obtain ⟨rfl, hc⟩ := hc
  cases c with
  | some bytes => exact .pure ⟨rfl, hc (by simp)⟩
  | none =>
    refine (contents? (name ++ extension)).bind fun w₂ c c' _ hc => ?_
    obtain ⟨rfl, hc⟩ := hc
    cases c with
    | some bytes => exact .pure ⟨rfl, hc (by simp)⟩
    | none => exact .fail (fault_plain rfl)

theorem rootFrame {f f' : FrameId} (hf : S.frame w f f') :
    S.Agree w S.frame (Scheme.rootFrame f) (Scheme.rootFrame f') :=
  fun _ _ hm => .ok le_rfl hm (S.root hm hf)

/-- Faults reported under the name of a procedure. -/
theorem inside (name : String) {x y : EvalM Value} (hx : S.Agree w S.value x y) :
    S.Agree w S.value
      (fun m => match x m with
        | .ok v m => .ok v m
        | .error (.fault e) m => .error (.fault (.inside name e)) m
        | .error (.halt h) m => .error (.halt h) m)
      (fun m => match y m with
        | .ok v m => .ok v m
        | .error (.fault e) m => .error (.fault (.inside name e)) m
        | .error (.halt h) m => .error (.halt h) m) := by
  intro m m' hm
  have h := hx m m' hm
  revert h
  dsimp only
  generalize x m = r, y m' = r'
  intro h
  cases h with
  | ok hw hm hv => exact .ok hw hm hv
  | error hw hm hs =>
    cases hs with
    | fault he => exact .error hw hm (.fault (.inside name he))
    | halt h => exact .error hw hm (.halt h)
  | @lax s _ _ hl =>
    cases s with
    | fault e => exact .lax (S.lax_inside name hl)
    | halt h => exact .lax hl

/-- The procedures of the host agree as far as programs may call them. -/
theorem hostOp {args args' : List Value} {f f' : FrameId}
    (h : List.Forall₂ (S.value w) args args') (hf : S.frame w f f') (op : HostOp)
    (hp : S.permits (.host op)) :
    S.Agree w S.value (op.run (Builtin.arguments (.host op) args f))
      (op.run (Builtin.arguments (.host op) args' f')) := by
  cases op with
  | here =>
    simp only [HostOp.run, Builtin.arguments, Builtin.wantsFrame, if_true, List.getLast?_concat]
    exact .pure (S.env hp hf)
  | fail =>
    rcases h with _ | ⟨hv, _⟩
    · exact .fail (fault_plain rfl)
    · exact (Agree.displayedNow hv).bind fun _ _ _ _ ht => ht ▸ .fail (fault_plain rfl)

/-! ## Forms -/

variable {ev ev' : Evaluator} (hev : S.Evaluators ev ev')

include hev

theorem eval {e e' : Value} {f f' : FrameId} (he : S.value w e e') (hf : S.frame w f f') :
    S.Agree w S.value (ev (.eval e f)) (ev' (.eval e' f')) :=
  hev _ _ _ (.eval (expr_of_value he) hf)

/-- The expressions of a body are evaluated in step, and the last ones are what comes next. -/
theorem body : ∀ {es es' : List Value} {w : W} {f f' : FrameId}, S.frame w f f' →
    List.Forall₂ (S.value w) es es' →
      S.Agree w S.step (Form.body ev f es) (Form.body ev' f' es')
  | _, _, _, _, _, _, .nil => .fail (.tooFewOperands _ (expr_of_value (S.constant _ rfl)))
  | _, _, _, _, _, hf, .cons he .nil => .pure (.next (expr_of_value he) hf)
  | _, _, _, _, _, hf, .cons he (.cons he₁ hs) =>
    (eval hev he hf).bind fun _ _ _ hw _ =>
      body (S.frame_mono hw hf) (values_mono hw (.cons he₁ hs))

theorem conjunction : ∀ {es es' : List Value} {w : W} {f f' : FrameId}, S.frame w f f' →
    List.Forall₂ (S.value w) es es' →
      S.Agree w S.step (Form.conjunction ev f es) (Form.conjunction ev' f' es')
  | _, _, w, _, _, _, .nil => .pure (.done (S.constant w rfl))
  | _, _, _, _, _, hf, .cons he .nil => .pure (.next (expr_of_value he) hf)
  | _, _, _, _, _, hf, .cons he (.cons he₁ hs) => by
    refine (eval hev he hf).bind fun w' v v' hw hv => ?_
    rw [isTrue_eq hv]
    exact .ite (conjunction (S.frame_mono hw hf) (values_mono hw (.cons he₁ hs)))
      (.pure (.done (S.constant w' rfl)))

theorem disjunction : ∀ {es es' : List Value} {w : W} {f f' : FrameId}, S.frame w f f' →
    List.Forall₂ (S.value w) es es' →
      S.Agree w S.step (Form.disjunction ev f es) (Form.disjunction ev' f' es')
  | _, _, w, _, _, _, .nil => .pure (.done (S.constant w rfl))
  | _, _, _, _, _, hf, .cons he .nil => .pure (.next (expr_of_value he) hf)
  | _, _, _, _, _, hf, .cons he (.cons he₁ hs) => by
    refine (eval hev he hf).bind fun w' v v' hw hv => ?_
    rw [isTrue_eq hv]
    exact .ite (.pure (.done hv)) (disjunction (S.frame_mono hw hf) (values_mono hw (.cons he₁ hs)))

theorem chosen {test test' b b' : Value} {f f' : FrameId} (hf : S.frame w f f')
    (ht : S.value w test test') (hb : S.value w b b') :
    S.Agree w S.step (Form.chosen ev f test b) (Form.chosen ev' f' test' b') := by
  have ho : S.Agree w (fun w => List.Forall₂ (S.value w))
      (check (Form.operands Keyword.sequence.name b 1 .none))
      (check (Form.operands Keyword.sequence.name b' 1 .none)) :=
    .check (operands Keyword.sequence.name 1 .none hb)
  unfold Form.chosen
  rw [isNil_eq hb]
  exact .ite (.pure (.done ht)) (ho.bind fun _ _ _ hw hx => body hev (S.frame_mono hw hf) hx)

theorem otherwise (isLast : Bool) {b b' : Value} {f f' : FrameId} (hf : S.frame w f f')
    (hb : S.value w b b') :
    S.Agree w S.step (Form.otherwise ev f isLast b) (Form.otherwise ev' f' isLast b') := by
  unfold Form.otherwise
  rw [isNil_eq hb]
  exact .ite (.fail (fault_plain rfl))
    (.ite (.fail (fault_plain rfl)) (chosen hev hf (S.constant w rfl) hb))

/-- The clauses of a conditional are gone through in step. -/
theorem clauses : ∀ {cs cs' : List Value} {w : W} {f f' : FrameId}, S.frame w f f' →
    List.Forall₂ (S.value w) cs cs' →
      S.Agree w S.step (Form.clauses ev f cs) (Form.clauses ev' f' cs')
  | [], [], w, _, _, _, .nil => .pure (.done (S.constant w rfl))
  | _ :: rest, _ :: rest', w, f, f', hf, .cons hc hs => by
    have hbad := Fault.Alike.badlyFormed (expr_of_value hc)
    cases S.layer hc with
    | @pair i j test test' b b' ht hb =>
      by_cases hx : test = .sym "else"
      · subst hx
        obtain rfl := sym_eq ht
        have hl : rest.isEmpty = rest'.isEmpty := by cases hs <;> rfl
        rw [Form.clauses_else, Form.clauses_else, isProper_eq hb, hl]
        exact .ite (.fail hbad) (otherwise hev _ hf hb)
      · have hx' : test' ≠ .sym "else" := by
          rintro rfl
          generalize test = t at ht hx
          cases S.layer ht
          exact hx rfl
        rw [Form.clauses_test ev f i b rest hx, Form.clauses_test ev' f' j b' rest' hx',
          isProper_eq hb]
        refine .ite (.fail hbad) ((eval hev ht hf).bind fun w' v v' hw hv => ?_)
        rw [isTrue_eq hv]
        exact .ite (chosen hev (S.frame_mono hw hf) hv (S.value_mono hw hb))
          (clauses (S.frame_mono hw hf) (values_mono hw hs))
    | _ => exact .fail hbad

/-- Bindings of a `let`: corresponding names with corresponding values. -/
theorem binding {b b' : Value} {f f' : FrameId} (hf : S.frame w f f') (hb : S.value w b b') :
    S.Agree w (fun w p q => S.value w p.1 q.1 ∧ S.value w p.2 q.2) (Form.binding ev f b)
      (Form.binding ev' f' b') := by
  have hbad := Fault.Alike.badBinding (expr_of_value hb)
  have ho := operands Keyword.bindings.name 2 (some 2) hb
  unfold Form.binding
  revert ho
  generalize Form.operands Keyword.bindings.name b 2 (some 2) = c,
    Form.operands Keyword.bindings.name b' 2 (some 2) = c'
  intro ho
  cases ho with
  | error _ => exact .fail hbad
  | ok hx =>
    rcases hx with _ | ⟨hx, _ | ⟨he, _ | ⟨_, _⟩⟩⟩
    · exact .fail hbad
    · exact .fail hbad
    · exact (eval hev he hf).bind fun _ _ _ hw hv => .pure ⟨S.value_mono hw hx, hv⟩
    · exact .fail hbad

/-- The initial values are evaluated in step, and the bodies come next in corresponding frames. -/
theorem bind {b b' : Value} {es es' : List Value} {f f' : FrameId} (hf : S.frame w f f')
    (hb : S.value w b b') (hs : List.Forall₂ (S.value w) es es') :
    S.Agree w S.step (Form.bind ev f b es) (Form.bind ev' f' b' es') := by
  unfold Form.bind
  rw [isProper_eq hb]
  refine .ite (.fail (.badBindings (expr_of_value hb))) ?_
  have hi : S.Agree w (fun w => List.Forall₂ (S.value w)) (check b.items) (check b'.items) :=
    .check (items hb)
  refine hi.bind fun w₁ bs bs' hw₁ hbs => ?_
  refine (Agree.mapM (fun _ _ _ _ hw hp => ⟨S.value_mono hw hp.1, S.value_mono hw hp.2⟩) hbs
    fun w' _ _ hw' hv => binding hev (S.frame_mono (hw₁.trans hw') hf) hv).bind ?_
  intro w₂ ps ps' hw₂ hps
  have hx : List.Forall₂ (S.value w₂) (ps.map Prod.fst) (ps'.map Prod.fst) :=
    List.rel_map (fun _ _ hp => hp.1) hps
  have hv : List.Forall₂ (S.value w₂) (ps.map Prod.snd) (ps'.map Prod.snd) :=
    List.rel_map (fun _ _ hp => hp.2) hps
  have hn : S.Agree w₂ (fun _ => Eq) (check (Form.names (ps.map Prod.fst)))
      (check (Form.names (ps'.map Prod.fst))) := .check (distinctNames hx [] hx)
  refine hn.bind fun w₃ _ _ hw₃ _ => ?_
  have hw : w ≤ w₃ := (hw₁.trans hw₂).trans hw₃
  refine (callFrame (S.frame_mono hw hf) (values_mono hw₃ hx) (values_mono hw₃ hv)).bind ?_
  exact fun w₄ _ _ hw₄ hg => body hev hg (values_mono (hw.trans hw₄) hs)

/-- A definition binds the same name to corresponding values. -/
theorem defineForm {v v' : Value} {f f' : FrameId} (hf : S.frame w f f') (hv : S.value w v v') :
    S.Agree w S.step (Form.define ev f v) (Form.define ev' f' v') := by
  have ho : S.Agree w (fun w => List.Forall₂ (S.value w))
      (check (Form.operands Keyword.define.name v 2 .none))
      (check (Form.operands Keyword.define.name v' 2 .none)) :=
    .check (operands _ 2 .none hv)
  refine ho.bind fun w₁ _ _ hw₁ _ => ?_
  replace hf := S.frame_mono hw₁ hf
  replace hv := S.value_mono hw₁ hv
  have hbad : S.fault w₁ (.badForm Keyword.define.name v) (.badForm Keyword.define.name v') :=
    .badForm _ (expr_of_value hv)
  have ho₂ : S.Agree w₁ (fun w => List.Forall₂ (S.value w))
      (check (Form.operands Keyword.define.name v 2 (some 2)))
      (check (Form.operands Keyword.define.name v' 2 (some 2))) :=
    .check (operands _ 2 (some 2) hv)
  cases S.layer hv with
  | @pair i j target target' rest rest' ht hr =>
    have hbt := Fault.Alike.badDefine (expr_of_value ht)
    cases S.layer ht with
    | sym x =>
      refine ho₂.bind fun w₂ xs xs' hw₂ hxs => ?_
      replace hf := S.frame_mono hw₂ hf
      replace hbad := fault_mono hw₂ hbad
      rcases hxs with _ | ⟨hx, _ | ⟨he, _ | ⟨_, _⟩⟩⟩
      · exact .fail hbad
      · exact .fail hbad
      · exact (eval hev he hf).bind fun w₃ _ _ hw₃ hv => defineName x (S.frame_mono hw₃ hf) hv
      · exact .fail hbad
    | pair _ _ hx hformals =>
      have hbx := Fault.Alike.badDefine (expr_of_value hx)
      cases S.layer hx with
      | sym x =>
        exact (newProcedure (.lexical hf) hformals hr).bind fun w₂ _ _ hw₂ hp =>
          defineName x (S.frame_mono hw₂ hf) hp
      | _ => exact .fail hbx
    | _ => exact .fail hbt
  | _ => exact .fail hbad

/-- The rule of a keyword on corresponding operands. -/
theorem keyword (k : Keyword) {v v' : Value} {f f' : FrameId} (hf : S.frame w f f')
    (hv : S.value w v v') : S.Agree w S.step (k.run ev v f) (k.run ev' v' f') := by
  have ho : ∀ least most, S.Agree w (fun w => List.Forall₂ (S.value w))
      (check (Form.operands k.name v least most)) (check (Form.operands k.name v' least most)) :=
    fun least most => .check (operands k.name least most hv)
  have hbad : ∀ w', w ≤ w' → S.fault w' (.badForm k.name v) (.badForm k.name v') :=
    fun w' hw => .badForm _ (expr_of_value (S.value_mono hw hv))
  cases k with
  | quote =>
    refine (ho 1 (some 1)).bind fun w₁ xs xs' hw₁ hxs => ?_
    rcases hxs with _ | ⟨hx, _ | ⟨_, _⟩⟩
    · exact .fail (hbad w₁ hw₁)
    · exact .pure (.done hx)
    · exact .fail (hbad w₁ hw₁)
  | conditional =>
    refine (ho 3 (some 3)).bind fun w₁ xs xs' hw₁ hxs => ?_
    rcases hxs with _ | ⟨ht, _ | ⟨ha, _ | ⟨hb, _ | ⟨_, _⟩⟩⟩⟩
    · exact .fail (hbad w₁ hw₁)
    · exact .fail (hbad w₁ hw₁)
    · exact .fail (hbad w₁ hw₁)
    · refine (eval hev ht (S.frame_mono hw₁ hf)).bind fun w₂ c c' hw₂ hc => ?_
      have hg := S.frame_mono (hw₁.trans hw₂) hf
      rw [isTrue_eq hc]
      cases c'.isTrue
      · exact .pure (.next (expr_of_value (S.value_mono hw₂ hb)) hg)
      · exact .pure (.next (expr_of_value (S.value_mono hw₂ ha)) hg)
    · exact .fail (hbad w₁ hw₁)
  | conjunction =>
    exact (ho 0 .none).bind fun _ _ _ hw hx => conjunction hev (S.frame_mono hw hf) hx
  | disjunction =>
    exact (ho 0 .none).bind fun _ _ _ hw hx => disjunction hev (S.frame_mono hw hf) hx
  | cond => exact (ho 0 .none).bind fun _ _ _ hw hx => clauses hev (S.frame_mono hw hf) hx
  | sequence => exact (ho 1 .none).bind fun _ _ _ hw hx => body hev (S.frame_mono hw hf) hx
  | bindings =>
    refine (ho 2 .none).bind fun w₁ xs xs' hw₁ hxs => ?_
    rcases hxs with _ | ⟨hb, hs⟩
    · exact .fail (hbad w₁ hw₁)
    · exact bind hev (S.frame_mono hw₁ hf) hb hs
  | lambda => exact (procedureOf .lambda (.lexical hf) hv).bind fun _ _ _ _ hp => .pure (.done hp)
  | mu => exact (procedureOf .mu .dynamic hv).bind fun _ _ _ _ hp => .pure (.done hp)
  | define => exact defineForm hev hf hv

/-! ## Loading -/

theorem evalDatum {f f' : FrameId} (hf : S.frame w f f') (d : Datum) :
    S.Agree w S.value (Scheme.evalDatum ev f d) (Scheme.evalDatum ev' f' d) :=
  (Agree.embedOnto d .nil).bind fun _ _ _ hw hv => eval hev hv (S.frame_mono hw hf)

/-- A datum is loaded with the same count of failures, since both sides fail or neither does. -/
theorem loadDatum (hl : ∀ e, ¬S.lax (.fault e)) {f f' : FrameId} (hf : S.frame w f f') (n : Nat)
    (d : Datum) :
    S.Agree w (fun _ => Eq) (Scheme.loadDatum ev f n d) (Scheme.loadDatum ev' f' n d) := by
  refine (Agree.attempt hl (evalDatum hev hf d)).bind fun w₁ r r' _ hr => ?_
  cases hr with
  | ok _ => exact .pure rfl
  | error he =>
    refine (report he).bind fun _ t _ _ ht => ht ▸ ?_
    exact (Agree.emitError t).bind fun _ _ _ _ _ => .pure rfl

theorem loadProgram (hl : ∀ e, ¬S.lax (.fault e)) (origin : String) {f f' : FrameId}
    (hf : S.frame w f f') (p : Program) :
    S.Agree w (fun _ => Eq) (Scheme.loadProgram ev origin f p)
      (Scheme.loadProgram ev' origin f' p) := by
  refine (Agree.foldlM fun w' n d hw => loadDatum hev hl (S.frame_mono hw hf) n d).bind ?_
  intro _ n _ _ hn
  subst hn
  cases p.ending.error? with
  | none => exact .pure rfl
  | some e => exact .fail (fault_plain rfl)

/-- Both sides find the same file, if any, and load it in step to the same answer. -/
theorem loadFile (name : String) {f f' : FrameId} (hf : S.frame w f f') :
    S.Agree w (fun _ => Eq) (Scheme.loadFile ev name f) (Scheme.loadFile ev' name f') := by
  refine (findSource name).bind fun w₁ r r' hw₁ hr => ?_
  obtain ⟨rfl, hl⟩ := hr
  obtain ⟨path, bytes⟩ := r
  cases hs : String.fromUTF8? bytes with
  | some source =>
    simp only [hs]
    exact (rootFrame (S.frame_mono hw₁ hf)).bind fun _ _ _ _ hg => loadProgram hev hl path hg _
  | none =>
    simp only [hs]
    exact .fail (fault_plain rfl)

/-! ## Calls -/

/-- The procedures that evaluate and load agree on corresponding arguments. -/
theorem controlOp {args args' : List Value} {f f' : FrameId}
    (h : List.Forall₂ (S.value w) args args') (hf : S.frame w f f') (op : ControlOp) :
    S.Agree w S.value (op.run ev (args ++ [.env f])) (op.run ev' (args' ++ [.env f'])) := by
  have hl : ∀ name, S.Agree w S.value (do let _ ← Scheme.loadFile ev name f; return .undefined)
      (do let _ ← Scheme.loadFile ev' name f'; return .undefined) := fun name =>
    (loadFile hev name hf).bind fun w' _ _ _ _ => .pure (S.constant w' rfl)
  have hc : ∀ k, S.fault w (.wrongCount k args.length) (.wrongCount k args'.length) := by
    intro k
    rw [h.length_eq]
    exact fault_plain rfl
  have ho : S.fault w (.oneFileExpected args.length) (.oneFileExpected args'.length) := by
    rw [h.length_eq]
    exact fault_plain rfl
  unfold ControlOp.run
  simp only [Arguments.withFrame, List.getLast?_concat, List.dropLast_concat, check, pure_bind]
  cases op with
  | eval =>
    rcases h with _ | ⟨he, _ | ⟨_, _⟩⟩
    · exact .fail (hc 1)
    · exact eval hev he hf
    · exact .fail (hc 1)
  | apply =>
    rcases h with _ | ⟨hp, _ | ⟨hv, _ | ⟨_, _⟩⟩⟩
    · exact .fail (hc 2)
    · exact .fail (hc 2)
    · rcases spine_cases hv with ⟨xs, xs', hs, hs', hx⟩ | ⟨hn, hn'⟩
      · simp only [hs, hs']
        exact hev _ _ _ (.apply hp hx hf)
      · dsimp only
        split
        · next xs hs => exact absurd hs (hn xs)
        · exact .fail (.notArgumentList (expr_of_value hv))
    · exact .fail (hc 2)
  | load =>
    rcases h with _ | ⟨hv, _ | ⟨_, _⟩⟩
    · exact .fail ho
    · have hn := Fault.Alike.notFileName (expr_of_value hv)
      cases S.layer hv with
      | sym name => exact hl name
      | str _ _ name => exact hl name
      | _ => exact .fail hn
    · cases S.layer hv <;> exact .fail ho

/-- A built-in procedure agrees with itself on corresponding arguments, its faults under its name
included. -/
theorem call (b : Builtin) (hp : S.permits b) {args args' : List Value} {f f' : FrameId}
    (h : List.Forall₂ (S.value w) args args') (hf : S.frame w f f') :
    S.Agree w S.value (b.call ev args f) (b.call ev' args' f') := by
  refine inside b.name ?_
  cases b with
  | numeric op => exact .check (numericOp h op)
  | list op => exact listOp h op
  | test t => exact .check (test h t)
  | likeness l => exact .check (likeness h l)
  | output op => exact outputOp h op
  | control op => exact controlOp hev h hf op
  | host op => exact hostOp h hf op hp

/-- Applying corresponding values is a corresponding step. -/
theorem applyStep {p p' : Value} {args args' : Except Fault (List Value)} {f f' : FrameId}
    (hp : S.value w p p') (ha : S.Checked w (List.Forall₂ (S.value w)) args args')
    (hf : S.frame w f f') :
    S.Agree w S.step (Scheme.applyStep ev p args f) (Scheme.applyStep ev' p' args' f') := by
  have hn := Fault.Alike.notCallable (expr_of_value hp)
  cases S.layer hp with
  | builtin b hb =>
    cases ha with
    | ok ha => exact (call hev b hb ha hf).bind fun _ _ _ _ hv => .pure (.done hv)
    | error he => exact .fail he
  | @closure _ _ s s' _ _ _ _ hs hx hbody =>
    have hparent : S.frame w (s.parent f) (s'.parent f') := by
      cases hs with
      | lexical hg => exact hg
      | dynamic => exact hf
    exact (callFrameOf hparent hx ha).bind fun _ _ _ hw hg =>
      .pure (.next (expr_mono hw (sequence hbody)) hg)
  | _ => exact .fail hn

/-! ## Expressions -/

/-- Operands are evaluated in step from left to right, to the end of the chain. -/
theorem evalOperands {v v' : Value} {f f' : FrameId} (hv : S.value w v v')
    (hf : S.frame w f f') :
    S.Agree w (fun w => List.Forall₂ (S.value w)) (Scheme.evalOperands ev v f)
      (Scheme.evalOperands ev' v' f') := by
  have hwalk := walk hv
  unfold Scheme.evalOperands mapItems
  revert hwalk
  generalize v.walk = p, v'.walk = p'
  obtain ⟨xs, fault⟩ := p
  obtain ⟨xs', fault'⟩ := p'
  rintro ⟨hx, he⟩
  refine (Agree.mapM (Q := S.value) (fun _ _ _ _ hw => S.value_mono hw) hx
    fun w' _ _ hw hv => eval hev hv (S.frame_mono hw hf)).bind fun w₁ ys ys' hw₁ hys => ?_
  cases he with
  | none => exact .pure hys
  | some he => exact .fail (fault_mono hw₁ he)

/-- Corresponding expressions take corresponding steps, for each form and for calls. -/
theorem evalStep {e e' : Value} {f f' : FrameId} (he : S.expr w e e') (hf : S.frame w f f') :
    S.Agree w S.step (Scheme.evalStep ev e f) (Scheme.evalStep ev' e' f') := by
  have hbad := Fault.Alike.malformedList he
  rcases he with he | ⟨b, b', rfl, rfl, hb⟩
  · cases S.layer he with
    | undefined => exact .fail (fault_plain rfl)
    | sym x => exact (Agree.lookup x hf).bind fun _ _ _ _ hv => .pure (.done hv)
    | pair i j hhead hops =>
      simp only [Scheme.evalStep]
      rw [isProper_eq hops, ofValue?_eq hhead]
      refine .ite (.fail hbad) ?_
      split
      · exact keyword hev _ hf hops
      · refine (eval hev hhead hf).bind fun w₁ _ _ hw₁ hp => ?_
        have hf₁ := S.frame_mono hw₁ hf
        refine (evalOperands hev (S.value_mono hw₁ hops) hf₁).bind fun w₂ _ _ hw₂ hargs => ?_
        exact applyStep hev (S.value_mono hw₂ hp) (.ok hargs) (S.frame_mono hw₂ hf₁)
    | _ => exact .pure (.done he)
  · simp only [Scheme.evalStep]
    rw [isProper_eq hb]
    exact .ite (.fail hbad) (keyword hev .sequence hf hb)

/-- The steps of one evaluation agree, however many there are. -/
theorem loop : ∀ (n : Nat) {w : W} {e e' : Value} {f f' : FrameId}, S.expr w e e' →
    S.frame w f f' → S.Agree w S.value (Scheme.loop ev n e f) (Scheme.loop ev' n e' f')
  | 0, _, _, _, _, _, _, _ => .halt _
  | n + 1, _, _, _, _, _, he, hf => by
    rw [loop_succ, loop_succ]
    exact (evalStep hev he hf).bind fun _ _ _ _ hs => settle hs fun he hf => loop n he hf

omit hev in
/-- Corresponding tasks have corresponding outcomes. -/
theorem run [S.Nests] : ∀ n : Nat, S.Evaluators (Scheme.run n) (Scheme.run n)
  | 0, _, _, _, _ => .halt _
  | n + 1, _, _, _, .eval he hf => .nested (loop (run n) (n + 1) he hf)
  | n + 1, _, _, _, .apply hp ha hf => by
    rw [run_apply, run_apply]
    exact (applyStep (run n) hp (.ok ha) hf).bind fun _ _ _ _ hs =>
      settle hs fun he hf => run n _ _ _ (.eval he hf)

end Simulation

end Scheme
