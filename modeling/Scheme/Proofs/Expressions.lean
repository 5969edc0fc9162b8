import Scheme.Proofs.Procedures

/-!
# Steps of expressions by their parts

An expression is a list, and its rule depends on the elements only: not on the labels of the pairs
that hold them. `Value.Lists` says which elements a list has, and there is one equation for each
kind of expression that gives its step in terms of them (`Value.Lists.step_conditional` and so on).
The checks of a form's shape have then been made.
-/

namespace Scheme

open EvalM

namespace Value

/-- The value is a list with these elements. -/
def Lists (v : Value) (xs : List Value) : Prop := v.spine = (xs, .nil)

theorem lists_nil_iff {v : Value} : v.Lists [] ↔ v = .nil :=
  ⟨eq_nil_of_spine, fun h => h ▸ rfl⟩

theorem lists_cons_iff {v a : Value} {xs : List Value} :
    v.Lists (a :: xs) ↔ ∃ i d, v = .pair i a d ∧ d.Lists xs := by
  constructor
  · intro h
    cases v with
    | pair i b d =>
      rw [Lists, spine_pair, Prod.mk.injEq, List.cons.injEq] at h
      obtain ⟨⟨rfl, hxs⟩, hend⟩ := h
      exact ⟨i, d, rfl, Prod.ext hxs hend⟩
    | _ => simp [Lists, spine, spineOnto] at h
  · rintro ⟨i, d, rfl, h⟩
    rw [Lists, spine_pair, h]

namespace Lists

variable {e a : Value} {xs es : List Value}

theorem isProper (h : e.Lists xs) : e.isProper = true := by
  induction xs generalizing e with
  | nil =>
    obtain rfl := lists_nil_iff.mp h
    rfl
  | cons x xs ih =>
    obtain ⟨i, d, rfl, hd⟩ := lists_cons_iff.mp h
    exact ih (e := d) hd

theorem ne_sym (h : e.Lists xs) (x : String) : e ≠ .sym x := by
  rintro rfl
  cases congrArg Prod.snd h

theorem isNil_eq (h : e.Lists xs) : e.isNil = xs.isEmpty := by
  cases xs with
  | nil =>
    obtain rfl := lists_nil_iff.mp h
    rfl
  | cons x xs =>
    obtain ⟨i, d, rfl, -⟩ := lists_cons_iff.mp h
    rfl

theorem items_eq (h : e.Lists xs) : e.items = .ok xs := by
  unfold items
  rw [h]

/-- A list within the bounds of a form passes its check, with its elements. -/
theorem operands_eq (h : e.Lists xs) {k : String} {least : Nat} {most : Option Nat}
    (hl : least ≤ xs.length) (hm : ∀ n ∈ most, xs.length ≤ n) :
    Form.operands k e least most = .ok xs :=
  Form.operands_eq_ok_iff.2 ⟨h, hl, hm⟩

/-! ## Forms -/

variable (ev : Evaluator) (f : FrameId)

/-- A form starts with its keyword, and its step is the rule on the operands. -/
theorem evalStep_keyword {ops : Value} (h : ops.Lists es) (k : Keyword) (i : Label) :
    evalStep ev (.pair i (.sym k.name) ops) f = k.run ev ops f := by
  simp only [evalStep, h.isProper, Bool.not_true, Bool.false_eq_true, if_false,
    Keyword.ofValue?, Keyword.ofName?_name]

/-- A list that starts with a keyword takes a step by the rule of this keyword. -/
theorem step_keyword (k : Keyword) (h : e.Lists (.sym k.name :: es)) :
    ∃ ops : Value, ops.Lists es ∧ evalStep ev e f = k.run ev ops f := by
  obtain ⟨i, ops, rfl, hops⟩ := lists_cons_iff.mp h
  exact ⟨ops, hops, hops.evalStep_keyword ev f k i⟩

theorem step_quote (h : e.Lists [.sym "quote", a]) : evalStep ev e f = pure (.done a) := by
  obtain ⟨ops, hops, hstep⟩ := h.step_keyword ev f .quote
  rw [hstep, Keyword.run, hops.operands_eq (by simp) (by simp)]
  rfl

/-- A conditional evaluates its test and goes on with one of its branches. -/
theorem step_conditional {t b : Value} (h : e.Lists [.sym "if", t, a, b]) :
    evalStep ev e f = (do
      let v ← ev (.eval t f)
      return .next (if v.isTrue then a else b) f) := by
  obtain ⟨ops, hops, hstep⟩ := h.step_keyword ev f .conditional
  rw [hstep, Keyword.run, hops.operands_eq (by simp) (by simp)]
  rfl

theorem step_conjunction (h : e.Lists (.sym "and" :: es)) :
    evalStep ev e f = Form.conjunction ev f es := by
  obtain ⟨ops, hops, hstep⟩ := h.step_keyword ev f .conjunction
  rw [hstep, Keyword.run, hops.operands_eq (by simp) (by simp)]
  rfl

theorem step_disjunction (h : e.Lists (.sym "or" :: es)) :
    evalStep ev e f = Form.disjunction ev f es := by
  obtain ⟨ops, hops, hstep⟩ := h.step_keyword ev f .disjunction
  rw [hstep, Keyword.run, hops.operands_eq (by simp) (by simp)]
  rfl

theorem step_clauses (h : e.Lists (.sym "cond" :: es)) :
    evalStep ev e f = Form.clauses ev f es := by
  obtain ⟨ops, hops, hstep⟩ := h.step_keyword ev f .cond
  rw [hstep, Keyword.run, hops.operands_eq (by simp) (by simp)]
  rfl

theorem step_sequence (h : e.Lists (.sym "begin" :: es)) (hes : es ≠ []) :
    evalStep ev e f = Form.body ev f es := by
  obtain ⟨ops, hops, hstep⟩ := h.step_keyword ev f .sequence
  rw [hstep, Keyword.run, hops.operands_eq (List.length_pos_iff.mpr hes) (by simp)]
  rfl

/-- A `lambda` makes a procedure of its parameters and the list of its expressions. -/
theorem evalStep_lambda {body : Value} (h : body.Lists es) (hes : es ≠ []) (i j : Label)
    (formals : Value) : evalStep ev (.pair i (.sym "lambda") (.pair j formals body)) f = (do
      return .done (← newProcedure (.lexical f) formals body)) := by
  have hops : (Value.pair j formals body).Lists (formals :: es) :=
    lists_cons_iff.mpr ⟨j, body, rfl, h⟩
  have hlen : 2 ≤ (formals :: es).length := Nat.succ_le_succ (List.length_pos_iff.mpr hes)
  refine (hops.evalStep_keyword ev f .lambda i).trans ?_
  rw [Keyword.run, procedureOf, hops.operands_eq hlen (by simp)]
  rfl

/-- A procedure expression makes a procedure of the present frame. -/
theorem step_lambda {formals : Value} (h : e.Lists (.sym "lambda" :: formals :: es))
    (hes : es ≠ []) : ∃ body : Value, body.Lists es ∧ ∀ ev f, evalStep ev e f = (do
      return .done (← newProcedure (.lexical f) formals body)) := by
  obtain ⟨i, ops, rfl, hops⟩ := lists_cons_iff.mp h
  obtain ⟨j, body, rfl, hbody⟩ := lists_cons_iff.mp hops
  exact ⟨body, hbody, fun ev f => hbody.evalStep_lambda ev f hes i j formals⟩

/-! ## Calls -/

/-- A list that starts with no keyword is a call: operator, operands, application. -/
theorem step_call (h : e.Lists (a :: es)) (ha : Keyword.ofValue? a = none) :
    evalStep ev e f = (do
      let p ← ev (.eval a f)
      let args ← es.mapM fun e => ev (.eval e f)
      applyStep ev p (.ok args) f) := by
  obtain ⟨i, ops, rfl, hops⟩ := lists_cons_iff.mp h
  simp only [evalStep, hops.isProper, Bool.not_true, Bool.false_eq_true, if_false, ha,
    evalOperands_eq hops]

end Lists

/-- A chain of pairs is a list if it ends in the empty list. -/
theorem exists_lists_iff {v : Value} : (∃ xs, v.Lists xs) ↔ v.isProper = true := by
  refine ⟨fun ⟨_, h⟩ => h.isProper, fun h => ?_⟩
  induction v with
  | pair i a d _ ih =>
    obtain ⟨xs, hd⟩ := ih h
    exact ⟨a :: xs, lists_cons_iff.mpr ⟨i, d, rfl, hd⟩⟩
  | nil => exact ⟨[], rfl⟩
  | _ => cases h

theorem Lists.length_eq {v : Value} {xs : List Value} (h : v.Lists xs) :
    v.length = .ok xs.length := by
  have hcount : ∀ (whole : Value) (n : Nat), countOnto whole n v = .ok (n + xs.length) := by
    intro whole n
    induction xs generalizing v n with
    | nil =>
      obtain rfl := lists_nil_iff.mp h
      rfl
    | cons a xs ih =>
      obtain ⟨i, d, rfl, hd⟩ := lists_cons_iff.mp h
      rw [countOnto, ih hd, List.length_cons, Nat.add_assoc, Nat.add_comm 1]
  rw [Value.length, hcount, Nat.zero_add]

end Value

/-- A body evaluates all expressions but the last, which is left. -/
theorem Form.body_append (ev : Evaluator) (f : FrameId) (es : List Value) (e : Value) :
    body ev f (es ++ [e]) = (do
      let _ ← es.mapM fun e => ev (.eval e f)
      return .next e f) := by
  induction es with
  | nil => rfl
  | cons a es ih =>
    rw [List.cons_append, body, ih, List.mapM_cons]
    · simp only [bind_assoc, pure_bind]
    · simp

/-- A body is left as the one expression that it stands for, or it is the step of that expression:
only a body of more than one is a sequence. -/
theorem Form.body_cases {v : Value} {bs : List Value} (h : v.Lists bs) (hbs : bs ≠ []) :
    (∀ ev f, body ev f bs = pure (.next v.sequence f)) ∨
      ∀ ev f, body ev f bs = evalStep ev v.sequence f := by
  cases bs with
  | nil => exact absurd rfl hbs
  | cons b bs =>
    obtain ⟨i, d, rfl, hd⟩ := Value.lists_cons_iff.mp h
    cases bs with
    | nil =>
      obtain rfl := Value.lists_nil_iff.mp hd
      exact .inl fun _ _ => rfl
    | cons b' bs =>
      obtain ⟨j, d, rfl, -⟩ := Value.lists_cons_iff.mp hd
      refine .inr fun ev f => (Value.Lists.step_sequence ev f ?_ hbs).symm
      exact Value.lists_cons_iff.mpr ⟨_, _, rfl, h⟩

/-! ## Bindings -/

/-- The expression binds names to the values of expressions in front of a body: it is
`(let ((x e) ..) b ..)`. -/
def Value.Lets (e : Value) (bound : List (String × Value)) (bs : List Value) : Prop :=
  ∃ v vs, e.Lists (.sym "let" :: v :: bs) ∧ v.Lists vs ∧
    List.Forall₂ (fun b p => b.Lists [.sym p.1, p.2]) vs bound

/-- Behind an action on the elements of a list there are as many results. -/
theorem EvalM.mapM_bind_congr {α β γ : Type} {g : α → EvalM β} {k k' : List β → EvalM γ}
    {xs : List α} (h : ∀ ys, ys.length = xs.length → k ys = k' ys) :
    xs.mapM g >>= k = xs.mapM g >>= k' := by
  induction xs generalizing k k' with
  | nil =>
    rw [List.mapM_nil, pure_bind, pure_bind]
    exact h [] rfl
  | cons x xs ih =>
    simp only [List.mapM_cons, bind_assoc, pure_bind]
    congr 1
    funext y
    exact ih fun ys hys => h (y :: ys) (congrArg (· + 1) hys)

namespace Form

variable (ev : Evaluator) (f : FrameId)

/-- The initial values of well formed bindings are those of their expressions, in order. -/
theorem mapM_binding {vs : List Value} {bound : List (String × Value)}
    (h : List.Forall₂ (fun b p => b.Lists [.sym p.1, p.2]) vs bound) :
    vs.mapM (binding ev f) = (do
      let us ← bound.mapM fun p => ev (.eval p.2 f)
      return (bound.map fun p => .sym p.1).zip us) := by
  induction h with
  | nil => rfl
  | @cons b p _ _ hb _ ih =>
    have hone : binding ev f b = (do return (.sym p.1, ← ev (.eval p.2 f))) := by
      rw [binding, hb.operands_eq (by simp) (by simp)]
    rw [List.mapM_cons, List.mapM_cons, hone, ih]
    simp only [bind_assoc, pure_bind, List.map_cons, List.zip_cons_cons]

/-- Called with as many arguments as it has different names, a parameter list binds them
pairwise. -/
theorem callFrame_names {xs : List String} (hn : xs.Nodup) {us : List Value}
    (hlen : us.length = xs.length) :
    callFrame f (xs.map .sym) us = newFrame (some f) (xs.zip us) := by
  have hnames : Bindings.putAll [] (xs.zip us) = xs.zip us := by
    refine Bindings.putAll_of_nodup ?_
    rwa [List.nil_append, Bindings.names, List.map_fst_zip hlen.ge]
  rw [callFrame, List.length_map, if_neg (not_not_intro hlen.symm),
    parameterBindings_eq [] hlen.symm, hnames]
  rfl

end Form

/-- A new frame that binds the names to the values of their expressions. All of them are evaluated
in the present frame, before there is a new one. -/
def boundFrame (ev : Evaluator) (f : FrameId) (bound : List (String × Value)) : EvalM FrameId := do
  let us ← bound.mapM fun p => ev (.eval p.2 f)
  newFrame (some f) ((bound.map Prod.fst).zip us)

/-- A `let` makes a frame of its bindings and goes on with its body there. -/
theorem Value.Lets.step {e : Value} {bound : List (String × Value)} {bs : List Value}
    (h : e.Lets bound bs) (hn : (bound.map Prod.fst).Nodup) (hbs : bs ≠ []) (ev : Evaluator)
    (f : FrameId) : evalStep ev e f = (do
      let g ← boundFrame ev f bound
      Form.body ev g bs) := by
  obtain ⟨v, vs, he, hv, hvs⟩ := h
  obtain ⟨ops, hops, hstep⟩ := he.step_keyword ev f .bindings
  have hlen : 2 ≤ (v :: bs).length := Nat.succ_le_succ (List.length_pos_iff.mpr hbs)
  have hnames : Form.names ((bound.map Prod.fst).map .sym) = .ok (bound.map Prod.fst) :=
    (Form.distinctNames_eq_ok_iff List.nodup_nil).mpr ⟨_, rfl, rfl, hn⟩
  rw [hstep, Keyword.run, hops.operands_eq hlen (by simp)]
  change Form.bind ev f v bs = _
  simp only [Form.bind, hv.isProper, hv.items_eq, Form.mapM_binding ev f hvs, check, Bool.not_true,
    Bool.false_eq_true, if_false, pure_bind, bind_assoc, boundFrame]
  refine EvalM.mapM_bind_congr fun us hus => ?_
  have hfst : ((bound.map fun p => Value.sym p.1).zip us).map Prod.fst =
      (bound.map Prod.fst).map .sym := by
    rw [List.map_fst_zip (by simp [hus]), List.map_map]
    rfl
  have hsnd : ((bound.map fun p => Value.sym p.1).zip us).map Prod.snd = us :=
    List.map_snd_zip (by simp [hus])
  rw [hfst, hsnd, hnames, Form.callFrame_names f hn (by simp [hus])]
  rfl

/-! ## Clauses -/

namespace Form

variable (ev : Evaluator) (f : FrameId) {t c : Value} {bs : List Value} (cs : List Value)

theorem chosen_of_lists (test : Value) (h : c.Lists bs) (hbs : bs ≠ []) :
    chosen ev f test c = body ev f bs := by
  rw [chosen, h.isNil_eq, List.isEmpty_eq_false_iff.mpr hbs,
    h.operands_eq (List.length_pos_iff.mpr hbs) (by simp)]
  rfl

/-- A clause with expressions: they are evaluated in order if the test is true. -/
theorem clauses_cons (h : c.Lists (t :: bs)) (ht : t ≠ .sym "else") (hbs : bs ≠ []) :
    clauses ev f (c :: cs) = (do
      let v ← ev (.eval t f)
      if v.isTrue then body ev f bs else clauses ev f cs) := by
  obtain ⟨i, d, rfl, hd⟩ := Value.lists_cons_iff.mp h
  simp only [clauses_test ev f i d cs ht, hd.isProper, Bool.not_true, Bool.false_eq_true, if_false,
    chosen_of_lists ev f _ hd hbs]

/-- A clause that is only a test: its value is the value of the whole if it is true. -/
theorem clauses_test_only (h : c.Lists [t]) (ht : t ≠ .sym "else") :
    clauses ev f (c :: cs) = (do
      let v ← ev (.eval t f)
      if v.isTrue then pure (.done v) else clauses ev f cs) := by
  obtain ⟨i, d, rfl, hd⟩ := Value.lists_cons_iff.mp h
  obtain rfl := Value.lists_nil_iff.mp hd
  exact clauses_test ev f i .nil cs ht

/-- An `else` clause at the end goes on with its body. -/
theorem clauses_otherwise (h : c.Lists (.sym "else" :: bs)) (hbs : bs ≠ []) :
    clauses ev f [c] = body ev f bs := by
  obtain ⟨i, d, rfl, hd⟩ := Value.lists_cons_iff.mp h
  simp only [clauses_else, hd.isProper, otherwise, hd.isNil_eq, List.isEmpty_eq_false_iff.mpr hbs,
    chosen_of_lists ev f _ hd hbs, List.isEmpty_nil, Bool.not_true, Bool.false_eq_true, if_false]

end Form

end Scheme
