import Mathlib.Data.List.Forall2
import Scheme.Proofs.Reachability
import Scheme.Proofs.Reading.RoundTrip
import Scheme.Proofs.Trampoline

/-!
# Rules of evaluation

What an expression comes to, without steps and without fuel. `ComesTo k s f d v s'` says that in
frame `f` of the store `s` every expression that `d` spells has the value `v` and leaves the store
`s'`, provided there is room for `k` levels of nested evaluations. There is one rule for each kind
of expression, and each of them is about the loop that takes the steps: a part whose value is needed
on the way is nested and takes one level more than its own parts do, and a part in tail position
takes the place of the whole at the same `k`. So a chain of tail calls of any length fits into a
fixed number of levels.

The rules are those for expressions that make no objects: constants, names, calls, and the forms in
which an expression can stand in tail position. `Defines` is the rule for definitions of procedures,
and `Store.Shows` what such definitions, calls and `let` do to the names that a frame can see.
-/

namespace Scheme

open EvalM

/-! ## Expressions and their data -/

@[simp]
theorem denotes_sym_iff {v : Value} {x : String} : Denotes v (.sym x) ↔ v = .sym x :=
  ⟨fun h => by cases h; rfl, fun h => h ▸ .sym x⟩

@[simp]
theorem denotes_int_iff {v : Value} {i : Int} : Denotes v (.int i) ↔ v = .int i :=
  ⟨fun h => by cases h; rfl, fun h => h ▸ .int i⟩

@[simp]
theorem denotes_bool_iff {v : Value} {b : Bool} : Denotes v (.bool b) ↔ v = .bool b :=
  ⟨fun h => by cases h; rfl, fun h => h ▸ .bool b⟩

@[simp]
theorem denotes_ofList_nil {v : Value} : Denotes v (.ofList []) ↔ v = .nil :=
  ⟨fun h => by cases h; rfl, fun h => h ▸ .nil⟩

/-- A value denotes a list if it is a pair of an element and the rest. -/
@[simp]
theorem denotes_ofList_cons {v : Value} {d : Datum} {ds : List Datum} :
    Denotes v (.ofList (d :: ds)) ↔
      ∃ i a w, v = .pair i a w ∧ Denotes a d ∧ Denotes w (.ofList ds) := by
  rw [Datum.ofList_cons]
  constructor
  · intro h
    cases h with
    | pair i ha hw => exact ⟨i, _, _, rfl, ha, hw⟩
  · rintro ⟨i, a, w, rfl, ha, hw⟩
    exact .pair i ha hw

theorem denotes_ite {p : Prop} [Decidable p] {v w : Value} {a b : Datum} (hv : Denotes v a)
    (hw : Denotes w b) : Denotes (if p then v else w) (if p then a else b) := by
  split
  · exact hv
  · exact hw

/-- A value that a list of data spells is a list of values that they spell. -/
theorem Denotes.spine {ds : List Datum} {v : Value} (h : Denotes v (.ofList ds)) :
    ∃ es, v.spine = (es, .nil) ∧ v.isProper = true ∧ List.Forall₂ Denotes es ds := by
  induction ds generalizing v with
  | nil =>
    obtain rfl := denotes_ofList_nil.mp h
    exact ⟨[], rfl, rfl, .nil⟩
  | cons d ds ih =>
    obtain ⟨i, a, w, rfl, ha, hw⟩ := denotes_ofList_cons.mp h
    obtain ⟨es, hs, hp, hes⟩ := ih hw
    exact ⟨a :: es, by rw [Value.spine_pair, hs], hp, .cons ha hes⟩

theorem evalOperands_eq {ops : Value} {es : List Value} (h : ops.spine = (es, .nil))
    (ev : Evaluator) (f : FrameId) :
    evalOperands ev ops f = es.mapM fun e => ev (.eval e f) := by
  simp only [evalOperands, mapItems, Value.walk, h, bind_pure]

/-- One step of a call by name. -/
theorem evalStep_call {x : String} {ops : Value} {es : List Value}
    (hx : Keyword.ofName? x = none) (hp : ops.isProper = true) (hs : ops.spine = (es, .nil))
    (ev : Evaluator) (i : Label) (f : FrameId) :
    evalStep ev (.pair i (.sym x) ops) f = (do
      let p ← ev (.eval (.sym x) f)
      let args ← es.mapM fun e => ev (.eval e f)
      applyStep ev p (.ok args) f) := by
  simp only [evalStep, hp, Bool.not_true, Bool.false_eq_true, if_false, Keyword.ofValue?, hx,
    evalOperands_eq hs]

/-! ## What expressions come to -/

/-- In frame `f` of the store `s` the expressions that `d` spells have the value `v` and leave the
store `s'`, if there is room for `k` levels of nested evaluations. -/
def ComesTo (k : Nat) (s : Store) (f : FrameId) (d : Datum) (v : Value) (s' : Store) : Prop :=
  ∀ ⦃m : Machine⦄, m.store = s → m.depth + k ≤ maxDepth → ∀ ⦃e : Value⦄, Denotes e d →
    ∃ b, ∀ n l, b ≤ n → b ≤ l → loop (run n) l e f m = .ok v { m with store := s' }

namespace ComesTo

variable {k : Nat} {s s₁ s' : Store} {f f' : FrameId} {d d' : Datum} {v r : Value}

/-- A step that finishes. -/
theorem of_done
    (h : ∀ ⦃m : Machine⦄, m.store = s → m.depth + k ≤ maxDepth → ∀ ⦃e : Value⦄, Denotes e d →
      ∃ b, ∀ n, b ≤ n → evalStep (run n) e f m = .ok (.done v) { m with store := s' }) :
    ComesTo k s f d v s' := by
  intro m hm hd e he
  obtain ⟨b, hb⟩ := h hm hd he
  refine ⟨b + 1, fun n l hn hl => ?_⟩
  obtain ⟨l, rfl⟩ : ∃ l', l = l' + 1 := ⟨l - 1, by omega⟩
  rw [loop_succ, bind_ok (hb n (by omega))]
  rfl

/-- A step that leaves an expression, which then takes the place of the whole. -/
theorem of_next (hnext : ComesTo k s₁ f' d' v s')
    (h : ∀ ⦃m : Machine⦄, m.store = s → m.depth + k ≤ maxDepth → ∀ ⦃e : Value⦄, Denotes e d →
      ∃ e', Denotes e' d' ∧ ∃ b, ∀ n, b ≤ n →
        evalStep (run n) e f m = .ok (.next e' f') { m with store := s₁ }) :
    ComesTo k s f d v s' := by
  intro m hm hd e he
  obtain ⟨e', he', b, hb⟩ := h hm hd he
  obtain ⟨b', hb'⟩ := hnext (m := { m with store := s₁ }) rfl hd he'
  refine ⟨max b b' + 1, fun n l hn hl => ?_⟩
  obtain ⟨l, rfl⟩ : ∃ l', l = l' + 1 := ⟨l - 1, by omega⟩
  rw [loop_succ, bind_ok (hb n (by omega))]
  exact hb' n l (by omega) (by omega)

/-- A nested evaluation takes a level of its own. -/
theorem nested (h : ComesTo k s f d v s') {m : Machine} (hm : m.store = s)
    (hd : m.depth + (k + 1) ≤ maxDepth) {e : Value} (he : Denotes e d) :
    ∃ b, ∀ n, b ≤ n → run n (.eval e f) m = .ok v { m with store := s' } := by
  obtain ⟨b, hb⟩ := h (m := { m with depth := m.depth + 1 }) hm
    (by simp only [Nat.add_assoc, Nat.add_comm 1 k]; exact hd) he
  refine ⟨b + 1, fun n hn => ?_⟩
  obtain ⟨n, rfl⟩ : ∃ n', n = n' + 1 := ⟨n - 1, by omega⟩
  have hlt : ¬maxDepth ≤ m.depth := by omega
  simp only [run, EvalM.nested, if_neg hlt, hb n (n + 1) (by omega) (by omega), Nat.add_sub_cancel]

/-- The operands of a call are nested one after the other. -/
theorem nested_operands {ds : List Datum} {vs : List Value}
    (h : List.Forall₂ (fun d v => ComesTo k s f d v s) ds vs) {m : Machine} (hm : m.store = s)
    (hd : m.depth + (k + 1) ≤ maxDepth) {es : List Value} (he : List.Forall₂ Denotes es ds) :
    ∃ b, ∀ n, b ≤ n → es.mapM (fun e => run n (.eval e f)) m = .ok vs m := by
  subst hm
  induction h generalizing es with
  | nil =>
    cases he
    exact ⟨0, fun n _ => rfl⟩
  | cons hv _ ih =>
    cases he with
    | cons he hes =>
      obtain ⟨b, hb⟩ := hv.nested rfl hd he
      obtain ⟨b', hb'⟩ := ih hes
      refine ⟨max b b', fun n hn => ?_⟩
      rw [List.mapM_cons, bind_ok (hb n (by omega)), bind_ok (hb' n (by omega))]
      rfl

/-! ## Constants and names -/

theorem int (i : Int) : ComesTo k s f (.int i) (.int i) s :=
  of_done fun m hm _ e he => ⟨0, fun n _ => by rw [denotes_int_iff.mp he, ← hm]; rfl⟩

theorem bool (b : Bool) : ComesTo k s f (.bool b) (.bool b) s :=
  of_done fun m hm _ e he => ⟨0, fun n _ => by rw [denotes_bool_iff.mp he, ← hm]; rfl⟩

/-- A bound name comes to its value. -/
theorem name {x : String} (h : s.get? f x = some v) : ComesTo k s f (.sym x) v s :=
  of_done fun m hm _ e he => ⟨0, fun n _ => by
    subst hm
    rw [denotes_sym_iff.mp he]
    simp only [evalStep]
    have hl : lookup f x m = .ok v m := by simp only [lookup, h]
    rw [bind_ok hl]
    rfl⟩

theorem quotation (x : String) : ComesTo k s f (Datum.quoting (.sym x)) (.sym x) s := by
  refine of_done fun m hm _ e he => ⟨0, fun n _ => ?_⟩
  subst hm
  rw [show Datum.quoting (.sym x) = .ofList [.sym "quote", .sym x] from rfl] at he
  simp only [denotes_ofList_cons, denotes_ofList_nil, denotes_sym_iff] at he
  obtain ⟨i, _, _, rfl, rfl, j, _, _, rfl, rfl, rfl⟩ := he
  rfl

/-! ## Calls -/

/-- A call of a name comes down to its value applied to the values of the operands. -/
theorem evalStep_eq_applyStep {x : String} {p : Value} {ds : List Datum} {vs : List Value}
    (hx : Keyword.ofName? x = none) (hp : s.get? f x = some p)
    (hargs : List.Forall₂ (fun d v => ComesTo k s f d v s) ds vs) {m : Machine} (hm : m.store = s)
    (hd : m.depth + (k + 1) ≤ maxDepth) {e : Value} (he : Denotes e (.ofList (.sym x :: ds))) :
    ∃ b, ∀ n, b ≤ n → evalStep (run n) e f m = applyStep (run n) p (.ok vs) f m := by
  subst hm
  obtain ⟨i, _, ops, rfl, hsym, hops⟩ := denotes_ofList_cons.mp he
  obtain rfl := denotes_sym_iff.mp hsym
  obtain ⟨es, hs, hproper, hes⟩ := hops.spine
  obtain ⟨b, hb⟩ := (name (k := k) hp).nested rfl hd (.sym x)
  obtain ⟨b', hb'⟩ := nested_operands hargs rfl hd hes
  refine ⟨max b b', fun n hn => ?_⟩
  rw [evalStep_call hx hproper hs, bind_ok (hb n (by omega)), bind_ok (hb' n (by omega))]

/-- A call of a procedure on numbers. -/
theorem numeric {x : String} {op : NumericOp} {ds : List Datum} {vs : List Value}
    (hx : Keyword.ofName? x = none) (hp : s.get? f x = some (.builtin (.numeric op)))
    (hargs : List.Forall₂ (fun d v => ComesTo k s f d v s) ds vs) (hv : op.run vs = .ok v) :
    ComesTo (k + 1) s f (.ofList (.sym x :: ds)) v s := by
  refine of_done fun m hm hd e he => ?_
  obtain ⟨b, hb⟩ := evalStep_eq_applyStep hx hp hargs hm hd he
  subst hm
  refine ⟨b, fun n hn => ?_⟩
  have hcall : Builtin.call (run n) (.numeric op) vs f m = .ok v m := by
    simp only [Builtin.call, Builtin.run, Builtin.arguments, Builtin.wantsFrame,
      Bool.false_eq_true, if_false, hv, check]
    rfl
  rw [hb n hn]
  change (Builtin.call (run n) (.numeric op) vs f >>= _) m = _
  rw [bind_ok hcall]
  rfl

end ComesTo

/-- A procedure with these parameters and this expression for its body. -/
inductive Value.Procedure (scope : Scope) (params : List String) (body : Datum) : Value → Prop
  | mk (i j : Label) {formals e : Value} (hf : Denotes formals (.ofList (params.map .sym)))
      (he : Denotes e body) :
    Procedure scope params body (.closure i scope formals (.pair j e .nil))

/-- As many parameters as arguments are bound pairwise. -/
theorem parameterBindings_eq {params : List String} {vs : List Value} (b : Bindings)
    (h : params.length = vs.length) :
    parameterBindings b (params.map .sym) vs = .ok (b.putAll (params.zip vs)) := by
  induction params generalizing vs b with
  | nil => rfl
  | cons x params ih =>
    cases vs with
    | nil => simp at h
    | cons v vs => exact ih (b.put x v) (Nat.succ.inj h)

theorem Denotes.spine_names {v : Value} {xs : List String}
    (h : Denotes v (.ofList (xs.map .sym))) : v.spine = (xs.map .sym, .nil) := by
  obtain ⟨es, hs, -, hes⟩ := h.spine
  rw [List.forall₂_map_right_iff] at hes
  have hsym : List.Forall₂ (fun e x => e = Value.sym x) es xs :=
    hes.imp fun _ _ he => denotes_sym_iff.mp he
  rw [hs, ← List.forall₂_eq_eq_eq.le _ _ (List.forall₂_map_right_iff.mpr hsym)]

/-- The frame of a call. -/
theorem callFrameOf_eq {formals : Value} {params : List String} {vs : List Value}
    (hf : formals.spine = (params.map .sym, .nil)) (h : params.length = vs.length)
    (parent : FrameId) (m : Machine) :
    callFrameOf parent formals (.ok vs) m =
      .ok m.store.size
        { m with store := m.store.push ⟨some parent, .putAll [] (params.zip vs)⟩ } := by
  have hlen : ¬(params.map Value.sym).length ≠ vs.length := by simp [h]
  simp only [callFrameOf, Value.items, hf, check, pure_bind, callFrame, if_neg hlen,
    parameterBindings_eq [] h]
  rfl

namespace ComesTo

variable {k : Nat} {s s' : Store} {f : FrameId} {v r : Value}

/-- A call of a procedure written in the language: the body takes the place of the call. -/
theorem call {x : String} {p : Value} {scope : Scope} {params : List String} {body : Datum}
    {ds : List Datum} {vs : List Value} (hx : Keyword.ofName? x = none)
    (hp : s.get? f x = some p) (hproc : p.Procedure scope params body)
    (hargs : List.Forall₂ (fun d v => ComesTo k s f d v s) ds vs)
    (hlen : params.length = vs.length)
    (hbody : ComesTo (k + 1) (s.push ⟨some (scope.parent f), .putAll [] (params.zip vs)⟩) s.size
      body r s') :
    ComesTo (k + 1) s f (.ofList (.sym x :: ds)) r s' := by
  refine of_next hbody fun m hm hd e he => ?_
  obtain ⟨b, hb⟩ := evalStep_eq_applyStep hx hp hargs hm hd he
  subst hm
  cases hproc with
  | @mk i j formals e' hf he' =>
    refine ⟨e', he', b, fun n hn => ?_⟩
    rw [hb n hn]
    change (callFrameOf (scope.parent f) formals (.ok vs) >>= _) m = _
    rw [bind_ok (callFrameOf_eq hf.spine_names hlen (scope.parent f) m)]
    rfl

/-! ## Forms -/

/-- A form that evaluates a test, and whose value is that of an expression chosen by the outcome. -/
theorem of_test {test d d' : Datum} (ht : ComesTo k s f test v s)
    (hnext : ComesTo (k + 1) s f d' r s')
    (h : ∀ ⦃e : Value⦄, Denotes e d → ∃ t e', Denotes t test ∧ Denotes e' d' ∧ ∀ ev, ∃ next,
      evalStep ev e f = ev (.eval t f) >>= next ∧ next v = pure (.next e' f)) :
    ComesTo (k + 1) s f d r s' := by
  refine of_next hnext fun m hm hd e he => ?_
  subst hm
  obtain ⟨t, e', hte, he', hstep⟩ := h he
  obtain ⟨b, hb⟩ := ht.nested rfl hd hte
  refine ⟨e', he', b, fun n hn => ?_⟩
  obtain ⟨next, hstep, hv⟩ := hstep (run n)
  rw [hstep, bind_ok (hb n hn), hv]
  rfl

/-- A conditional comes to what its branch does, its test taking one level less. -/
theorem conditional {test a b : Datum} (ht : ComesTo k s f test v s)
    (h : ComesTo (k + 1) s f (if v.isTrue then a else b) r s') :
    ComesTo (k + 1) s f (.ofList [.sym "if", test, a, b]) r s' := by
  refine of_test ht h fun e he => ?_
  simp only [denotes_ofList_cons, denotes_ofList_nil, denotes_sym_iff] at he
  obtain ⟨i₀, _, _, rfl, rfl, i₁, t, _, rfl, ht, i₂, ea, _, rfl, ha, i₃, eb, _, rfl, hb, rfl⟩ := he
  exact ⟨t, if v.isTrue then ea else eb, ht, denotes_ite ha hb, fun ev => ⟨_, rfl, rfl⟩⟩

/-- A conjunction comes to its second operand if the first is not false. -/
theorem conjunction {a b : Datum} (ha : ComesTo k s f a v s) (hv : v.isTrue = true)
    (h : ComesTo (k + 1) s f b r s') : ComesTo (k + 1) s f (.ofList [.sym "and", a, b]) r s' := by
  refine of_test ha h fun e he => ?_
  simp only [denotes_ofList_cons, denotes_ofList_nil, denotes_sym_iff] at he
  obtain ⟨i₀, _, _, rfl, rfl, i₁, ea, _, rfl, ha, i₂, eb, _, rfl, hb, rfl⟩ := he
  exact ⟨ea, eb, ha, hb, fun ev => ⟨fun v => if v.isTrue then pure (.next eb f)
    else pure (.done (.bool false)), rfl, if_pos hv⟩⟩

theorem disjunction {a b : Datum} (ha : ComesTo k s f a v s) (hv : v.isTrue = false)
    (h : ComesTo (k + 1) s f b r s') : ComesTo (k + 1) s f (.ofList [.sym "or", a, b]) r s' := by
  refine of_test ha h fun e he => ?_
  simp only [denotes_ofList_cons, denotes_ofList_nil, denotes_sym_iff] at he
  obtain ⟨i₀, _, _, rfl, rfl, i₁, ea, _, rfl, ha, i₂, eb, _, rfl, hb, rfl⟩ := he
  exact ⟨ea, eb, ha, hb, fun ev => ⟨fun v => if v.isTrue then pure (.done v)
    else pure (.next eb f), rfl, if_neg (by simp [hv])⟩⟩

/-- A clause with a test, and one for all other cases. -/
theorem clauses {test a b : Datum} (htest : test ≠ .sym "else") (ht : ComesTo k s f test v s)
    (h : ComesTo (k + 1) s f (if v.isTrue then a else b) r s') :
    ComesTo (k + 1) s f (.ofList [.sym "cond", .ofList [test, a], .ofList [.sym "else", b]])
      r s' := by
  refine of_test ht h fun e he => ?_
  simp only [denotes_ofList_cons, denotes_ofList_nil, denotes_sym_iff] at he
  obtain ⟨i₀, _, _, rfl, rfl, i₁, _, _, rfl, ⟨i₂, t, _, rfl, ht, i₃, ea, _, rfl, ha, rfl⟩,
    i₄, _, _, rfl, ⟨i₅, _, _, rfl, rfl, i₆, eb, _, rfl, hb, rfl⟩, rfl⟩ := he
  have hne : t ≠ .sym "else" := by
    rintro rfl
    cases ht
    exact htest rfl
  refine ⟨t, if v.isTrue then ea else eb, ht, denotes_ite ha hb, fun ev =>
    ⟨_, Form.clauses_test ev f i₂ (.pair i₃ ea .nil)
      [.pair i₅ (.sym "else") (.pair i₆ eb .nil)] hne, ?_⟩⟩
  cases v.isTrue
  · rfl
  · rfl

theorem sequence {a : Datum} (h : ComesTo k s f a r s') :
    ComesTo k s f (.ofList [.sym "begin", a]) r s' := by
  refine of_next h fun m hm _ e he => ?_
  subst hm
  simp only [denotes_ofList_cons, denotes_ofList_nil, denotes_sym_iff] at he
  obtain ⟨i₀, _, _, rfl, rfl, i₁, ea, _, rfl, ha, rfl⟩ := he
  exact ⟨ea, ha, 0, fun n _ => rfl⟩

/-- A name bound in a new frame. -/
theorem binding {x : String} {init body : Datum} (hi : ComesTo k s f init v s)
    (h : ComesTo (k + 1) (s.push ⟨some f, [(x, v)]⟩) s.size body r s') :
    ComesTo (k + 1) s f (.ofList [.sym "let", .ofList [.ofList [.sym x, init]], body]) r s' := by
  refine of_next h fun m hm hd e he => ?_
  subst hm
  simp only [denotes_ofList_cons, denotes_ofList_nil, denotes_sym_iff] at he
  obtain ⟨i₀, _, _, rfl, rfl, i₁, _, _, rfl,
    ⟨i₂, _, _, rfl, ⟨i₃, _, _, rfl, rfl, i₄, ei, _, rfl, hie, rfl⟩, rfl⟩,
    i₅, eb, _, rfl, hbe, rfl⟩ := he
  obtain ⟨c, hc⟩ := hi.nested rfl hd hie
  refine ⟨eb, hbe, c, fun n hn => ?_⟩
  have hbound : Form.binding (run n) f (.pair i₃ (.sym x) (.pair i₄ ei .nil)) m =
      .ok (.sym x, v) m := by
    change (run n (.eval ei f) >>= _) m = _
    rw [bind_ok (hc n hn)]
    rfl
  have hall : [Value.pair i₃ (.sym x) (.pair i₄ ei .nil)].mapM (Form.binding (run n) f) m =
      .ok [(.sym x, v)] m := by
    rw [List.mapM_cons, bind_ok hbound]
    rfl
  change (List.mapM (Form.binding (run n) f) [.pair i₃ (.sym x) (.pair i₄ ei .nil)] >>= _) m = _
  rw [bind_ok hall]
  rfl

end ComesTo

/-! ## Definitions -/

/-- An evaluation that is over in one step. -/
theorem run_of_done {n : Nat} {e v : Value} {f : FrameId} {m m₁ : Machine}
    (hd : m.depth < maxDepth)
    (h : evalStep (run n) e f { m with depth := m.depth + 1 } = .ok (.done v) m₁) :
    run (n + 1) (.eval e f) m = .ok v { m₁ with depth := m₁.depth - 1 } := by
  simp only [run, nested, if_neg (Nat.not_le_of_lt hd), loop_succ]
  rw [bind_ok h]
  rfl

theorem newProcedure_eq {formals : Value} {params : List String}
    (hf : Denotes formals (.ofList (params.map .sym)))
    (hp : Form.names (params.map .sym) = .ok params) (scope : Scope) (body : Value)
    (m : Machine) :
    newProcedure scope formals body m =
      .ok (.closure m.nextLabel scope formals body) { m with nextLabel := m.nextLabel + 1 } := by
  simp only [newProcedure, Form.parameters, hf.spine_names, hp]
  rfl

/-- In a session the datum defines a name as a value of which `P` holds. -/
def Defines (d : Datum) (x : String) (P : Value → Prop) : Prop :=
  ∀ m : Machine, m.depth + 2 ≤ maxDepth → ∃ p i, P p ∧
    evalDatum evaluate Machine.globalFrame d m = .ok (.sym x)
      { m with nextLabel := i, store := m.store.define Machine.globalFrame x p }

/-- A definition makes one object, the procedure, and binds it. -/
theorem Defines.of_step {d : Datum} {x : String} {P : Value → Prop}
    (h : ∀ ⦃m : Machine⦄, m.depth < maxDepth → ∀ ⦃e : Value⦄, Denotes e d → ∀ n, ∃ p, P p ∧
      evalStep (run (n + 1)) e Machine.globalFrame m = .ok (.done (.sym x))
        { m with
          nextLabel := m.nextLabel + 1, store := m.store.define Machine.globalFrame x p }) :
    Defines d x P := by
  intro m hd
  -- The expression gets its labels first, and the procedure the one after them.
  obtain ⟨e, i, hembed, he⟩ := denotes_embedOnto d .nil m
  obtain ⟨p, hp, hstep⟩ := h (m := { m with nextLabel := i, depth := m.depth + 1 })
    (Nat.lt_of_succ_le hd) he (ample - 2)
  refine ⟨p, i + 1, hp, ?_⟩
  rw [evalDatum, embed, bind_ok hembed, evaluate, show ample = ample - 2 + 1 + 1 from rfl]
  exact run_of_done (m := { m with nextLabel := i }) (Nat.lt_of_succ_lt hd) hstep

section

variable {x : String} {params : List String} {body : Datum}

/-- A definition with parameters defines the name as a procedure of the global frame. -/
theorem defines_procedure (hp : Form.names (params.map .sym) = .ok params) :
    Defines (.ofList [.sym "define", .ofList (.sym x :: params.map .sym), body]) x
      (Value.Procedure (.lexical Machine.globalFrame) params body) := by
  refine .of_step fun m _ e he n => ?_
  simp only [denotes_ofList_cons, denotes_ofList_nil, denotes_sym_iff] at he
  obtain ⟨i₀, _, _, rfl, rfl, i₁, _, _, rfl, ⟨i₂, _, formals, rfl, rfl, hf⟩,
    i₃, eb, _, rfl, hb, rfl⟩ := he
  refine ⟨_, .mk m.nextLabel i₃ hf hb, ?_⟩
  change (newProcedure (.lexical Machine.globalFrame) formals (.pair i₃ eb .nil) >>= _) m = _
  rw [bind_ok (newProcedure_eq hf hp _ _ m)]
  rfl

theorem defines_dynamic (hp : Form.names (params.map .sym) = .ok params) :
    Defines (.ofList [.sym "define", .sym x, .ofList [.sym "mu", .ofList (params.map .sym), body]])
      x (Value.Procedure .dynamic params body) := by
  refine .of_step fun m hd e he n => ?_
  simp only [denotes_ofList_cons, denotes_ofList_nil, denotes_sym_iff] at he
  obtain ⟨i₀, _, _, rfl, rfl, i₁, _, _, rfl, rfl, i₂, _, _, rfl,
    ⟨i₃, _, _, rfl, rfl, i₄, formals, _, rfl, hf, i₅, eb, _, rfl, hb, rfl⟩, rfl⟩ := he
  refine ⟨_, .mk m.nextLabel i₅ hf hb, ?_⟩
  have hmu : evalStep (run n) (.pair i₃ (.sym "mu") (.pair i₄ formals (.pair i₅ eb .nil)))
      Machine.globalFrame { m with depth := m.depth + 1 } =
      .ok (.done (.closure m.nextLabel .dynamic formals (.pair i₅ eb .nil)))
        { m with depth := m.depth + 1, nextLabel := m.nextLabel + 1 } := by
    change (newProcedure .dynamic formals (.pair i₅ eb .nil) >>= _) _ = _
    rw [bind_ok (newProcedure_eq hf hp _ _ _)]
    rfl
  change (run (n + 1) (.eval _ Machine.globalFrame) >>= _) m = _
  rw [bind_ok (run_of_done hd hmu)]
  rfl

end

/-! ## Names -/

namespace Store

/-- A new frame is not seen from the older ones. -/
theorem get?_push_of_lt (s : Store) (fr : Frame) {f : FrameId} (hf : f < s.size) (x : String) :
    (s.push fr).get? f x = s.get? f x := by
  induction f using Nat.strongRecOn with
  | ind f ih =>
    have hframes : (s.push fr).frames[f]? = s.frames[f]? := by
      rw [frames_push, if_neg (Nat.ne_of_lt hf)]
    have hlocal : (s.push fr).local? f x = s.local? f x := by simp only [local?, hframes]
    have hparent : (s.push fr).parent? f = s.parent? f := by simp only [parent?, hframes]
    rw [get?_eq, get?_eq, hlocal, hparent]
    cases hp : s.parent? f with
    | none => rfl
    | some p =>
      have hlt := lt_of_parent? hp
      simp only [Option.bind_some, ih p hlt (hlt.trans hf)]

/-- From a frame its own names are seen, and those that are seen from its parent. -/
theorem get?_of_frame {s : Store} {g p : FrameId} {b : Bindings}
    (h : s.frames[g]? = some ⟨some p, b⟩) (hp : p < g) (x : String) :
    s.get? g x = (b.lookup x).or (s.get? p x) := by
  have hlocal : s.local? g x = b.lookup x := by simp only [local?, h, Frame.get]
  have hparent : s.parent? g = some p := by simp only [parent?, h, if_pos hp]
  rw [get?_eq, hlocal, hparent, Option.bind_some]
  cases b.lookup x with
  | some v => rfl
  | none => rfl

theorem get?_push_self (s : Store) {p : FrameId} (b : Bindings) (hp : p < s.size) (x : String) :
    (s.push ⟨some p, b⟩).get? s.size x = (b.lookup x).or (s.get? p x) := by
  have hframe : (s.push ⟨some p, b⟩).frames[s.size]? = some ⟨some p, b⟩ := by
    rw [frames_push, if_pos rfl]
  rw [get?_of_frame hframe hp, get?_push_of_lt s _ hp]

theorem get?_global (s : Store) (x : String) :
    s.get? Machine.globalFrame x = s.local? Machine.globalFrame x := by
  have hnone : s.parent? Machine.globalFrame = none :=
    Option.eq_none_iff_forall_ne_some.mpr fun p hp => Nat.not_lt_zero p (lt_of_parent? hp)
  rw [get?_eq, hnone]
  cases s.local? Machine.globalFrame x with
  | some v => rfl
  | none => rfl

theorem get?_define_global {s : Store} (h : Machine.globalFrame < s.size) (x y : String)
    (v : Value) : (s.define Machine.globalFrame x v).get? Machine.globalFrame y =
      if y = x then some v else s.get? Machine.globalFrame y := by
  rw [get?_global, get?_global, local?_define _ _ _ _ _ _ h]
  simp

/-- From the frame, the names of the table have the values that it gives them. -/
structure Shows (s : Store) (f : FrameId) (table : Bindings) : Prop where
  lt_size : f < s.size
  get?_eq {x : String} {v : Value} : table.lookup x = some v → s.get? f x = some v

namespace Shows

variable {s : Store} {f : FrameId} {table : Bindings}

theorem nil (hf : f < s.size) : s.Shows f [] := ⟨hf, by simp⟩

theorem cons {x : String} {v : Value} (hx : s.get? f x = some v) (h : s.Shows f table) :
    s.Shows f ((x, v) :: table) := by
  refine ⟨h.lt_size, fun {y w} hy => ?_⟩
  rw [List.lookup_cons] at hy
  split at hy
  · next he => rw [eq_of_beq he, hx, hy]
  · exact h.get?_eq hy

theorem push (h : s.Shows f table) (fr : Frame) : (s.push fr).Shows f table where
  lt_size := by
    rw [size_push]
    exact Nat.lt_succ_of_lt h.lt_size
  get?_eq hx := by
    rw [get?_push_of_lt s fr h.lt_size]
    exact h.get?_eq hx

/-- A new frame hides only the names that it binds. -/
theorem push_self (h : s.Shows f table) {b : Bindings} (hb : ∀ x ∈ b.names, x ∉ table.names) :
    (s.push ⟨some f, b⟩).Shows s.size table where
  lt_size := by
    rw [size_push]
    exact Nat.lt_succ_self s.size
  get?_eq {x v} hx := by
    have hmem : x ∈ table.names := Bindings.lookup_isSome_iff.mp (by rw [hx]; rfl)
    have hnone : b.lookup x = none := by
      rw [← Option.not_isSome_iff_eq_none, Bindings.lookup_isSome_iff]
      exact fun hb' => hb x hb' hmem
    rw [get?_push_self s b h.lt_size, hnone, Option.none_or]
    exact h.get?_eq hx

/-- A new frame shows its own names. -/
theorem push_own (s : Store) (hf : f < s.size) (b : Bindings) :
    (s.push ⟨some f, b⟩).Shows s.size b where
  lt_size := by
    rw [size_push]
    exact Nat.lt_succ_self s.size
  get?_eq hx := by rw [get?_push_self s b hf, hx, Option.some_or]

/-- A definition in the global frame hides no other name there. -/
theorem define (h : s.Shows Machine.globalFrame table) {x : String}
    (hx : x ∉ table.names) (v : Value) :
    (s.define Machine.globalFrame x v).Shows Machine.globalFrame table where
  lt_size := by
    rw [size_define]
    exact h.lt_size
  get?_eq {y w} hy := by
    have hne : y ≠ x := by
      rintro rfl
      exact hx (Bindings.lookup_isSome_iff.mp (by rw [hy]; rfl))
    rw [get?_define_global h.lt_size, if_neg hne]
    exact h.get?_eq hy

/-- A definition adds a name to those that the global frame shows. -/
theorem define_own (h : s.Shows Machine.globalFrame table) {x : String} (hx : x ∉ table.names)
    (v : Value) : (s.define Machine.globalFrame x v).Shows Machine.globalFrame ((x, v) :: table) :=
  .cons (by rw [get?_define_global h.lt_size, if_pos rfl]) (h.define hx v)

end Shows

end Store

end Scheme
