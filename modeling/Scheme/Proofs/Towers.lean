import Mathlib.Data.Finset.Lattice.Fold
import Mathlib.Data.Fintype.Basic
import Mathlib.Order.Lattice.Nat
import Scheme.Proofs.Expressions
import Scheme.Proofs.Outcomes
import Scheme.Session

/-!
# The levels that an expression takes

How deep an expression nests can be read off it: every part whose value is needed on the way takes
one level more than the whole, and a part in tail position takes the level of the whole. A `Tower`
is an expression of integers, calls of `list` and the forms, and `Tower.height` counts its levels.
Towers are expressions that cannot fail but for their depth. Where they do not look at a part, as at
the branch of a conditional that is not taken, it may be any value.

The count is exact: from the depth `d` a tower of height `h` has its value if and only if `d + h` is
within the limit, and if it is not, then the fault is that of the depth (`tower_depth_exact`).

The proof follows the plain recursion. An action `Ends` well if there is room for it, and for want
of room otherwise; what is done one after the other needs the room of both (`Ends.bind`).
-/

namespace Scheme

open EvalM

/-! ## Towers -/

/-- Expressions whose value cannot fail but for their depth. -/
inductive Tower where
  | constant (i : Int)
  /-- `(list e ..)`. -/
  | list {n : Nat} (es : Fin n → Tower)
  /-- `(if e e' x)`. -/
  | conditional (test chosen : Tower) (other : Value)
  /-- `(begin e .. e')`. -/
  | sequence {n : Nat} (init : Fin n → Tower) (last : Tower)
  /-- `(and e .. e')`. -/
  | conjunction {n : Nat} (init : Fin n → Tower) (last : Tower)
  /-- `(or e x ..)`. -/
  | disjunction (first : Tower) (others : List Value)
  /-- `(cond (e b .. b') x ..)`. -/
  | clauses {n : Nat} (test : Tower) (init : Fin n → Tower) (last : Tower) (others : List Value)
  /-- `(let ((x e) ..) b .. b')`. -/
  | bindings {k n : Nat} (names : Fin k → String) (hnames : names.Injective)
      (hlist : ∀ i, names i ≠ "list") (inits : Fin k → Tower) (init : Fin n → Tower) (last : Tower)

namespace Tower

/-- The levels of expressions of which only the last stands in tail position. -/
def bodyHeight {n : Nat} (init : Fin n → Nat) (last : Nat) : Nat :=
  max (Finset.univ.sup fun i => 1 + init i) last

/-- The number of levels that the evaluation takes, its own included. -/
def height : Tower → Nat
  | constant _ => 1
  | list es => 1 + max 1 (Finset.univ.sup fun i => (es i).height)
  | conditional test chosen _ => max (1 + test.height) chosen.height
  | sequence init last => bodyHeight (fun i => (init i).height) last.height
  | conjunction init last => bodyHeight (fun i => (init i).height) last.height
  | disjunction first others => if others = [] then first.height else 1 + first.height
  | clauses test init last _ =>
    max (1 + test.height) (bodyHeight (fun i => (init i).height) last.height)
  | bindings _ _ _ inits init last =>
    max (Finset.univ.sup fun i => 1 + (inits i).height)
      (bodyHeight (fun i => (init i).height) last.height)

/-- The value. -/
def result : Tower → Datum
  | constant i => .int i
  | list es => .ofList (List.ofFn fun i => (es i).result)
  | conditional _ chosen _ => chosen.result
  | sequence _ last => last.result
  | conjunction _ last => last.result
  | disjunction first _ => first.result
  | clauses _ _ last _ => last.result
  | bindings _ _ _ _ _ last => last.result

/-- The expression is built as the tower says. -/
def Spells : Tower → Value → Prop
  | constant i, e => e = .int i
  | list es, e =>
    ∃ vs, (∀ i, (es i).Spells (vs i)) ∧ e.Lists (.sym "list" :: List.ofFn vs)
  | conditional test chosen other, e =>
    ∃ t v, test.Spells t ∧ chosen.Spells v ∧ e.Lists [.sym "if", t, v, other]
  | sequence init last, e =>
    ∃ vs v, (∀ i, (init i).Spells (vs i)) ∧ last.Spells v ∧
      e.Lists (.sym "begin" :: (List.ofFn vs ++ [v]))
  | conjunction init last, e =>
    ∃ vs v, (∀ i, (init i).Spells (vs i)) ∧ last.Spells v ∧
      e.Lists (.sym "and" :: (List.ofFn vs ++ [v]))
  | disjunction first others, e =>
    ∃ v, first.Spells v ∧ e.Lists (.sym "or" :: v :: others)
  | clauses test init last others, e =>
    ∃ t vs v c, test.Spells t ∧ (∀ i, (init i).Spells (vs i)) ∧ last.Spells v ∧
      c.Lists (t :: (List.ofFn vs ++ [v])) ∧ e.Lists (.sym "cond" :: c :: others)
  | bindings names _ _ inits init last, e =>
    ∃ (us : Fin _ → Value) (vs : Fin _ → Value) (v : Value), (∀ i, (inits i).Spells (us i)) ∧
      (∀ i, (init i).Spells (vs i)) ∧ last.Spells v ∧
      e.Lets (List.ofFn fun i => (names i, us i)) (List.ofFn vs ++ [v])

theorem height_pos (t : Tower) : 1 ≤ t.height := by
  induction t with
  | constant | list => simp [height]
  | conditional => simp [height]
  | sequence _ _ _ ih | conjunction _ _ _ ih => exact Nat.le_trans ih (Nat.le_max_right _ _)
  | disjunction first others ih =>
    rw [height]
    split
    · exact ih
    · exact Nat.le_add_right 1 _
  | clauses => simp [height]
  | bindings _ _ _ _ _ _ _ _ ih =>
    exact Nat.le_trans ih (Nat.le_trans (Nat.le_max_right _ _) (Nat.le_max_right _ _))

/-- No tower has the value false. -/
theorem isTrue_of_denotes (t : Tower) {v : Value} (h : Denotes v t.result) : v.isTrue = true := by
  induction t with
  | constant i =>
    obtain rfl := denotes_int_iff.mp h
    rfl
  | list es =>
    rw [result] at h
    generalize List.ofFn (fun i => (es i).result) = ds at h
    cases ds with
    | nil =>
      obtain rfl := denotes_ofList_nil.mp h
      rfl
    | cons d ds =>
      obtain ⟨i, a, w, rfl, -⟩ := denotes_ofList_cons.mp h
      rfl
  | conditional _ _ _ _ ih | sequence _ _ _ ih | conjunction _ _ _ ih | disjunction _ _ ih
  | clauses _ _ _ _ _ _ ih | bindings _ _ _ _ _ _ _ _ ih => exact ih h

theorem Spells.ne_sym {t : Tower} {e : Value} (h : t.Spells e) (x : String) : e ≠ .sym x := by
  cases t with
  | constant i =>
    obtain rfl : e = .int i := h
    simp
  | list | disjunction =>
    obtain ⟨_, _, he⟩ := h
    exact he.ne_sym x
  | conditional | sequence | conjunction =>
    obtain ⟨_, _, _, _, he⟩ := h
    exact he.ne_sym x
  | clauses =>
    obtain ⟨_, _, _, _, _, _, _, _, he⟩ := h
    exact he.ne_sym x
  | bindings =>
    obtain ⟨_, _, _, _, _, _, _, _, he, _⟩ := h
    exact he.ne_sym x

end Tower

/-! ## Room -/

/-- With enough fuel the action ends: with a result of which `P` holds if there is room for it, and
for want of depth if there is not. -/
inductive Ends {α : Type} (x : Nat → EvalM α) (m : Machine) (room : Prop)
    (P : α → Machine → Prop) : Prop
  | ok (h : room) (b : Nat) (a : α) (m' : Machine) (hP : P a m')
      (hx : ∀ n, b ≤ n → x n m = .ok a m')
  | tooDeep (h : ¬room) (b : Nat) (m' : Machine)
      (hx : ∀ n, b ≤ n → x n m = .error (.fault .tooDeep) m')

namespace Ends

variable {α β : Type} {x : Nat → EvalM α} {m : Machine} {room room' : Prop}
  {P Q : α → Machine → Prop}

theorem pure {a : α} (hroom : room) (h : P a m) : Ends (fun _ => Pure.pure a) m room P :=
  .ok hroom 0 a m h fun _ _ => rfl

/-- The room and the property of the result may be stated in other words. -/
theorem congr (h : Ends x m room P) (hroom : room ↔ room') (hP : ∀ a m', P a m' → Q a m') :
    Ends x m room' Q := by
  cases h with
  | ok h b a m' hp hx => exact .ok (hroom.mp h) b a m' (hP a m' hp) hx
  | tooDeep h b m' hx => exact .tooDeep (fun hr => h (hroom.mpr hr)) b m' hx

theorem of_iff (h : Ends x m room P) (hroom : room ↔ room') : Ends x m room' P :=
  h.congr hroom fun _ _ hP => hP

/-- One unit of fuel more makes no difference. -/
theorem succ_iff : Ends (fun n => x (n + 1)) m room P ↔ Ends x m room P := by
  have hpred : ∀ {b n : Nat}, b + 1 ≤ n → ∃ k, b ≤ k ∧ n = k + 1 := fun {b n} hn =>
    ⟨n - 1, by omega, by omega⟩
  constructor
  · rintro (⟨h, b, a, m', hP, hx⟩ | ⟨h, b, m', hx⟩)
    · refine .ok h (b + 1) a m' hP fun n hn => ?_
      obtain ⟨k, hk, rfl⟩ := hpred hn
      exact hx k hk
    · refine .tooDeep h (b + 1) m' fun n hn => ?_
      obtain ⟨k, hk, rfl⟩ := hpred hn
      exact hx k hk
  · rintro (⟨h, b, a, m', hP, hx⟩ | ⟨h, b, m', hx⟩)
    · exact .ok h b a m' hP fun n hn => hx (n + 1) (Nat.le_succ_of_le hn)
    · exact .tooDeep h b m' fun n hn => hx (n + 1) (Nat.le_succ_of_le hn)

/-- What is nested needs one level more, and leaves it. -/
theorem nested {k : Nat} (hk : 1 ≤ k)
    (h : m.depth < maxDepth → Ends x { m with depth := m.depth + 1 } (m.depth + k ≤ maxDepth)
      fun a m' => P a { m' with depth := m'.depth - 1 }) :
    Ends (fun n => EvalM.nested (x n)) m (m.depth + k ≤ maxDepth) P := by
  by_cases hd : m.depth < maxDepth
  · rcases h hd with ⟨hroom, b, a, m', hP, hx⟩ | ⟨hroom, b, m', hx⟩
    · refine .ok hroom b a _ hP fun n hn => ?_
      rw [nested_eq_leave _ hd, hx n hn]
      rfl
    · refine .tooDeep hroom b { m' with depth := m'.depth - 1 } fun n hn => ?_
      rw [nested_eq_leave _ hd, hx n hn]
      rfl
  · refine .tooDeep (by omega) 0 m fun n _ => ?_
    rw [EvalM.nested, if_pos (Nat.le_of_not_lt hd)]

/-- What is done one after the other needs the room of both. -/
theorem bind {y : Nat → α → EvalM β} {R : β → Machine → Prop} (hx : Ends x m room P)
    (hy : ∀ a m', P a m' → Ends (fun n => y n a) m' room' R) :
    Ends (fun n => x n >>= y n) m (room ∧ room') R := by
  cases hx with
  | ok h b a m₁ hP hx =>
    cases hy a m₁ hP with
    | ok h' b' c m₂ hR hy =>
      refine .ok ⟨h, h'⟩ (max b b') c m₂ hR fun n hn => ?_
      rw [bind_ok (hx n (le_of_max_le_left hn)), hy n (le_of_max_le_right hn)]
    | tooDeep h' b' m₂ hy =>
      refine .tooDeep (fun hr => h' hr.2) (max b b') m₂ fun n hn => ?_
      rw [bind_ok (hx n (le_of_max_le_left hn)), hy n (le_of_max_le_right hn)]
  | tooDeep h b m₁ hx =>
    refine .tooDeep (fun hr => h hr.1) b m₁ fun n hn => ?_
    simp only [Bind.bind, EStateM.bind, hx n hn]

end Ends

/-! ## What an evaluation keeps -/

/-- The one procedure that towers call. -/
def listTable : Bindings := [("list", .builtin (.list .list))]

/-- The depth is as before, and the procedure is seen wherever it was. -/
structure Keeps (m m' : Machine) : Prop where
  depth_eq : m'.depth = m.depth
  shows {f : FrameId} : m.store.Shows f listTable → m'.store.Shows f listTable

theorem Keeps.refl (m : Machine) : Keeps m m := ⟨rfl, id⟩

theorem Keeps.trans {m₁ m₂ m₃ : Machine} (h : Keeps m₁ m₂) (h' : Keeps m₂ m₃) : Keeps m₁ m₃ :=
  ⟨h'.depth_eq.trans h.depth_eq, h'.shows ∘ h.shows⟩

/-- An action on the elements of a list needs the room of each. -/
theorem Ends.mapM {α β : Type} {n : Nat} {g : Nat → α → EvalM β} {vs : Fin n → α}
    {room : Fin n → Prop} {R : Fin n → β → Prop} {m : Machine}
    (h : ∀ i m', Keeps m m' →
      Ends (fun k => g k (vs i)) m' (room i) fun b m'' => R i b ∧ Keeps m' m'') :
    Ends (fun k => (List.ofFn vs).mapM (g k)) m (∀ i, room i)
      fun bs m' => (∃ us, bs = List.ofFn us ∧ ∀ i, R i (us i)) ∧ Keeps m m' := by
  induction n generalizing m with
  | zero =>
    simp only [List.ofFn_zero, List.mapM_nil]
    exact .pure (fun i => i.elim0) ⟨⟨Fin.elim0, rfl, fun i => i.elim0⟩, .refl m⟩
  | succ n ih =>
    simp only [List.ofFn_succ, List.mapM_cons, Fin.forall_fin_succ]
    refine (h 0 m (.refl m)).bind fun b m₁ hb => ?_
    have hrest : Ends (fun k => (List.ofFn fun i => vs i.succ).mapM (g k)) m₁
        (∀ i : Fin n, room i.succ)
        fun bs m' => (∃ us, bs = List.ofFn us ∧ ∀ i, R i.succ (us i)) ∧ Keeps m₁ m' :=
      ih fun i m' hm' => h i.succ m' (hb.2.trans hm')
    refine (hrest.bind fun bs m₂ hbs => ?_).of_iff (iff_of_eq (and_true _))
    obtain ⟨⟨us, rfl, hus⟩, hm₂⟩ := hbs
    refine .pure trivial ⟨⟨Fin.cons b us, ?_, ?_⟩, hb.2.trans hm₂⟩
    · simp
    · exact ⟨hb.1, hus⟩

/-! ## Evaluation -/

theorem Direct.run_tail (n : Nat) (e : Value) (f : FrameId) :
    Direct.run (n + 1) .tail (.eval e f) =
      evalStep (Direct.run n .inner) e f >>= Direct.settle (Direct.run n) .tail :=
  Direct.expression_eq (Direct.run n) e f

namespace Tower

/-- In tail position an expression of the tower has its value if its height fits into the levels
that are left, together with the one that is in use. That one was granted, so it is within the
limit. -/
def Exact (t : Tower) : Prop :=
  ∀ (e : Value) (f : FrameId) (m : Machine), t.Spells e → m.store.Shows f listTable →
    m.depth ≤ maxDepth →
      Ends (fun n => Direct.run n .tail (.eval e f)) m (m.depth + t.height ≤ maxDepth + 1)
        fun v m' => Denotes v t.result ∧ Keeps m m'

/-- Off the tail position an expression takes a level of its own. -/
theorem Exact.inner {t : Tower} (h : t.Exact) {e : Value} {f : FrameId} {m : Machine}
    (he : t.Spells e) (hf : m.store.Shows f listTable) :
    Ends (fun n => Direct.run n .inner (.eval e f)) m (m.depth + t.height ≤ maxDepth)
      fun v m' => Denotes v t.result ∧ Keeps m m' := by
  refine Ends.succ_iff.mp (Ends.nested t.height_pos fun hd => ?_)
  have htail := h e f { m with depth := m.depth + 1 } he hf hd
  refine (Ends.succ_iff.mpr htail).congr ?_ fun v m' hv => ?_
  · change m.depth + 1 + t.height ≤ maxDepth + 1 ↔ _
    omega
  · exact ⟨hv.1, by simp [hv.2.depth_eq], hv.2.shows⟩

/-- The same after other evaluations. -/
theorem Exact.after {t : Tower} (h : t.Exact) {e : Value} (he : t.Spells e) {f : FrameId}
    {m m₁ : Machine} (hm : Keeps m m₁) (hf : m₁.store.Shows f listTable) (hd : m.depth ≤ maxDepth) :
    Ends (fun n => Direct.run n .tail (.eval e f)) m₁ (m.depth + t.height ≤ maxDepth + 1)
      fun v m' => Denotes v t.result ∧ Keeps m m' := by
  rw [← hm.depth_eq] at hd ⊢
  exact (h e f m₁ he hf hd).congr Iff.rfl fun _ _ hv => ⟨hv.1, hm.trans hv.2⟩

/-- The values of inner expressions, which are found one after the other. -/
theorem ends_inner {α : Type} {n : Nat} {ts : Fin n → Tower} (hts : ∀ i, (ts i).Exact)
    (expr : α → Value) {as : Fin n → α} (has : ∀ i, (ts i).Spells (expr (as i))) {f : FrameId}
    {m : Machine} (hf : m.store.Shows f listTable) :
    Ends (fun k => (List.ofFn as).mapM fun a => Direct.run k .inner (.eval (expr a) f)) m
      (∀ i, m.depth + (ts i).height ≤ maxDepth)
      fun us m' => (∃ us', us = List.ofFn us' ∧ ∀ i, Denotes (us' i) (ts i).result) ∧ Keeps m m' :=
  Ends.mapM (g := fun k a => Direct.run k .inner (.eval (expr a) f)) fun i _ hm' =>
    ((hts i).inner (has i) (hm'.shows hf)).of_iff (by rw [hm'.depth_eq])

/-- The highest of some towers has room if and only if each of them has. -/
theorem add_sup_le_iff {n : Nat} {h : Fin n → Nat} {d c : Nat} (hd : d ≤ c) :
    d + Finset.univ.sup h ≤ c ↔ ∀ i, d + h i ≤ c := by
  rw [← Nat.le_sub_iff_add_le' hd, Finset.sup_le_iff]
  simp only [Finset.mem_univ, true_imp_iff, Nat.le_sub_iff_add_le' hd]

theorem add_sup_succ_le_iff {n : Nat} {h : Fin n → Nat} {d c : Nat} (hd : d ≤ c) :
    d + (Finset.univ.sup fun i => 1 + h i) ≤ c + 1 ↔ ∀ i, d + h i ≤ c := by
  rw [add_sup_le_iff (Nat.le_succ_of_le hd)]
  exact forall_congr' fun i => by omega

/-- The room that a body needs. -/
theorem add_bodyHeight_le_iff {n : Nat} {init : Fin n → Nat} {last d c : Nat} (hd : d ≤ c) :
    d + bodyHeight init last ≤ c + 1 ↔ (∀ i, d + init i ≤ c) ∧ d + last ≤ c + 1 := by
  rw [← add_sup_succ_le_iff hd, bodyHeight]
  omega

section Body

variable {n : Nat} {init : Fin n → Tower} (hinit : ∀ i, (init i).Exact) {vs : Fin n → Value}
  (hvs : ∀ i, (init i).Spells (vs i)) {f : FrameId}

include hinit hvs

/-- A body has the value of its last expression. -/
theorem ends_body {last : Tower} (hlast : last.Exact) {v : Value} (hv : last.Spells v)
    {m m₁ : Machine} (hm : Keeps m m₁) (hf : m₁.store.Shows f listTable) (hd : m.depth ≤ maxDepth) :
    Ends (fun k => Form.body (Direct.run k .inner) f (List.ofFn vs ++ [v]) >>=
        Direct.settle (Direct.run k) .tail) m₁
      (m.depth + bodyHeight (fun i => (init i).height) last.height ≤ maxDepth + 1)
      fun v m' => Denotes v last.result ∧ Keeps m m' := by
  have hroom : (∀ i, m₁.depth + (init i).height ≤ maxDepth) ∧
      m.depth + last.height ≤ maxDepth + 1 ↔
        m.depth + bodyHeight (fun i => (init i).height) last.height ≤ maxDepth + 1 := by
    rw [add_bodyHeight_le_iff hd, hm.depth_eq]
  simp only [Form.body_append, bind_assoc, pure_bind]
  refine ((ends_inner hinit (fun e => e) hvs hf).bind fun us m₂ hus => ?_).of_iff hroom
  exact hlast.after hv (hm.trans hus.2) (hus.2.shows hf) hd

/-- The operands of a conjunction are all true. -/
theorem ends_conjunction {m : Machine} (hf : m.store.Shows f listTable) (v : Value) :
    Ends (fun k => Form.conjunction (Direct.run k .inner) f (List.ofFn vs ++ [v])) m
      (∀ i, m.depth + (init i).height ≤ maxDepth) fun s m' => s = .next v f ∧ Keeps m m' := by
  induction n generalizing m with
  | zero => exact .pure (fun i => i.elim0) ⟨rfl, .refl m⟩
  | succ n ih =>
    have hcons : ∀ (ev : Evaluator), Form.conjunction ev f (List.ofFn vs ++ [v]) = (do
        let u ← ev (.eval (vs 0) f)
        if u.isTrue then Form.conjunction ev f (List.ofFn (fun i => vs i.succ) ++ [v])
        else Pure.pure (.done (.bool false))) := by
      intro ev
      rw [List.ofFn_succ, List.cons_append, Form.conjunction]
      simp
    simp only [hcons, Fin.forall_fin_succ]
    refine ((hinit 0).inner (hvs 0) hf).bind fun u m₁ hu => ?_
    simp only [(init 0).isTrue_of_denotes hu.1, if_true]
    refine (ih (fun i => hinit i.succ) (fun i => hvs i.succ) (hu.2.shows hf)).congr ?_ ?_
    · rw [hu.2.depth_eq]
    · exact fun _ _ h => ⟨h.1, hu.2.trans h.2⟩

end Body

/-! ## Every kind of tower -/

theorem exact_constant (i : Int) : (constant i).Exact := by
  rintro e f m rfl hf hd
  exact Ends.succ_iff.mp (.pure (Nat.add_le_add_right hd 1) ⟨.int i, .refl m⟩)

/-- The name of the procedure takes a level, as each operand does. -/
theorem exact_list {n : Nat} {es : Fin n → Tower} (hes : ∀ i, (es i).Exact) :
    (list es).Exact := by
  rintro e f m ⟨vs, hvs, he⟩ hf hd
  have hname : Ends (fun k => Direct.run k .inner (.eval (.sym "list") f)) m
      (m.depth + 1 ≤ maxDepth) fun p m' => p = .builtin (.list .list) ∧ m' = m := by
    refine Ends.succ_iff.mp (Ends.nested (Nat.le_refl 1) fun hd => ?_)
    refine .ok hd 0 _ { m with depth := m.depth + 1 } ⟨rfl, rfl⟩ fun n _ => ?_
    change lookup f "list" { m with depth := m.depth + 1 } = _
    simp only [lookup, hf.get?_eq (x := "list") rfl]
  have hroom : m.depth + 1 ≤ maxDepth ∧ (∀ i, m.depth + (es i).height ≤ maxDepth) ∧ True ↔
      m.depth + (list es).height ≤ maxDepth + 1 := by
    rw [and_true, ← add_sup_le_iff hd, height]
    omega
  refine Ends.succ_iff.mp ?_
  simp only [Direct.run_tail, he.step_call _ f (rfl : Keyword.ofValue? (.sym "list") = none),
    bind_assoc]
  refine (hname.bind fun p m₁ hp => ?_).of_iff hroom
  obtain ⟨rfl, rfl⟩ := hp
  refine (ends_inner hes (fun e => e) hvs hf).bind fun us m₂ hus => ?_
  obtain ⟨⟨us, rfl, hus⟩, hm₂⟩ := hus
  have hdenotes : List.Forall₂ Denotes (List.ofFn us) (List.ofFn fun i => (es i).result) := by
    rw [List.forall₂_iff_get]
    exact ⟨by simp, fun i _ _ => by simpa using hus _⟩
  obtain ⟨v, j, hmade, hv⟩ := denotes_consReversed (List.rel_reverse hdenotes) .nil m₂
  refine .ok trivial 0 v { m₂ with nextLabel := j } ⟨hv, hm₂.depth_eq, hm₂.shows⟩ fun n _ => ?_
  have hrun : Builtin.run (Direct.run n .inner)
      ((Builtin.list .list).arguments (List.ofFn us) f) (.list .list) m₂ =
        .ok v { m₂ with nextLabel := j } := hmade
  have hcall : (Builtin.list .list).call (Direct.run n .inner) (List.ofFn us) f m₂ =
      .ok v { m₂ with nextLabel := j } := by
    rw [Builtin.call, hrun]
  simp only [applyStep, check, pure_bind, bind_assoc]
  rw [bind_ok hcall]
  rfl

/-- A conditional has room if its test and its chosen branch have; the other does not count. -/
theorem exact_conditional {test chosen : Tower} (htest : test.Exact) (hchosen : chosen.Exact)
    (other : Value) : (conditional test chosen other).Exact := by
  rintro e f m ⟨t, v, ht, hv, he⟩ hf hd
  have hroom : m.depth + test.height ≤ maxDepth ∧ m.depth + chosen.height ≤ maxDepth + 1 ↔
      m.depth + (conditional test chosen other).height ≤ maxDepth + 1 := by
    rw [height]
    omega
  refine Ends.succ_iff.mp ?_
  simp only [Direct.run_tail, he.step_conditional, bind_assoc, pure_bind]
  refine ((htest.inner ht hf).bind fun u m₁ hu => ?_).of_iff hroom
  simp only [test.isTrue_of_denotes hu.1, if_true]
  exact hchosen.after hv hu.2 (hu.2.shows hf) hd

/-- A sequence has room if each expression in front has room one level further down, and the last
where it stands. -/
theorem exact_sequence {n : Nat} {init : Fin n → Tower} (hinit : ∀ i, (init i).Exact)
    {last : Tower} (hlast : last.Exact) : (sequence init last).Exact := by
  rintro e f m ⟨vs, v, hvs, hv, he⟩ hf hd
  refine Ends.succ_iff.mp ?_
  simp only [Direct.run_tail, he.step_sequence _ f (List.append_ne_nil_of_right_ne_nil _ (by simp))]
  exact ends_body hinit hvs hlast hv (.refl m) hf hd

theorem exact_conjunction {n : Nat} {init : Fin n → Tower} (hinit : ∀ i, (init i).Exact)
    {last : Tower} (hlast : last.Exact) : (conjunction init last).Exact := by
  rintro e f m ⟨vs, v, hvs, hv, he⟩ hf hd
  refine Ends.succ_iff.mp ?_
  simp only [Direct.run_tail, he.step_conjunction]
  refine ((ends_conjunction hinit hvs hf v).bind fun s m₁ hs => ?_).of_iff
    (add_bodyHeight_le_iff hd).symm
  obtain ⟨rfl, hm₁⟩ := hs
  exact hlast.after hv hm₁ (hm₁.shows hf) hd

/-- The only operand of a disjunction stands in tail position, and the first of several does not. -/
theorem exact_disjunction {first : Tower} (hfirst : first.Exact) (others : List Value) :
    (disjunction first others).Exact := by
  rintro e f m ⟨v, hv, he⟩ hf hd
  refine Ends.succ_iff.mp ?_
  simp only [Direct.run_tail, he.step_disjunction]
  cases others with
  | nil =>
    simp only [height, if_true]
    exact hfirst.after hv (.refl m) hf hd
  | cons w ws =>
    have hroom : m.depth + first.height ≤ maxDepth ∧ True ↔
        m.depth + (disjunction first (w :: ws)).height ≤ maxDepth + 1 := by
      rw [and_true, height, if_neg (by simp)]
      omega
    simp only [Form.disjunction, bind_assoc]
    refine ((hfirst.inner hv hf).bind fun u m₁ hu => ?_).of_iff hroom
    simp only [first.isTrue_of_denotes hu.1, if_true]
    exact .pure trivial hu

theorem exact_clauses {n : Nat} {test : Tower} (htest : test.Exact) {init : Fin n → Tower}
    (hinit : ∀ i, (init i).Exact) {last : Tower} (hlast : last.Exact) (others : List Value) :
    (clauses test init last others).Exact := by
  rintro e f m ⟨t, vs, v, c, ht, hvs, hv, hc, he⟩ hf hd
  have hroom : m.depth + test.height ≤ maxDepth ∧
      m.depth + bodyHeight (fun i => (init i).height) last.height ≤ maxDepth + 1 ↔
        m.depth + (clauses test init last others).height ≤ maxDepth + 1 := by
    rw [height]
    omega
  refine Ends.succ_iff.mp ?_
  simp only [Direct.run_tail, he.step_clauses, Form.clauses_cons _ f others hc (ht.ne_sym "else")
    (List.append_ne_nil_of_right_ne_nil _ (by simp)), bind_assoc]
  refine ((htest.inner ht hf).bind fun u m₁ hu => ?_).of_iff hroom
  simp only [test.isTrue_of_denotes hu.1, if_true]
  exact ends_body hinit hvs hlast hv hu.2 (hu.2.shows hf) hd

/-- The expressions are evaluated in the frame of the whole, and the body in a new one, from which
`list` is seen as before. -/
theorem exact_bindings {k n : Nat} {names : Fin k → String} (hnames : names.Injective)
    (hlist : ∀ i, names i ≠ "list") {inits : Fin k → Tower} (hinits : ∀ i, (inits i).Exact)
    {init : Fin n → Tower} (hinit : ∀ i, (init i).Exact) {last : Tower} (hlast : last.Exact) :
    (bindings names hnames hlist inits init last).Exact := by
  rintro e f m ⟨us, vs, v, hus, hvs, hv, he⟩ hf hd
  have hroom : (∀ i, m.depth + (inits i).height ≤ maxDepth) ∧ True ∧
      m.depth + bodyHeight (fun i => (init i).height) last.height ≤ maxDepth + 1 ↔
        m.depth + (bindings names hnames hlist inits init last).height ≤ maxDepth + 1 := by
    rw [true_and, ← add_sup_succ_le_iff hd, height]
    omega
  have hfst : (List.ofFn fun i => (names i, us i)).map Prod.fst = List.ofFn names := by
    rw [List.map_ofFn]
    rfl
  refine Ends.succ_iff.mp ?_
  simp only [Direct.run_tail, he.step (hfst ▸ List.nodup_ofFn.mpr hnames)
    (List.append_ne_nil_of_right_ne_nil _ (by simp)), boundFrame, bind_assoc, hfst]
  refine ((ends_inner hinits Prod.snd hus hf).bind fun ws m₁ hws => ?_).of_iff hroom
  have hframe : Ends (fun _ => newFrame (some f) ((List.ofFn names).zip ws)) m₁ True
      fun g m₂ => m₂.store.Shows g listTable ∧ Keeps m₁ m₂ := by
    refine .ok trivial 0 m₁.store.size
      { m₁ with store := m₁.store.push ⟨some f, (List.ofFn names).zip ws⟩ }
      ⟨(hws.2.shows hf).push_self fun x hx => ?_, rfl, ?_⟩ fun _ _ => rfl
    · obtain ⟨⟨_, w⟩, hmem, rfl⟩ := List.mem_map.mp hx
      obtain ⟨i, rfl⟩ := List.mem_ofFn.mp (List.of_mem_zip hmem).1
      simpa [listTable, Bindings.names] using hlist i
    · exact fun h => h.push _
  refine hframe.bind fun g m₂ hg => ?_
  exact ends_body hinit hvs hlast hv (hws.2.trans hg.2) hg.1 hd

/-- Every tower is exact, by induction on its shape. -/
theorem isExact (t : Tower) : t.Exact := by
  induction t with
  | constant i => exact exact_constant i
  | list es hes => exact exact_list hes
  | conditional test chosen other htest hchosen => exact exact_conditional htest hchosen other
  | sequence init last hinit hlast => exact exact_sequence hinit hlast
  | conjunction init last hinit hlast => exact exact_conjunction hinit hlast
  | disjunction first others hfirst => exact exact_disjunction hfirst others
  | clauses test init last others htest hinit hlast => exact exact_clauses htest hinit hlast others
  | bindings names hnames hlist inits init last hinits hinit hlast =>
    exact exact_bindings hnames hlist hinits hinit hlast

end Tower

/-! ## Both sides of the limit -/

/-- What the plain recursion ends with, the evaluation finishes with. -/
theorem Ends.finishes {e : Value} {f : FrameId} {m : Machine} {room : Prop}
    {P : Value → Machine → Prop} (h : Ends (fun n => Direct.run n .inner (.eval e f)) m room P) :
    (room ∧ ∃ v m', Finishes (fun n => run n (.eval e f)) m (.ok v m') ∧ P v m') ∨
      ¬room ∧ ∃ m', Finishes (fun n => run n (.eval e f)) m (.error (.fault .tooDeep) m') := by
  have hrun : ∀ {b : Nat} {r}, Direct.run b .inner (.eval e f) m = r → Finished r →
      Finishes (fun n => run n (.eval e f)) m r := by
    rintro b _ rfl hr
    have hbelow := (Fuel.direct_below_run b).2 b (Nat.le_refl b)
    exact ⟨hr, b, (hbelow.approximates _).eq_of_finished hr⟩
  rcases h with ⟨hroom, b, v, m', hP, hx⟩ | ⟨hroom, b, m', hx⟩
  · exact .inl ⟨hroom, v, m', hrun (hx b (Nat.le_refl b)) trivial, hP⟩
  · exact .inr ⟨hroom, m', hrun (hx b (Nat.le_refl b)) trivial⟩

/-- A frame that sees a name exists. -/
theorem Store.shows_of_get? {s : Store} {f : FrameId} {x : String} {v : Value}
    (h : s.get? f x = some v) : s.Shows f [(x, v)] := by
  refine .cons h (.nil ?_)
  by_contra hf
  have hnone : s.frames[f]? = none := Array.getElem?_eq_none (Nat.le_of_not_lt hf)
  have hlocal : s.local? f x = none := by simp only [local?, hnone]
  have hparent : s.parent? f = none := by simp only [parent?, hnone]
  rw [get?_eq, hlocal, hparent] at h
  cases h

/-- From any depth and in any frame that sees `list`, a tower has its value if and only if its
height fits into the levels that are left, and it fails if and only if it does not fit. Then the
message is that of the limit. -/
theorem tower_depth_exact {t : Tower} {e : Value} (he : t.Spells e) (f : FrameId) (m : Machine)
    (hf : m.store.get? f "list" = some (.builtin (.list .list))) :
    ((∃ v m', Finishes (fun n => run n (.eval e f)) m (.ok v m') ∧ Denotes v t.result) ↔
      m.depth + t.height ≤ maxDepth) ∧
    ((∃ fault m', Finishes (fun n => run n (.eval e f)) m (.error (.fault fault) m') ∧
        fault.message m'.store.frameText = "maximum recursion depth exceeded") ↔
      maxDepth < m.depth + t.height) := by
  rcases (t.isExact.inner he (Store.shows_of_get? hf)).finishes with
    ⟨hroom, v, m', hfin, hv, -⟩ | ⟨hroom, m', hfin⟩
  · refine ⟨iff_of_true ⟨v, m', hfin, hv⟩ hroom, iff_of_false ?_ (Nat.not_lt.mpr hroom)⟩
    rintro ⟨fault, m₁, hfin', -⟩
    cases hfin.unique hfin'
  · refine ⟨iff_of_false ?_ hroom, iff_of_true ⟨.tooDeep, m', hfin, rfl⟩ (Nat.lt_of_not_le hroom)⟩
    rintro ⟨v, m₁, hfin', -⟩
    cases hfin.unique hfin'

/-- `(let ((x 1)) (list (list) 2))` takes three levels, one for the expression, which is also that
of the call, one for the operand, and one for the name in it. -/
theorem tower_depth_exact_list :
    let t : Tower := .bindings (k := 1) (n := 0) (fun _ => "x")
      (Function.injective_of_subsingleton _) (by simp) (fun _ => .constant 1) Fin.elim0
      (.list (Fin.cons (.list Fin.elim0) (fun _ : Fin 1 => .constant 2)))
    let call : Value := .pair 1 (.sym "list")
      (.pair 2 (.pair 3 (.sym "list") .nil) (.pair 4 (.int 2) .nil))
    let e : Value := .pair 5 (.sym "let")
      (.pair 6 (.pair 7 (.pair 8 (.sym "x") (.pair 9 (.int 1) .nil)) .nil) (.pair 10 call .nil))
    let m (d : Nat) : Machine := { Session.new (fun _ => .absent) with depth := d }
    t.Spells e ∧ t.height = 3 ∧
    (∃ v m', Finishes (fun n => run n (.eval e 0)) (m 997) (.ok v m') ∧
      Denotes v (.ofList [.ofList [], .int 2])) ∧
    ∃ fault m', Finishes (fun n => run n (.eval e 0)) (m 998) (.error (.fault fault) m') ∧
      fault.message m'.store.frameText = "maximum recursion depth exceeded" := by
  intro t call e m
  have hlist : ∀ d, (m d).store.get? 0 "list" = some (.builtin (.list .list)) := fun d =>
    (Store.get?_global _ "list").trans rfl
  have hcall :
      (Tower.list (Fin.cons (.list Fin.elim0) (fun _ : Fin 1 => .constant 2))).Spells call :=
    ⟨Fin.cons (.pair 3 (.sym "list") .nil) fun _ => .int 2,
      Fin.cases ⟨Fin.elim0, fun i => i.elim0, rfl⟩ fun _ => rfl, rfl⟩
  have hspells : t.Spells e :=
    ⟨fun _ => .int 1, Fin.elim0, call, fun _ => rfl, fun i => i.elim0, hcall,
      _, _, rfl, rfl, .cons rfl .nil⟩
  have hheight : t.height = 3 := by decide
  refine ⟨hspells, hheight, ?_, ?_⟩
  · exact (tower_depth_exact hspells 0 (m 997) (hlist 997)).1.mpr (by rw [hheight]; decide)
  · exact (tower_depth_exact hspells 0 (m 998) (hlist 998)).2.mpr (by rw [hheight]; decide)

end Scheme
