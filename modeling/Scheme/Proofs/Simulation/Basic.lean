import Mathlib.Data.List.Forall2
import Mathlib.Order.Basic
import Scheme.Eval

/-!
# Comparing two runs

Many facts about evaluation compare two runs of it: one with more fuel than the other, one behind
other output, one in a store that differs where the program cannot look. What they have in common
is a `Simulation`. It says which machines, frames and values correspond, and that every basic
operation (a look-up, a binding, a new frame or object, a line of output) keeps the
correspondence. `Simulation.Nests` says the same of an evaluation's entry and exit, which change the
depth. What corresponds may grow during a run, so all of this depends on a world, and
what corresponds in one world does so in every later one.

`Simulation.Related` compares the outcomes of two actions and `Simulation.Agree` the actions
themselves. An outcome of the first run can be `lax`: then nothing is asked of the second. That
makes a run that uses up its fuel comparable with every other one.

An invariant of single runs is a simulation between a run and itself.
-/

namespace Scheme

/-! ## Actions in a row -/

section

variable {α β : Type} {m m' : Machine}

/-- A step of an action that succeeds. -/
theorem EvalM.bind_ok {x : EvalM α} {k : α → EvalM β} {a : α} (h : x m = .ok a m') :
    (x >>= k) m = k a m' := by
  simp only [bind, EStateM.bind, h]

/-- Behind a step that stops, nothing is done. -/
theorem EvalM.bind_error {x : EvalM α} {k : α → EvalM β} {s : Stop} (h : x m = .error s m') :
    (x >>= k) m = .error s m' := by
  simp only [bind, EStateM.bind, h]

/-- Two actions in a row succeed only if both do. -/
theorem EvalM.bind_eq_ok {x : EvalM α} {k : α → EvalM β} {b : β} (h : (x >>= k) m = .ok b m') :
    ∃ a m₁, x m = .ok a m₁ ∧ k a m₁ = .ok b m' := by
  simp only [bind, EStateM.bind] at h
  split at h
  · next a m₁ hx => exact ⟨a, m₁, hx, h⟩
  · simp at h

theorem EvalM.attempt_ok {x : EvalM α} {a : α} (h : x m = .ok a m') :
    attempt x m = .ok (.ok a) m' := by
  simp only [attempt, h]

end

/-- The machine at the end of a run. -/
def finalMachine : EStateM.Result Stop Machine Value → Machine
  | .ok _ m => m
  | .error _ m => m

/-! ## What corresponds -/

/-- Scopes that look up free names in corresponding frames. -/
inductive Scope.Alike (frame : FrameId → FrameId → Prop) : Scope → Scope → Prop
  | lexical {f f' : FrameId} (h : frame f f') : Alike frame (.lexical f) (.lexical f')
  | dynamic : Alike frame .dynamic .dynamic

/-- Values of the same kind whose parts correspond. -/
inductive Value.Layer (permits : Builtin → Prop) (frame : FrameId → FrameId → Prop)
    (value : Value → Value → Prop) : Value → Value → Prop
  | int (i : Int) : Layer permits frame value (.int i) (.int i)
  | float (x : Float) : Layer permits frame value (.float x) (.float x)
  | bool (b : Bool) : Layer permits frame value (.bool b) (.bool b)
  | str (i j : Label) (s : String) : Layer permits frame value (.str i s) (.str j s)
  | sym (x : String) : Layer permits frame value (.sym x) (.sym x)
  | nil : Layer permits frame value .nil .nil
  | pair (i j : Label) {a a' d d' : Value} (ha : value a a') (hd : value d d') :
      Layer permits frame value (.pair i a d) (.pair j a' d')
  | builtin (b : Builtin) (h : permits b) : Layer permits frame value (.builtin b) (.builtin b)
  | closure (i j : Label) {s s' : Scope} {formals formals' body body' : Value}
      (hs : s.Alike frame s') (hf : value formals formals') (hb : value body body') :
      Layer permits frame value (.closure i s formals body) (.closure j s' formals' body')
  | env {f f' : FrameId} (h : frame f f') : Layer permits frame value (.env f) (.env f')
  | undefined : Layer permits frame value .undefined .undefined

/-- A value without identity and without parts. -/
def Value.isConstant : Value → Bool
  | int _ | float _ | bool _ | sym _ | nil | undefined => true
  | _ => false

/-- A fault that holds no value. -/
def Fault.isPlain : Fault → Bool
  | malformedList _ | badlyFormed _ | badForm .. | tooFewOperands .. | tooManyOperands ..
  | badFormals _ | badParameters _ | duplicateParameter .. | badDefine _ | notCallable _
  | badBindings _ | badBinding _ | notArgumentList _ | notFileName _ | notNumber _
  | notInteger _ | notList _ | inside .. => false
  | _ => true

/-- Faults with the same cause and corresponding values. -/
inductive Fault.Alike (value : Value → Value → Prop) : Fault → Fault → Prop
  | plain {e : Fault} (h : e.isPlain = true) : Alike value e e
  | malformedList {v v' : Value} (h : value v v') :
      Alike value (.malformedList v) (.malformedList v')
  | badlyFormed {v v' : Value} (h : value v v') : Alike value (.badlyFormed v) (.badlyFormed v')
  | badForm (k : String) {v v' : Value} (h : value v v') :
      Alike value (.badForm k v) (.badForm k v')
  | tooFewOperands (k : String) {v v' : Value} (h : value v v') :
      Alike value (.tooFewOperands k v) (.tooFewOperands k v')
  | tooManyOperands (k : String) {v v' : Value} (h : value v v') :
      Alike value (.tooManyOperands k v) (.tooManyOperands k v')
  | badFormals {v v' : Value} (h : value v v') : Alike value (.badFormals v) (.badFormals v')
  | badParameters {vs vs' : List Value} (h : List.Forall₂ value vs vs') :
      Alike value (.badParameters vs) (.badParameters vs')
  | duplicateParameter (x : String) {vs vs' : List Value} (h : List.Forall₂ value vs vs') :
      Alike value (.duplicateParameter vs x) (.duplicateParameter vs' x)
  | badDefine {v v' : Value} (h : value v v') : Alike value (.badDefine v) (.badDefine v')
  | notCallable {v v' : Value} (h : value v v') : Alike value (.notCallable v) (.notCallable v')
  | badBindings {v v' : Value} (h : value v v') : Alike value (.badBindings v) (.badBindings v')
  | badBinding {v v' : Value} (h : value v v') : Alike value (.badBinding v) (.badBinding v')
  | notArgumentList {v v' : Value} (h : value v v') :
      Alike value (.notArgumentList v) (.notArgumentList v')
  | notFileName {v v' : Value} (h : value v v') : Alike value (.notFileName v) (.notFileName v')
  | notNumber {v v' : Value} (h : value v v') : Alike value (.notNumber v) (.notNumber v')
  | notInteger {v v' : Value} (h : value v v') : Alike value (.notInteger v) (.notInteger v')
  | notList {v v' : Value} (h : value v v') : Alike value (.notList v) (.notList v')
  | inside (name : String) {e e' : Fault} (h : Alike value e e') :
      Alike value (.inside name e) (.inside name e')

/-- A weaker relation between the values makes for a weaker one between the faults. -/
theorem Fault.Alike.imp {P Q : Value → Value → Prop} (h : ∀ v v', P v v' → Q v v')
    {e e' : Fault} (he : e.Alike P e') : e.Alike Q e' := by
  induction he with
  | plain hp => exact .plain hp
  | malformedList hv => exact .malformedList (h _ _ hv)
  | badlyFormed hv => exact .badlyFormed (h _ _ hv)
  | badForm k hv => exact .badForm k (h _ _ hv)
  | tooFewOperands k hv => exact .tooFewOperands k (h _ _ hv)
  | tooManyOperands k hv => exact .tooManyOperands k (h _ _ hv)
  | badFormals hv => exact .badFormals (h _ _ hv)
  | badParameters hv => exact .badParameters (hv.imp h)
  | duplicateParameter x hv => exact .duplicateParameter x (hv.imp h)
  | badDefine hv => exact .badDefine (h _ _ hv)
  | notCallable hv => exact .notCallable (h _ _ hv)
  | badBindings hv => exact .badBindings (h _ _ hv)
  | badBinding hv => exact .badBinding (h _ _ hv)
  | notArgumentList hv => exact .notArgumentList (h _ _ hv)
  | notFileName hv => exact .notFileName (h _ _ hv)
  | notNumber hv => exact .notNumber (h _ _ hv)
  | notInteger hv => exact .notInteger (h _ _ hv)
  | notList hv => exact .notList (h _ _ hv)
  | inside name _ ih => exact .inside name ih

/-- Bindings of the same names, in the same order, to corresponding values. -/
def Bindings.Alike (value : Value → Value → Prop) : Bindings → Bindings → Prop :=
  List.Forall₂ fun e e' => e.1 = e'.1 ∧ value e.2 e'.2

/-- A correspondence between two runs that every basic operation keeps. -/
structure Simulation (W : Type) [Preorder W] where
  machine : W → Machine → Machine → Prop
  frame : W → FrameId → FrameId → Prop
  value : W → Value → Value → Prop
  /-- The built-in procedures that a program can get hold of. -/
  permits : Builtin → Prop
  /-- The outcomes of the first run that ask nothing of the second. -/
  lax : Stop → Prop
  frame_mono {w w' : W} {f f' : FrameId} : w ≤ w' → frame w f f' → frame w' f f'
  value_mono {w w' : W} {v v' : Value} : w ≤ w' → value w v v' → value w' v v'
  layer {w : W} {v v' : Value} : value w v v' → v.Layer permits (frame w) (value w) v'
  constant (w : W) {v : Value} : v.isConstant = true → value w v v
  env {w : W} {f f' : FrameId} :
    permits (.host .here) → frame w f f' → value w (.env f) (.env f')
  same {w : W} {u u' v v' : Value} : value w u u' → value w v v' → u.same v = u'.same v'
  -- What the two machines show of themselves.
  get? {w : W} {m m' : Machine} {f f' : FrameId} (x : String) : machine w m m' → frame w f f' →
    Option.Rel (value w) (m.store.get? f x) (m'.store.get? f' x)
  root {w : W} {m m' : Machine} {f f' : FrameId} : machine w m m' → frame w f f' →
    frame w (m.store.root f) (m'.store.root f')
  frameText {w : W} {m m' : Machine} {f f' : FrameId} : machine w m m' → frame w f f' →
    m.store.frameText f = m'.store.frameText f'
  files {w : W} {m m' : Machine} : machine w m m' → m.files = m'.files
  -- What can be done to both of them.
  define {w : W} {m m' : Machine} {f f' : FrameId} {v v' : Value} (x : String) :
    machine w m m' → frame w f f' → value w v v' →
    machine w { m with store := m.store.define f x v }
      { m' with store := m'.store.define f' x v' }
  newFrame {w : W} {m m' : Machine} {p p' : FrameId} {b b' : Bindings} :
    machine w m m' → frame w p p' → b.Alike (value w) b' →
    ∃ w', w ≤ w' ∧ machine w' { m with store := m.store.push ⟨some p, b⟩ }
      { m' with store := m'.store.push ⟨some p', b'⟩ } ∧ frame w' m.store.size m'.store.size
  newPair {w : W} {m m' : Machine} {a a' d d' : Value} :
    machine w m m' → value w a a' → value w d d' →
    ∃ w', w ≤ w' ∧ machine w' { m with nextLabel := m.nextLabel + 1 }
      { m' with nextLabel := m'.nextLabel + 1 } ∧
      value w' (.pair m.nextLabel a d) (.pair m'.nextLabel a' d')
  newString {w : W} {m m' : Machine} (s : String) : machine w m m' →
    ∃ w', w ≤ w' ∧ machine w' { m with nextLabel := m.nextLabel + 1 }
      { m' with nextLabel := m'.nextLabel + 1 } ∧
      value w' (.str m.nextLabel s) (.str m'.nextLabel s)
  newClosure {w : W} {m m' : Machine} {s s' : Scope} {formals formals' body body' : Value}
    {xs : List String} : machine w m m' → s.Alike (frame w) s' → value w formals formals' →
    value w body body' → Form.parameters formals = .ok xs →
    ∃ w', w ≤ w' ∧ machine w' { m with nextLabel := m.nextLabel + 1 }
      { m' with nextLabel := m'.nextLabel + 1 } ∧
      value w' (.closure m.nextLabel s formals body) (.closure m'.nextLabel s' formals' body')
  emit {w : W} {m m' : Machine} (text : String) : machine w m m' →
    machine w { m with out := m.out ++ text } { m' with out := m'.out ++ text }
  emitError {w : W} {m m' : Machine} (text : String) : machine w m m' →
    machine w { m with err := m.err ++ text } { m' with err := m'.err ++ text }
  -- A lax fault stays lax under the name of a procedure. Loading would catch it, so then there
  -- is nothing to load.
  lax_inside {e : Fault} (name : String) : lax (.fault e) → lax (.fault (.inside name e))
  lax_file {e : Fault} {w : W} {m m' : Machine} (name : String) (bytes : ByteArray) :
    lax (.fault e) → machine w m m' → m.files name ≠ .file bytes

namespace Simulation

variable {W : Type} [Preorder W] (S : Simulation W)

/-- A correspondence that nested evaluations keep as well: it does not hang on the depth, and the
two runs come to the limit together, or the first one earlier. -/
class Nests : Prop where
  limit {w : W} {m m' : Machine} : S.machine w m m' → maxDepth ≤ m'.depth → maxDepth ≤ m.depth
  limit_lax {w : W} {m m' : Machine} : S.machine w m m' → maxDepth ≤ m.depth →
    maxDepth ≤ m'.depth ∨ S.lax (.fault .tooDeep)
  enter {w : W} {m m' : Machine} : S.machine w m m' →
    S.machine w { m with depth := m.depth + 1 } { m' with depth := m'.depth + 1 }
  leave {w : W} {m m' : Machine} : S.machine w m m' →
    S.machine w { m with depth := m.depth - 1 } { m' with depth := m'.depth - 1 }

/-- Corresponding expressions: values, or the sequences that corresponding bodies stand for, which
are objects without an identity of their own. -/
def expr (w : W) (e e' : Value) : Prop :=
  S.value w e e' ∨ ∃ b b', e = .pair Value.noLabel (.sym "begin") b ∧
    e' = .pair Value.noLabel (.sym "begin") b' ∧ S.value w b b'

/-- Corresponding faults. -/
def fault (w : W) (e e' : Fault) : Prop := e.Alike (S.expr w) e'

/-- Stops for corresponding reasons. -/
inductive stop (w : W) : Stop → Stop → Prop
  | fault {e e' : Fault} (h : S.fault w e e') : stop w (.fault e) (.fault e')
  | halt (h : Halt) : stop w (.halt h) (.halt h)

/-- Corresponding steps. -/
inductive step (w : W) : Step → Step → Prop
  | done {v v' : Value} (h : S.value w v v') : step w (.done v) (.done v')
  | next {e e' : Value} {f f' : FrameId} (he : S.expr w e e') (hf : S.frame w f f') :
      step w (.next e f) (.next e' f')

/-- Corresponding tasks. -/
inductive task (w : W) : Task → Task → Prop
  | eval {e e' : Value} {f f' : FrameId} (he : S.expr w e e') (hf : S.frame w f f') :
      task w (.eval e f) (.eval e' f')
  | apply {p p' : Value} {args args' : List Value} {f f' : FrameId} (hp : S.value w p p')
      (ha : List.Forall₂ (S.value w) args args') (hf : S.frame w f f') :
      task w (.apply p args f) (.apply p' args' f')

/-- Corresponding outcomes of two actions that were started in the world `w`. -/
inductive Related {α β : Type} (w : W) (Q : W → α → β → Prop) :
    EStateM.Result Stop Machine α → EStateM.Result Stop Machine β → Prop
  | ok {w' : W} {a : α} {b : β} {m m' : Machine} (hw : w ≤ w') (hm : S.machine w' m m')
      (hq : Q w' a b) : Related w Q (.ok a m) (.ok b m')
  | error {w' : W} {s s' : Stop} {m m' : Machine} (hw : w ≤ w') (hm : S.machine w' m m')
      (hs : S.stop w' s s') : Related w Q (.error s m) (.error s' m')
  | lax {s : Stop} {m : Machine} {r : EStateM.Result Stop Machine β} (h : S.lax s) :
      Related w Q (.error s m) r

/-- Actions that have corresponding outcomes on corresponding machines. -/
def Agree {α β : Type} (w : W) (Q : W → α → β → Prop) (x : EvalM α) (y : EvalM β) : Prop :=
  ∀ m m', S.machine w m m' → S.Related w Q (x m) (y m')

/-- Corresponding outcomes of two checks. -/
inductive Checked {α β : Type} (w : W) (Q : α → β → Prop) :
    Except Fault α → Except Fault β → Prop
  | ok {a : α} {b : β} (h : Q a b) : Checked w Q (.ok a) (.ok b)
  | error {e e' : Fault} (h : S.fault w e e') : Checked w Q (.error e) (.error e')

/-- Evaluators that carry out corresponding tasks with corresponding outcomes. -/
def Evaluators (ev ev' : Evaluator) : Prop :=
  ∀ w t t', S.task w t t' → S.Agree w S.value (ev t) (ev' t')

/-! ## Later worlds -/

variable {S} {α β γ δ : Type} {w w' : W}

theorem expr_of_value {e e' : Value} (h : S.value w e e') : S.expr w e e' := Or.inl h

theorem values_mono (hw : w ≤ w') {vs vs' : List Value} (h : List.Forall₂ (S.value w) vs vs') :
    List.Forall₂ (S.value w') vs vs' :=
  h.imp fun _ _ => S.value_mono hw

/-- Expressions that correspond do so in all later worlds. -/
theorem expr_mono (hw : w ≤ w') {e e' : Value} (h : S.expr w e e') : S.expr w' e e' := by
  rcases h with h | ⟨b, b', he, he', hb⟩
  · exact Or.inl (S.value_mono hw h)
  · exact Or.inr ⟨b, b', he, he', S.value_mono hw hb⟩

theorem fault_mono (hw : w ≤ w') {e e' : Fault} (h : S.fault w e e') : S.fault w' e e' :=
  h.imp fun _ _ => expr_mono hw

/-- A fault that names no value corresponds to itself. -/
theorem fault_plain {e : Fault} (h : e.isPlain = true) : S.fault w e e := .plain h

/-! ## Actions -/

/-- Outcomes that correspond from a later world on correspond from an earlier one. -/
theorem Related.of_le {Q : W → α → β → Prop} (hw : w ≤ w')
    {r : EStateM.Result Stop Machine α} {r' : EStateM.Result Stop Machine β}
    (h : S.Related w' Q r r') : S.Related w Q r r' := by
  cases h with
  | ok hw' hm hq => exact .ok (hw.trans hw') hm hq
  | error hw' hm hs => exact .error (hw.trans hw') hm hs
  | lax hl => exact .lax hl

namespace Agree

theorem pure {Q : W → α → β → Prop} {a : α} {b : β} (h : Q w a b) :
    S.Agree w Q (Pure.pure a) (Pure.pure b) :=
  fun _ _ hm => .ok le_rfl hm h

theorem fail {Q : W → α → β → Prop} {e e' : Fault} (h : S.fault w e e') :
    S.Agree w Q (EvalM.fail e) (EvalM.fail e') :=
  fun _ _ hm => .error le_rfl hm (.fault h)

theorem halt {Q : W → α → β → Prop} (h : Halt) :
    S.Agree w Q (EvalM.halt h) (EvalM.halt h) :=
  fun _ _ hm => .error le_rfl hm (.halt h)

/-- Actions agree one after the other if the second ones agree in every world that the first ones
may lead to. -/
theorem bind {P : W → α → β → Prop} {Q : W → γ → δ → Prop} {x : EvalM α} {y : EvalM β}
    {g : α → EvalM γ} {k : β → EvalM δ} (hx : S.Agree w P x y)
    (hg : ∀ w' a b, w ≤ w' → P w' a b → S.Agree w' Q (g a) (k b)) :
    S.Agree w Q (x >>= g) (y >>= k) := by
  intro m m' hm
  have h := hx m m' hm
  change S.Related w Q (EStateM.bind x g m) (EStateM.bind y k m')
  unfold EStateM.bind
  revert h
  generalize x m = r, y m' = r'
  intro h
  cases h with
  | ok hw hm hp => exact (hg _ _ _ hw hp _ _ hm).of_le hw
  | error hw hm hs => exact .error hw hm hs
  | lax hl => exact .lax hl

theorem map {P : W → α → β → Prop} {Q : W → γ → δ → Prop} {x : EvalM α} {y : EvalM β}
    {g : α → γ} {k : β → δ} (hx : S.Agree w P x y)
    (hg : ∀ w' a b, w ≤ w' → P w' a b → Q w' (g a) (k b)) :
    S.Agree w Q (do return g (← x)) (do return k (← y)) :=
  hx.bind fun w' a b hw h => pure (hg w' a b hw h)

/-- Checks with corresponding outcomes agree as actions. -/
theorem check {Q : W → α → β → Prop} {c : Except Fault α} {c' : Except Fault β}
    (h : S.Checked w (Q w) c c') : S.Agree w Q (EvalM.check c) (EvalM.check c') := by
  cases h with
  | ok h => exact pure h
  | error h => exact fail h

/-- What an attempt gives corresponds if no lax fault can be caught. -/
theorem attempt {Q : W → α → β → Prop} {x : EvalM α} {y : EvalM β}
    (hl : ∀ e, ¬S.lax (.fault e)) (hx : S.Agree w Q x y) :
    S.Agree w (fun w => S.Checked w (Q w)) (EvalM.attempt x) (EvalM.attempt y) := by
  intro m m' hm
  have h := hx m m' hm
  unfold EvalM.attempt
  revert h
  generalize x m = r, y m' = r'
  intro h
  cases h with
  | ok hw hm hq => exact .ok hw hm (.ok hq)
  | error hw hm hs =>
    cases hs with
    | fault he => exact .ok hw hm (.error he)
    | halt h => exact .error hw hm (.halt h)
  | @lax s _ _ h =>
    cases s with
    | fault e => exact absurd h (hl e)
    | halt r => exact .lax h

/-- One level down the actions still agree: the two machines are at the limit together, or the first
one is and this asks nothing of the second. -/
theorem nested [S.Nests] {Q : W → α → β → Prop} {x : EvalM α} {y : EvalM β}
    (hx : S.Agree w Q x y) : S.Agree w Q (EvalM.nested x) (EvalM.nested y) := by
  intro m m' hm
  unfold EvalM.nested
  by_cases hd : maxDepth ≤ m.depth
  · rw [if_pos hd]
    rcases Nests.limit_lax hm hd with hd' | hl
    · rw [if_pos hd']
      exact .error le_rfl hm (.fault (fault_plain rfl))
    · exact .lax hl
  · rw [if_neg hd, if_neg fun hd' => hd (Nests.limit hm hd')]
    have h := hx _ _ (Nests.enter hm)
    revert h
    generalize x _ = r, y _ = r'
    intro h
    cases h with
    | ok hw hm hq => exact .ok hw (Nests.leave hm) hq
    | error hw hm hs => exact .error hw (Nests.leave hm) hs
    | lax hl => exact .lax hl

theorem ite {Q : W → α → β → Prop} {p : Prop} [Decidable p] {x x₁ : EvalM α} {y y₁ : EvalM β}
    (hx : S.Agree w Q x y) (hx₁ : S.Agree w Q x₁ y₁) :
    S.Agree w Q (if p then x else x₁) (if p then y else y₁) := by
  split
  · exact hx
  · exact hx₁

/-- An action on corresponding elements, one by one. -/
theorem mapM {Q : W → α → β → Prop} {g : Value → EvalM α} {k : Value → EvalM β}
    (hQ : ∀ w w' a b, w ≤ w' → Q w a b → Q w' a b) :
    ∀ {vs vs' : List Value} {w : W}, List.Forall₂ (S.value w) vs vs' →
      (∀ w' v v', w ≤ w' → S.value w' v v' → S.Agree w' Q (g v) (k v')) →
        S.Agree w (fun w => List.Forall₂ (Q w)) (vs.mapM g) (vs'.mapM k)
  | _, _, _, .nil, _ => pure .nil
  | _, _, _, .cons hv hs, hg => by
    rw [List.mapM_cons, List.mapM_cons]
    refine (hg _ _ _ le_rfl hv).bind fun w₁ _ _ hw₁ ha => ?_
    refine (mapM hQ (values_mono hw₁ hs) fun w' v v' hw' => hg w' v v' (hw₁.trans hw')).bind ?_
    exact fun w₂ _ _ hw₂ hr => pure (.cons (hQ _ _ _ _ hw₂ ha) hr)

/-- An action that goes from element to element with a result in hand. -/
theorem foldlM {g k : β → α → EvalM β} :
    ∀ {as : List α} {w : W} {b : β},
      (∀ w' b a, w ≤ w' → S.Agree w' (fun _ => Eq) (g b a) (k b a)) →
        S.Agree w (fun _ => Eq) (as.foldlM g b) (as.foldlM k b)
  | [], _, _, _ => pure rfl
  | a :: as, _, b, hg => by
    rw [List.foldlM_cons, List.foldlM_cons]
    refine (hg _ b a le_rfl).bind fun w₁ c _ hw₁ hc => hc ▸ ?_
    exact foldlM fun w' b a hw' => hg w' b a (hw₁.trans hw')

/-! ## Objects, frames and output -/

/-- Pairs of corresponding values correspond in a later world. -/
theorem cons {a a' d d' : Value} (ha : S.value w a a') (hd : S.value w d d') :
    S.Agree w S.value (EvalM.cons a d) (EvalM.cons a' d') := by
  intro m m' hm
  obtain ⟨w', hw, hm', hv⟩ := S.newPair hm ha hd
  exact .ok hw hm' hv

/-- Both machines make a string of the same characters. -/
theorem newString (s : String) :
    S.Agree w S.value (EvalM.newString s) (EvalM.newString s) := by
  intro m m' hm
  obtain ⟨w', hw, hm', hv⟩ := S.newString s hm
  exact .ok hw hm' hv

/-- Lists in front of corresponding tails correspond if their elements do. -/
theorem consReversed : ∀ {vs vs' : List Value} {w : W} {v v' : Value}, S.value w v v' →
    List.Forall₂ (S.value w) vs vs' →
      S.Agree w S.value (EvalM.consReversed v vs) (EvalM.consReversed v' vs')
  | _, _, _, _, _, hv, .nil => pure hv
  | _, _, _, _, _, hv, .cons ha hs =>
    (cons ha hv).bind fun _ _ _ hw hp => consReversed hp (values_mono hw hs)

theorem newList {vs vs' : List Value} (h : List.Forall₂ (S.value w) vs vs') :
    S.Agree w S.value (EvalM.newList vs) (EvalM.newList vs') :=
  consReversed (S.constant w rfl) (List.rel_reverse h)

/-- A datum becomes corresponding values. -/
theorem embedOnto : ∀ (d : Datum) {w : W} {met met' : List Value},
    List.Forall₂ (S.value w) met met' →
      S.Agree w S.value (EvalM.embedOnto met d) (EvalM.embedOnto met' d)
  | .int _, _, _, _, h => consReversed (S.constant _ rfl) h
  | .float _, _, _, _, h => consReversed (S.constant _ rfl) h
  | .bool _, _, _, _, h => consReversed (S.constant _ rfl) h
  | .sym _, _, _, _, h => consReversed (S.constant _ rfl) h
  | .nil, _, _, _, h => consReversed (S.constant _ rfl) h
  | .str s, _, _, _, h => (newString s).bind fun _ _ _ hw hv => consReversed hv (values_mono hw h)
  | .pair a d, _, _, _, h =>
    (embedOnto a .nil).bind fun _ _ _ hw hv => embedOnto d (.cons hv (values_mono hw h))

/-- A name has corresponding values in corresponding frames, or it is unbound in both. -/
theorem lookup {f f' : FrameId} (x : String) (hf : S.frame w f f') :
    S.Agree w S.value (EvalM.lookup f x) (EvalM.lookup f' x) := by
  intro m m' hm
  have h := S.get? x hm hf
  unfold EvalM.lookup
  revert h
  generalize m.store.get? f x = v, m'.store.get? f' x = v'
  intro h
  cases h with
  | some hv => exact .ok le_rfl hm hv
  | none => exact .error le_rfl hm (.fault (fault_plain rfl))

/-- A definition in corresponding frames keeps the machines in correspondence. -/
theorem define {f f' : FrameId} {v v' : Value} (x : String) (hf : S.frame w f f')
    (hv : S.value w v v') :
    S.Agree w (fun _ _ _ => True) (EvalM.define f x v) (EvalM.define f' x v') :=
  fun _ _ hm => .ok le_rfl (S.define x hm hf hv) trivial

/-- New frames below corresponding ones correspond if they bind the same names to corresponding
values. -/
theorem newFrame {p p' : FrameId} {b b' : Bindings} (hp : S.frame w p p')
    (hb : b.Alike (S.value w) b') :
    S.Agree w S.frame (EvalM.newFrame (some p) b) (EvalM.newFrame (some p') b') := by
  intro m m' hm
  obtain ⟨w', hw, hm', hf⟩ := S.newFrame hm hp hb
  exact .ok hw hm' hf

theorem emit (text : String) :
    S.Agree w (fun _ _ _ => True) (EvalM.emit text) (EvalM.emit text) :=
  fun _ _ hm => .ok le_rfl (S.emit text hm) trivial

theorem emitError (text : String) :
    S.Agree w (fun _ _ _ => True) (EvalM.emitError text) (EvalM.emitError text) :=
  fun _ _ hm => .ok le_rfl (S.emitError text hm) trivial

end Agree

/-! ## Checks -/

namespace Checked

/-- Checks correspond one after the other. -/
theorem bind {P : α → β → Prop} {Q : γ → δ → Prop} {c : Except Fault α} {c' : Except Fault β}
    {g : α → Except Fault γ} {k : β → Except Fault δ} (hc : S.Checked w P c c')
    (hg : ∀ a b, P a b → S.Checked w Q (g a) (k b)) : S.Checked w Q (c >>= g) (c' >>= k) := by
  cases hc with
  | ok h => exact hg _ _ h
  | error h => exact .error h

theorem ite {Q : α → β → Prop} {p : Prop} [Decidable p] {c d : Except Fault α}
    {c' d' : Except Fault β} (hc : S.Checked w Q c c') (hd : S.Checked w Q d d') :
    S.Checked w Q (if p then c else d) (if p then c' else d') := by
  split
  · exact hc
  · exact hd

/-- A check of elements one by one. -/
theorem mapM {P : α → β → Prop} {Q : γ → δ → Prop} {g : α → Except Fault γ}
    {k : β → Except Fault δ} (hg : ∀ a b, P a b → S.Checked w Q (g a) (k b)) :
    ∀ {as : List α} {bs : List β}, List.Forall₂ P as bs →
      S.Checked w (List.Forall₂ Q) (as.mapM g) (bs.mapM k)
  | _, _, .nil => .ok .nil
  | _, _, .cons ha hs => by
    rw [List.mapM_cons, List.mapM_cons]
    exact (hg _ _ ha).bind fun _ _ hc => (mapM hg hs).bind fun _ _ hcs => .ok (.cons hc hcs)

/-- A check that goes from element to element with a result in hand. -/
theorem foldlM {P : α → β → Prop} {Q : γ → δ → Prop} {g : γ → α → Except Fault γ}
    {k : δ → β → Except Fault δ}
    (hg : ∀ c d a b, Q c d → P a b → S.Checked w Q (g c a) (k d b)) :
    ∀ {as : List α} {bs : List β} {c : γ} {d : δ}, List.Forall₂ P as bs → Q c d →
      S.Checked w Q (as.foldlM g c) (bs.foldlM k d)
  | _, _, _, _, .nil, hq => .ok hq
  | _, _, _, _, .cons ha hs, hq => by
    rw [List.foldlM_cons, List.foldlM_cons]
    exact (hg _ _ _ _ hq ha).bind fun _ _ hc => foldlM hg hs hc

end Checked

end Simulation

end Scheme
