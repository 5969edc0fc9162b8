import Scheme.Proofs.Simulation.Eval

/-!
# What programs cannot look at

Two machines with the same store, the same next label and the same files can differ in what was
written before, in the depth, or not at all. An `Indifference` is a relation between such machines
that the basic operations keep. It is a simulation in which values, frames and labels correspond
only to themselves, so two runs have equal results (`Indifference.related_cases`). Nothing grows,
and there is only one world.
-/

namespace Scheme

open EvalM

/-- The world of a correspondence that does not grow. -/
inductive OneWorld where
  | here

instance : Preorder OneWorld where
  le _ _ := True
  le_refl _ := trivial
  le_trans _ _ _ _ _ := trivial

/-- Machines whose differences make none to a program, and the outcomes of the first run that are
not compared. -/
structure Indifference where
  machine : Machine → Machine → Prop
  lax : Stop → Prop
  store {m m' : Machine} : machine m m' → m.store = m'.store
  nextLabel {m m' : Machine} : machine m m' → m.nextLabel = m'.nextLabel
  files {m m' : Machine} : machine m m' → m.files = m'.files
  setStore {m m' : Machine} (s : Store) : machine m m' →
    machine { m with store := s } { m' with store := s }
  setLabel {m m' : Machine} (i : Label) : machine m m' →
    machine { m with nextLabel := i } { m' with nextLabel := i }
  emit {m m' : Machine} (text : String) : machine m m' →
    machine { m with out := m.out ++ text } { m' with out := m'.out ++ text }
  emitError {m m' : Machine} (text : String) : machine m m' →
    machine { m with err := m.err ++ text } { m' with err := m'.err ++ text }
  lax_inside {e : Fault} (name : String) : lax (.fault e) → lax (.fault (.inside name e))
  lax_file {e : Fault} {m m' : Machine} (name : String) (bytes : ByteArray) :
    lax (.fault e) → machine m m' → m.files name ≠ .file bytes

/-- Every value is a layer of its own kind over its own components. -/
theorem Value.layer_refl (v : Value) : v.Layer (fun _ => True) Eq Eq v := by
  cases v with
  | closure i s formals body =>
    refine .closure i i ?_ rfl rfl
    cases s with
    | lexical f => exact .lexical rfl
    | dynamic => exact .dynamic
  | int i => exact .int i
  | float x => exact .float x
  | bool b => exact .bool b
  | str i s => exact .str i i s
  | sym x => exact .sym x
  | nil => exact .nil
  | pair i a d => exact .pair i i rfl rfl
  | builtin b => exact .builtin b trivial
  | env f => exact .env rfl
  | undefined => exact .undefined

theorem Scope.Alike.eq {s s' : Scope} (h : s.Alike Eq s') : s = s' := by
  cases h with
  | lexical h => rw [h]
  | dynamic => rfl

theorem Fault.Alike.eq {e e' : Fault} (h : e.Alike Eq e') : e = e' := by
  induction h with
  | plain => rfl
  | badParameters h => rw [List.forall₂_eq_eq_eq.le _ _ h]
  | duplicateParameter x h => rw [List.forall₂_eq_eq_eq.le _ _ h]
  | inside name _ ih => rw [ih]
  | badForm k h => rw [h]
  | tooFewOperands k h => rw [h]
  | tooManyOperands k h => rw [h]
  | _ h => rw [h]

theorem Bindings.Alike.eq {b b' : Bindings} (h : b.Alike Eq b') : b = b' := by
  induction h with
  | nil => rfl
  | cons h _ ih => rw [Prod.ext h.1 h.2, ih]

/-- Where values correspond only to themselves, so do reasons to stop. -/
theorem Simulation.stop_eq {W : Type} [Preorder W] {S : Simulation W} {w : W}
    (hv : ∀ {v v'}, S.value w v v' → v = v') {s s' : Stop} (h : S.stop w s s') : s = s' := by
  have he : ∀ e e', S.expr w e e' → e = e' := by
    rintro e e' (h | ⟨b, b', rfl, rfl, hb⟩)
    · exact hv h
    · rw [hv hb]
  cases h with
  | fault h => exact congrArg _ (h.imp he).eq
  | halt => rfl

namespace Indifference

variable (I : Indifference)

/-- The correspondence in which everything corresponds to itself. -/
def simulation : Simulation OneWorld where
  machine _ := I.machine
  frame _ := Eq
  value _ := Eq
  permits _ := True
  lax := I.lax
  frame_mono _ h := h
  value_mono _ h := h
  layer h := h ▸ Value.layer_refl _
  constant _ _ _ := rfl
  env _ h := h ▸ rfl
  same hu hv := hu ▸ hv ▸ rfl
  get? {w m m' f f'} x hm hf := by
    rw [I.store hm, hf]
    cases m'.store.get? f' x with
    | none => exact .none
    | some v => exact .some rfl
  root hm hf := by rw [I.store hm, hf]
  frameText hm hf := by rw [I.store hm, hf]
  files := I.files
  define {w m m' f f' v v'} x hm hf hv := by
    rw [hf, hv, I.store hm]
    exact I.setStore _ hm
  newFrame {w m m' p p' b b'} hm hp hb := by
    refine ⟨.here, le_rfl, ?_, congrArg Store.size (I.store hm)⟩
    rw [hp, hb.eq, I.store hm]
    exact I.setStore _ hm
  newPair {w m m' a a' d d'} hm ha hd := by
    refine ⟨.here, le_rfl, ?_, by rw [ha, hd, I.nextLabel hm]⟩
    rw [I.nextLabel hm]
    exact I.setLabel _ hm
  newString {w m m'} s hm := by
    refine ⟨.here, le_rfl, ?_, by rw [I.nextLabel hm]⟩
    rw [I.nextLabel hm]
    exact I.setLabel _ hm
  newClosure {w m m' s s' formals formals' body body' xs} hm hs hx hb _ := by
    refine ⟨.here, le_rfl, ?_, by rw [hs.eq, hx, hb, I.nextLabel hm]⟩
    rw [I.nextLabel hm]
    exact I.setLabel _ hm
  emit := I.emit
  emitError := I.emitError
  lax_inside := I.lax_inside
  lax_file := I.lax_file

variable {I}

/-- Expressions correspond only to themselves. -/
theorem expr_iff {e e' : Value} : I.simulation.expr .here e e' ↔ e = e' := by
  constructor
  · rintro (h | ⟨b, b', rfl, rfl, rfl⟩)
    · exact h
    · rfl
  · exact Or.inl

/-- All of them compare reasons to stop in the same way. -/
theorem stop_change {s s' : Stop} (h : I.simulation.stop .here s s') (J : Indifference) :
    J.simulation.stop .here s s' := by
  cases h with
  | fault h => exact .fault h
  | halt h => exact .halt h

/-- Every task corresponds to itself. -/
theorem task_refl (t : Task) : I.simulation.task .here t t := by
  cases t with
  | eval e f => exact .eval (expr_iff.2 rfl) rfl
  | apply p args f => exact .apply rfl (List.forall₂_same.2 fun _ _ => rfl) rfl

/-- Runs with equal results have the same outcome on machines that still differ only in what makes
no difference, or the first run has an outcome that is not compared. -/
theorem related_cases {α : Type} {r r' : EStateM.Result Stop Machine α}
    (h : I.simulation.Related .here (fun _ => Eq) r r') :
    (∃ a m m', r = .ok a m ∧ r' = .ok a m' ∧ I.machine m m') ∨
    (∃ s m m', r = .error s m ∧ r' = .error s m' ∧ I.machine m m') ∨
    (∃ s m, r = .error s m ∧ I.lax s) := by
  cases h with
  | ok _ hm hq => exact Or.inl ⟨_, _, _, rfl, by rw [hq], hm⟩
  | error _ hm hs => exact Or.inr (Or.inl ⟨_, _, _, rfl, by rw [Simulation.stop_eq id hs], hm⟩)
  | lax hl => exact Or.inr (Or.inr ⟨_, _, rfl, hl⟩)

end Indifference

end Scheme
