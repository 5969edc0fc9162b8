import Scheme.Proofs.Identity
import Scheme.Proofs.Outcomes

/-!
# Other labels

Labels tell objects apart and do nothing else. `Value.relabel` gives the objects in a value other
labels, `Store.relabel` those in all frames. As long as different labels stay different, sameness is
the same, and so is every look-up and every text: none of them reads a label.

A run that starts one label later gives the label after it to everything that it makes. All labels
from some hole on are then one higher (`skip`), and this is all that changes: the two runs have the
same outcome but for labels (`Relabelled`, `Machine.Labels.finishes`).
-/

namespace Scheme

/-! ## Values -/

namespace Value

/-- The value with other labels. -/
def relabel (σ : Label → Label) : Value → Value
  | str i s => str (σ i) s
  | pair i a d => pair (σ i) (a.relabel σ) (d.relabel σ)
  | closure i scope formals body => closure (σ i) scope (formals.relabel σ) (body.relabel σ)
  | v => v

variable {σ : Label → Label}

theorem relabel_of_isConstant {v : Value} (h : v.isConstant = true) : v.relabel σ = v := by
  cases v <;> first | rfl | simp [isConstant] at h

/-- A value stays as it is if its labels do. -/
theorem relabel_eq_self {v : Value} (h : ∀ i ∈ v.labels, σ i = i) : v.relabel σ = v := by
  induction v with
  | pair i a d iha ihd =>
    rw [labels_pair, List.forall_mem_cons, List.forall_mem_append] at h
    rw [relabel, h.1, iha h.2.1, ihd h.2.2]
  | closure i scope formals body ihf ihb =>
    have hparts : (closure i scope formals body).labels = i :: (formals.labels ++ body.labels) := by
      simp [labels, parts, label?]
    rw [hparts, List.forall_mem_cons, List.forall_mem_append] at h
    rw [relabel, h.1, ihf h.2.1, ihb h.2.2]
  | str i s => rw [relabel, h i (by simp [labels, parts, label?])]
  | _ => rfl

/-- Different labels stay different, so the same objects are the same. -/
theorem same_relabel (hσ : σ.Injective) (u v : Value) :
    (u.relabel σ).same (v.relabel σ) = u.same v := by
  have hlabel : ∀ i j : Label, (σ i == σ j) = (i == j) := fun i j => by
    rw [Bool.eq_iff_iff, beq_iff_eq, beq_iff_eq, hσ.eq_iff]
  cases u <;> cases v <;> simp only [relabel, same, hlabel]

/-- Relabelling keeps every layer of a value and goes on with its components. -/
theorem layer_relabel (v : Value) :
    v.Layer (fun _ => True) Eq (fun u u' => u' = u.relabel σ) (v.relabel σ) := by
  cases v with
  | closure i s formals body =>
    refine .closure i (σ i) ?_ rfl rfl
    cases s with
    | lexical f => exact .lexical rfl
    | dynamic => exact .dynamic
  | int i => exact .int i
  | float x => exact .float x
  | bool b => exact .bool b
  | str i s => exact .str i (σ i) s
  | sym x => exact .sym x
  | nil => exact .nil
  | pair i a d => exact .pair i (σ i) rfl rfl
  | builtin b => exact .builtin b trivial
  | env f => exact .env rfl
  | undefined => exact .undefined

/-- Other labels do not change the text of a value. -/
theorem written_relabel (frameText : FrameId → String) (v : Value) :
    (v.relabel σ).written frameText = v.written frameText := by
  have hlayer : ∀ {u u' : Value}, u' = u.relabel σ →
      u.Layer (fun _ => True) Eq (fun u u' => u' = u.relabel σ) u' := fun h => h ▸ layer_relabel _
  exact (writeOnto_eq_of_layer hlayer (fun _ _ h => congrArg frameText h) rfl true .alone "").symm

end Value

/-! ## Stores -/

/-- The bindings with other labels in their values. -/
def Bindings.relabel (σ : Label → Label) (b : Bindings) : Bindings :=
  b.map fun e => (e.1, e.2.relabel σ)

/-- The frame with other labels in the values that it binds. -/
def Frame.relabel (σ : Label → Label) (fr : Frame) : Frame :=
  { fr with bindings := fr.bindings.relabel σ }

/-- The store with other labels in the values that its frames bind. -/
def Store.relabel (σ : Label → Label) (s : Store) : Store := ⟨s.frames.map (·.relabel σ)⟩

section Stores

variable {σ : Label → Label}

theorem Bindings.relabel_put (x : String) (v : Value) (b : Bindings) :
    (b.put x v).relabel σ = (b.relabel σ).put x (v.relabel σ) := by
  induction b with
  | nil => rfl
  | cons e b ih =>
    obtain ⟨y, w⟩ := e
    simp only [relabel, List.map_cons, put] at ih ⊢
    split
    · rfl
    · rw [List.map_cons, ih]

/-- Relabelled bindings have the relabelled value under each name. -/
theorem Bindings.lookup_relabel (b : Bindings) (x : String) :
    (b.relabel σ).lookup x = (b.lookup x).map (·.relabel σ) := by
  induction b with
  | nil => rfl
  | cons e b ih =>
    obtain ⟨y, w⟩ := e
    simp only [relabel, List.map_cons, List.lookup_cons] at ih ⊢
    cases x == y
    · exact ih
    · rfl

theorem Bindings.Alike.relabel_eq {b b' : Bindings}
    (h : b.Alike (fun v v' => v' = v.relabel σ) b') : b' = b.relabel σ := by
  induction h with
  | nil => rfl
  | cons he _ ih =>
    rw [Bindings.relabel, List.map_cons, ih]
    exact congrArg (· :: _) (Prod.ext he.1.symm he.2)

namespace Store

variable (s : Store)

theorem frames_relabel (f : FrameId) :
    (s.relabel σ).frames[f]? = s.frames[f]?.map (·.relabel σ) :=
  Array.getElem?_map

theorem size_relabel : (s.relabel σ).size = s.size := Array.size_map

/-- A store stays as it is if all values that it binds do. -/
theorem relabel_eq_self (h : ∀ v, s.Binds v → v.relabel σ = v) : s.relabel σ = s := by
  suffices hframes : s.frames.map (·.relabel σ) = s.frames from congrArg Store.mk hframes
  refine Array.ext_getElem? fun f => ?_
  rw [Array.getElem?_map]
  cases hfr : s.frames[f]? with
  | none => rfl
  | some fr =>
    have hbindings : fr.bindings.map (fun e => (e.1, e.2.relabel σ)) = fr.bindings.map id :=
      List.map_congr_left fun e he => Prod.ext rfl (h e.2 ⟨f, fr, hfr, e.1, he⟩)
    rw [List.map_id] at hbindings
    exact congrArg some (congrArg (Frame.mk fr.parent) hbindings)

/-- Defining and relabelling can be done in either order. -/
theorem relabel_define (f : FrameId) (x : String) (v : Value) :
    (s.define f x v).relabel σ = (s.relabel σ).define f x (v.relabel σ) := by
  suffices hframes : (s.define f x v).frames.map (·.relabel σ) =
      ((s.relabel σ).define f x (v.relabel σ)).frames from congrArg Store.mk hframes
  refine Array.ext_getElem? fun g => ?_
  rw [Array.getElem?_map, frames_define, frames_define, frames_relabel]
  split
  · cases s.frames[g]? with
    | none => rfl
    | some fr => exact congrArg some (congrArg (Frame.mk fr.parent) (Bindings.relabel_put x v _))
  · rfl

theorem relabel_push (fr : Frame) : (s.push fr).relabel σ = (s.relabel σ).push (fr.relabel σ) :=
  congrArg Store.mk Array.map_push

theorem parent?_relabel (f : FrameId) : (s.relabel σ).parent? f = s.parent? f := by
  rw [parent?, parent?, frames_relabel]
  cases s.frames[f]? <;> rfl

theorem local?_relabel (f : FrameId) (x : String) :
    (s.relabel σ).local? f x = (s.local? f x).map (·.relabel σ) := by
  rw [local?, local?, frames_relabel]
  cases s.frames[f]? with
  | none => rfl
  | some fr => exact fr.bindings.lookup_relabel x

/-- A name has the relabelled value in a relabelled store. -/
theorem get?_relabel (f : FrameId) (x : String) :
    (s.relabel σ).get? f x = (s.get? f x).map (·.relabel σ) := by
  induction f using Nat.strongRecOn with
  | ind f ih =>
    rw [get?_eq, get?_eq, local?_relabel, parent?_relabel]
    cases s.local? f x with
    | some v => rfl
    | none =>
      cases hp : s.parent? f with
      | none => rfl
      | some p => exact ih p (lt_of_parent? hp)

/-- The way up does not depend on labels. -/
theorem root_relabel (f : FrameId) : (s.relabel σ).root f = s.root f := by
  induction f using Nat.strongRecOn with
  | ind f ih =>
    rw [root_eq, root_eq, parent?_relabel]
    cases hp : s.parent? f with
    | none => rfl
    | some p => exact ih p (lt_of_parent? hp)

/-- To any depth, other labels do not change the texts of frames. -/
theorem textWithin_relabel (n : Nat) : (s.relabel σ).textWithin n = s.textWithin n := by
  induction n with
  | zero => rfl
  | succ n ih =>
    funext f
    rw [textWithin, textWithin, frames_relabel, ih]
    cases s.frames[f]? with
    | none => rfl
    | some fr =>
      obtain ⟨_ | p, bindings⟩ := fr
      · rfl
      · simp only [Option.map_some, Frame.relabel, Bindings.relabel, List.map_map,
          Function.comp_def, Value.written_relabel]

/-- Other labels do not change the texts of frames. -/
theorem frameText_relabel : (s.relabel σ).frameText = s.frameText := by
  funext f
  rw [frameText, frameText, size_relabel, textWithin_relabel]

end Store

end Stores

/-! ## Runs that start one label later -/

/-- The machine with other labels, those still to come included. -/
def Machine.relabel (σ : Label → Label) (m : Machine) : Machine :=
  { m with store := m.store.relabel σ, nextLabel := σ m.nextLabel }

/-- The labels in the value and in what the machine binds have been given out. -/
def Machine.Labels (m : Machine) (v : Value) : Prop :=
  ∀ u, m.store.Binds u ∨ u = v → ∀ i ∈ u.labels, i < m.nextLabel

/-- This is so at every point of a session. -/
theorem Session.Course.labels {m : Machine} {known : List Value} (h : Course m known) {v : Value}
    (hv : v ∈ known) : m.Labels v := by
  obtain ⟨H, hH⟩ := h.fits
  intro u hu i hi
  obtain ⟨w, hw, hlabel⟩ := List.mem_filterMap.mp hi
  have hu : m.store.Binds u ∨ u ∈ known := hu.imp_right fun h => by rwa [h]
  exact (hH.identified.old ⟨u, hu, hw⟩).label hlabel

/-- The labels from the hole on, each of them one higher. -/
def skip (hole i : Label) : Label := if i < hole then i else i + 1

theorem skip_of_lt {hole i : Label} (h : i < hole) : skip hole i = i := if_pos h

theorem skip_of_le {hole i : Label} (h : hole ≤ i) : skip hole i = i + 1 :=
  if_neg (Nat.not_lt.mpr h)

/-- Making room for one label keeps different labels different. -/
theorem skip_injective (hole : Label) : (skip hole).Injective := by
  intro i j h
  grind [skip]

/-- Where all labels are below the hole only the next one moves. -/
theorem Machine.Labels.relabel_eq {m : Machine} {v : Value} (h : m.Labels v) :
    v.relabel (skip m.nextLabel) = v ∧
      m.relabel (skip m.nextLabel) = { m with nextLabel := m.nextLabel + 1 } := by
  have hself : ∀ u, m.store.Binds u ∨ u = v → u.relabel (skip m.nextLabel) = u := fun u hu =>
    Value.relabel_eq_self fun i hi => skip_of_lt (h u hu i hi)
  refine ⟨hself v (.inr rfl), ?_⟩
  rw [Machine.relabel, m.store.relabel_eq_self fun u hu => hself u (.inl hu),
    skip_of_le (Nat.le_refl _)]

/-- The second run gives out the labels behind those of the first. -/
def relabelling (hole : Label) : Simulation OneWorld where
  machine _ m m' := hole ≤ m.nextLabel ∧ m' = m.relabel (skip hole)
  frame _ := Eq
  value _ v v' := v' = v.relabel (skip hole)
  permits _ := True
  lax _ := False
  frame_mono _ h := h
  value_mono _ h := h
  layer h := h ▸ Value.layer_relabel _
  constant _ _ h := (Value.relabel_of_isConstant h).symm
  env _ h := h ▸ rfl
  same hu hv := by rw [hu, hv, Value.same_relabel (skip_injective hole)]
  get? {w m m' f f'} x hm hf := by
    obtain ⟨-, rfl⟩ := hm
    obtain rfl := hf
    rw [Machine.relabel, Store.get?_relabel]
    cases m.store.get? f x with
    | none => exact .none
    | some v => exact .some rfl
  root hm hf := by rw [hm.2, Machine.relabel, Store.root_relabel, hf]
  frameText hm hf := by rw [hm.2, Machine.relabel, Store.frameText_relabel, hf]
  files hm := hm.2 ▸ rfl
  define x hm hf hv := by
    refine ⟨hm.1, ?_⟩
    rw [hm.2, ← hf, hv, Machine.relabel, Machine.relabel, Store.relabel_define]
  newFrame {w m m' p p' b b'} hm hp hb := by
    refine ⟨.here, le_rfl, ⟨hm.1, ?_⟩, ?_⟩
    · rw [hm.2, ← hp, hb.relabel_eq, Machine.relabel, Machine.relabel, Store.relabel_push]
      rfl
    · rw [hm.2, Machine.relabel, Store.size_relabel]
  newPair {w m m' a a' d d'} hm ha hd := by
    obtain ⟨hhole, rfl⟩ := hm
    refine ⟨.here, le_rfl, ⟨Nat.le_succ_of_le hhole, ?_⟩, ?_⟩
    · simp only [Machine.relabel, skip_of_le hhole, skip_of_le (Nat.le_succ_of_le hhole)]
    · rw [ha, hd]
      rfl
  newString {w m m'} s hm := by
    obtain ⟨hhole, rfl⟩ := hm
    refine ⟨.here, le_rfl, ⟨Nat.le_succ_of_le hhole, ?_⟩, rfl⟩
    simp only [Machine.relabel, skip_of_le hhole, skip_of_le (Nat.le_succ_of_le hhole)]
  newClosure {w m m' c c' formals formals' body body' xs} hm hc hx hb _ := by
    obtain ⟨hhole, rfl⟩ := hm
    refine ⟨.here, le_rfl, ⟨Nat.le_succ_of_le hhole, ?_⟩, ?_⟩
    · simp only [Machine.relabel, skip_of_le hhole, skip_of_le (Nat.le_succ_of_le hhole)]
    · rw [hx, hb, hc.eq]
      rfl
  emit text hm := ⟨hm.1, by rw [hm.2]; rfl⟩
  emitError text hm := ⟨hm.1, by rw [hm.2]; rfl⟩
  lax_inside _ := False.elim
  lax_file _ _ h := h.elim

instance (hole : Label) : (relabelling hole).Nests where
  limit hm h := by rwa [hm.2] at h
  limit_lax hm h := .inl (by rwa [hm.2])
  enter hm := ⟨hm.1, by rw [hm.2]; rfl⟩
  leave hm := ⟨hm.1, by rw [hm.2]; rfl⟩

/-- Outcomes that differ in labels only: the values are the same but for labels, the faults are
worded in the same way, and all frames bind the same names to the same values but for labels. -/
inductive Relabelled (σ : Label → Label) :
    EStateM.Result Stop Machine Value → EStateM.Result Stop Machine Value → Prop
  | ok (v : Value) (m : Machine) : Relabelled σ (.ok v m) (.ok (v.relabel σ) (m.relabel σ))
  | fault {e e' : Fault} {m : Machine}
      (h : e.message m.store.frameText = e'.message (m.relabel σ).store.frameText) :
      Relabelled σ (.error (.fault e) m) (.error (.fault e') (m.relabel σ))
  | halt (h : Halt) (m : Machine) :
      Relabelled σ (.error (.halt h) m) (.error (.halt h) (m.relabel σ))

/-- A run and its relabelled counterpart have both finished, or neither has. -/
theorem Relabelled.finished_iff {σ : Label → Label} {r r' : EStateM.Result Stop Machine Value}
    (h : Relabelled σ r r') : Finished r ↔ Finished r' := by
  cases h with
  | ok | fault => rfl
  | halt h m => cases h <;> rfl

/-- With the same fuel, the run that starts one label later has the same outcome but for labels. -/
theorem Machine.Labels.run {m : Machine} {e : Value} (h : m.Labels e) (f : FrameId) (n : Nat) :
    Relabelled (skip m.nextLabel) (Scheme.run n (.eval e f) m)
      (Scheme.run n (.eval e f) { m with nextLabel := m.nextLabel + 1 }) := by
  obtain ⟨he, hm⟩ := h.relabel_eq
  have hrun := (relabelling m.nextLabel).run n .here (.eval e f) (.eval e f)
    (.eval (.inl he.symm) rfl) m { m with nextLabel := m.nextLabel + 1 } ⟨Nat.le_refl _, hm.symm⟩
  revert hrun
  generalize Scheme.run n (.eval e f) m = r,
    Scheme.run n (.eval e f) { m with nextLabel := m.nextLabel + 1 } = r'
  intro hrun
  cases hrun with
  | ok _ hm hv =>
    obtain ⟨-, rfl⟩ := hm
    obtain rfl := hv
    exact .ok _ _
  | error _ hm hs =>
    have htexts := Simulation.sameFrameTexts hm
    obtain ⟨-, rfl⟩ := hm
    cases hs with
    | fault h => exact .fault (Simulation.message_eq htexts h)
    | halt h => exact .halt h _
  | lax h => exact h.elim

/-- An evaluation that starts one label later finishes if the other does, with the same outcome but
for labels. -/
theorem Machine.Labels.finishes {m : Machine} {e : Value} (h : m.Labels e) (f : FrameId) :
    (∀ r, Finishes (fun n => Scheme.run n (.eval e f)) m r →
      ∃ r',
        Finishes (fun n => Scheme.run n (.eval e f)) { m with nextLabel := m.nextLabel + 1 } r' ∧
        Relabelled (skip m.nextLabel) r r') ∧
    ∀ r', Finishes (fun n => Scheme.run n (.eval e f)) { m with nextLabel := m.nextLabel + 1 } r' →
      ∃ r, Finishes (fun n => Scheme.run n (.eval e f)) m r ∧
        Relabelled (skip m.nextLabel) r r' := by
  constructor
  · rintro r ⟨hr, n, rfl⟩
    have hrun := h.run f n
    exact ⟨_, ⟨hrun.finished_iff.mp hr, n, rfl⟩, hrun⟩
  · rintro r' ⟨hr', n, rfl⟩
    have hrun := h.run f n
    exact ⟨_, ⟨hrun.finished_iff.mpr hr', n, rfl⟩, hrun⟩

end Scheme
