import Scheme.Proofs.Simulation.Value

/-!
# The frames that a program can get at

A value refers to frames: an environment to itself, a procedure to the frame it was made in, and
pairs and procedures to whatever their parts refer to (`Value.frames`). A frame refers to its
parent and to the frames of the values it binds (`Frame.frames`). The frames that are reachable
from some roots are those that such references lead to.

Two stores `AgreeOn` a set of frames if they are the same there and these frames refer only to
each other. From inside the set the two stores look the same: a name has the same value
(`AgreeOn.get?`), the way up ends in the same global frame (`AgreeOn.root`), and a frame has the
same text (`AgreeOn.textWithin`).
-/

namespace Scheme

/-! ## References -/

/-- The frame that a scope keeps. -/
def Scope.frames : Scope → List FrameId
  | lexical f => [f]
  | dynamic => []

/-- The frames that a value refers to. -/
def Value.frames : Value → List FrameId
  | pair _ a d => a.frames ++ d.frames
  | closure _ scope formals body => scope.frames ++ formals.frames ++ body.frames
  | env f => [f]
  | _ => []

/-- The frames that a frame refers to: its parent and those of the values it binds. -/
def Frame.frames (fr : Frame) : List FrameId :=
  fr.parent.toList ++ fr.bindings.flatMap fun b => b.2.frames

/-- The frames that references lead to from the roots. -/
inductive Reachable (s : Store) (roots : List FrameId) : FrameId → Prop
  | root {g : FrameId} (h : g ∈ roots) : Reachable s roots g
  | step {g h : FrameId} {fr : Frame} (hg : Reachable s roots g) (hf : s.frames[g]? = some fr)
      (hh : h ∈ fr.frames) : Reachable s roots h

theorem Frame.parent_mem_frames {fr : Frame} {p : FrameId} (h : fr.parent = some p) :
    p ∈ fr.frames := by
  simp [frames, h]

theorem Frame.mem_frames_of_mem {fr : Frame} {b : String × Value} {g : FrameId}
    (hb : b ∈ fr.bindings) (hg : g ∈ b.2.frames) : g ∈ fr.frames :=
  List.mem_append_right _ (List.mem_flatMap.mpr ⟨b, hb, hg⟩)

/-- A new frame refers only to frames of the set if its parent is one of them and its values refer
to no others. -/
theorem Frame.forall_mem_frames {A : FrameId → Prop} {p : FrameId} (hp : A p) {b : Bindings}
    (hb : ∀ e ∈ b, ∀ g ∈ e.2.frames, A g) : ∀ g ∈ (⟨some p, b⟩ : Frame).frames, A g := by
  rw [frames, List.forall_mem_append]
  refine ⟨by simpa using hp, fun g hg => ?_⟩
  obtain ⟨e, he, hg⟩ := List.mem_flatMap.mp hg
  exact hb e he g hg

/-- What is bound after a binding has been put in is this binding or was bound before. -/
theorem Bindings.mem_put {x : String} {v : Value} {bs : Bindings} {b : String × Value}
    (h : b ∈ bs.put x v) : b = (x, v) ∨ b ∈ bs := by
  induction bs with
  | nil => exact .inl (List.mem_singleton.mp h)
  | cons c bs ih =>
    rw [put] at h
    split at h
    · exact (List.mem_cons.mp h).imp id (List.mem_cons_of_mem c)
    · rcases List.mem_cons.mp h with rfl | h
      · exact .inr List.mem_cons_self
      · exact (ih h).imp id (List.mem_cons_of_mem c)

/-- A name has a value if and only if it is among the names of the bindings. -/
theorem Bindings.lookup_isSome_iff {b : Bindings} {x : String} :
    (b.lookup x).isSome = true ↔ x ∈ b.names := by
  rw [← not_iff_not, Option.not_isSome_iff_eq_none, List.lookup_eq_none_iff]
  simp only [names, bne_iff_ne, ne_eq, List.mem_map, not_exists, not_and]
  exact forall₂_congr fun _ _ => not_congr eq_comm

/-- A definition makes a frame refer to nothing but what it referred to before and what the value
refers to. -/
theorem Frame.mem_frames_define {fr : Frame} {x : String} {v : Value} {g : FrameId}
    (h : g ∈ (fr.define x v).frames) : g ∈ fr.frames ∨ g ∈ v.frames := by
  rcases List.mem_append.mp h with h | h
  · exact .inl (List.mem_append_left _ h)
  · obtain ⟨b, hb, hg⟩ := List.mem_flatMap.mp h
    rcases Bindings.mem_put hb with rfl | hb
    · exact .inr hg
    · exact .inl (mem_frames_of_mem hb hg)

/-! ## Stores -/

namespace Store

theorem frames_push (s : Store) (fr : Frame) (g : FrameId) :
    (s.push fr).frames[g]? = if g = s.size then some fr else s.frames[g]? :=
  Array.getElem?_push

/-- A name is looked up in the frame itself and, if it is not bound there, from the parent on. -/
theorem get?_eq (s : Store) (f : FrameId) (x : String) :
    s.get? f x =
      match s.local? f x with
      | some v => some v
      | none => (s.parent? f).bind fun p => s.get? p x := by
  cases hv : s.local? f x with
  | some v => rw [get?.eq_def, hv]
  | none =>
    rw [get?.eq_def, hv]
    simp only
    split <;> rename_i hp <;> simp [hp]

/-- The way up goes on from the parent, and ends where there is none. -/
theorem root_eq (s : Store) (f : FrameId) :
    s.root f =
      match s.parent? f with
      | some p => s.root p
      | none => f := by
  rw [root.eq_def]
  split <;> rename_i hp <;> simp only [hp]

end Store

/-! ## Values inside a set of frames -/

section Inside

variable {A : FrameId → Prop}

/-- The same value, and it refers only to frames of the set. -/
def Value.Inside (A : FrameId → Prop) (v v' : Value) : Prop := v = v' ∧ ∀ g ∈ v.frames, A g

/-- A value inside a set is a layer of its own kind over components inside the set, and the frames
it names are in the set. -/
theorem Value.Inside.layer {v v' : Value} (h : v.Inside A v') :
    v.Layer (fun _ => True) (fun f f' => f = f' ∧ A f) (Value.Inside A) v' := by
  obtain ⟨rfl, h⟩ := h
  cases v with
  | pair i a d =>
    rw [frames, List.forall_mem_append] at h
    exact .pair i i ⟨rfl, h.1⟩ ⟨rfl, h.2⟩
  | closure i scope formals body =>
    rw [frames, List.forall_mem_append, List.forall_mem_append] at h
    obtain ⟨⟨hs, hf⟩, hb⟩ := h
    refine .closure i i ?_ ⟨rfl, hf⟩ ⟨rfl, hb⟩
    cases scope with
    | lexical f => exact .lexical ⟨rfl, hs f (by simp [Scope.frames])⟩
    | dynamic => exact .dynamic
  | env f => exact .env ⟨rfl, h f (by simp [frames])⟩
  | int i => exact .int i
  | float x => exact .float x
  | bool b => exact .bool b
  | str i s => exact .str i i s
  | sym x => exact .sym x
  | nil => exact .nil
  | builtin b => exact .builtin b trivial
  | undefined => exact .undefined

theorem Value.frames_of_isConstant {v : Value} (h : v.isConstant = true) : v.frames = [] := by
  cases v <;> first | rfl | simp [isConstant] at h

theorem Scope.Alike.inside {c c' : Scope} (h : c.Alike (fun f f' => f = f' ∧ A f) c') :
    c = c' ∧ ∀ g ∈ c.frames, A g := by
  cases h with
  | lexical h => exact ⟨by rw [h.1], by simpa [Scope.frames] using h.2⟩
  | dynamic => exact ⟨rfl, by simp [Scope.frames]⟩

theorem Bindings.Alike.inside {b b' : Bindings} (h : b.Alike (Value.Inside A) b') :
    b = b' ∧ ∀ e ∈ b, ∀ g ∈ e.2.frames, A g := by
  induction h with
  | nil => exact ⟨rfl, by simp⟩
  | cons he _ ih =>
    obtain ⟨rfl, hb⟩ := ih
    exact ⟨by rw [Prod.ext he.1 he.2.1], List.forall_mem_cons.mpr ⟨he.2.2, hb⟩⟩

/-! ## Stores that agree -/

/-- The stores are the same on a set of frames that refer only to each other. -/
structure AgreeOn (A : FrameId → Prop) (s s' : Store) : Prop where
  frames_eq {g : FrameId} : A g → s.frames[g]? = s'.frames[g]?
  closed {g : FrameId} {fr : Frame} : A g → s.frames[g]? = some fr → ∀ h ∈ fr.frames, A h

namespace AgreeOn

variable {s s' : Store} (hs : AgreeOn A s s') {f : FrameId} (hf : A f)

include hs hf

/-- Inside the set a frame has the same parent in both stores, and the parent is in the set. -/
theorem parent? : s.parent? f = s'.parent? f ∧ ∀ p ∈ s.parent? f, A p := by
  refine ⟨by simp only [Store.parent?, hs.frames_eq hf], fun p hp => ?_⟩
  rw [Store.parent?] at hp
  split at hp
  · next fr hfr =>
    split at hp
    · next q hq =>
      split at hp
      · obtain rfl := Option.some.inj hp
        exact hs.closed hf hfr _ (Frame.parent_mem_frames hq)
      · simp at hp
    · simp at hp
  · simp at hp

/-- Inside the set a frame binds a name to the same value in both stores, and the value is inside
the set. -/
theorem local? (x : String) :
    s.local? f x = s'.local? f x ∧ ∀ v ∈ s.local? f x, v.Inside A v := by
  refine ⟨by simp only [Store.local?, hs.frames_eq hf], fun v hv => ⟨rfl, fun g hg => ?_⟩⟩
  rw [Store.local?] at hv
  split at hv
  · next fr hfr =>
    obtain ⟨l₁, l₂, hl, -⟩ := List.lookup_eq_some_iff.mp hv
    have hb : (x, v) ∈ fr.bindings := by simp [hl]
    exact hs.closed hf hfr g (Frame.mem_frames_of_mem hb hg)
  · simp at hv

/-- A name has the same value in both stores, and the value leads to no other frames. -/
theorem get? (x : String) : Option.Rel (Value.Inside A) (s.get? f x) (s'.get? f x) := by
  -- The way up goes to ever smaller numbers and stays inside the set.
  induction f using Nat.strongRecOn with
  | ind f ih =>
    obtain ⟨hlocal, hin⟩ := hs.local? hf x
    obtain ⟨hparent, hup⟩ := hs.parent? hf
    rw [s.get?_eq, s'.get?_eq, ← hlocal, ← hparent]
    cases hv : s.local? f x with
    | some v => exact .some (hin v hv)
    | none =>
      cases hp : s.parent? f with
      | none => exact .none
      | some p => exact ih p (Store.lt_of_parent? hp) (hup p hp)

/-- The way up ends at the same frame in both stores, without leaving the set. -/
theorem root : s.root f = s'.root f ∧ A (s.root f) := by
  induction f using Nat.strongRecOn with
  | ind f ih =>
    obtain ⟨hparent, hup⟩ := hs.parent? hf
    rw [s.root_eq, s'.root_eq, ← hparent]
    cases hp : s.parent? f with
    | none => exact ⟨rfl, hf⟩
    | some p => exact ih p (Store.lt_of_parent? hp) (hup p hp)

/-- To any depth a frame of the set has the same text in both stores. -/
theorem textWithin (n : Nat) : s.textWithin n f = s'.textWithin n f := by
  induction n generalizing f with
  | zero => rfl
  | succ n ih =>
    rw [Store.textWithin, Store.textWithin, ← hs.frames_eq hf]
    cases hfr : s.frames[f]? with
    | none => rfl
    | some fr =>
      obtain ⟨parent, bindings⟩ := fr
      cases parent with
      | none => rfl
      | some p =>
        have hp : s.textWithin n p = s'.textWithin n p :=
          ih (hs.closed hf hfr p (Frame.parent_mem_frames rfl))
        have hwritten : ∀ b ∈ bindings,
            b.2.written (s.textWithin n) = b.2.written (s'.textWithin n) := fun b hb =>
          Value.writeOnto_eq_of_layer (R := Value.Inside A) Value.Inside.layer
            (fun g g' hg => by rw [← hg.1, ih hg.2])
            ⟨rfl, fun g hg => hs.closed hf hfr g (Frame.mem_frames_of_mem hb hg)⟩ true .alone ""
        have hentries : bindings.map (fun b => b.1 ++ ": " ++ b.2.written (s.textWithin n)) =
            bindings.map (fun b => b.1 ++ ": " ++ b.2.written (s'.textWithin n)) :=
          List.map_congr_left fun b hb => by rw [hwritten b hb]
        simp only [hp, hentries]

end AgreeOn

end Inside

end Scheme
