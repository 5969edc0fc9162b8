import Scheme.Proofs.Invariant

/-!
# The values that program texts make

A value contains others: the components of pairs, and the parameters and bodies of procedures, at
any depth. `Value.parts` lists them all, the value itself first.

Evaluation starts from program text and the standard procedures, and not every value can come of
that. A frame is handed only to procedures that evaluate, behind their arguments, and none of them
passes it on; a procedure is made only after its parameters have been checked. So no part of a
value is a frame, and every procedure among its parts has passed that check (`Value.Sound`). This
is an `Invariant`, so whatever it implies for a single value holds of all values that a session of
program texts makes or handles (`Session.everywhere_of_sound`).
-/

namespace Scheme

/-! ## Parts -/

namespace Value

/-- The value and everything that it contains, at any depth. -/
def parts : Value → List Value
  | pair i a d => pair i a d :: (a.parts ++ d.parts)
  | closure i s formals body => closure i s formals body :: (formals.parts ++ body.parts)
  | v => [v]

theorem mem_parts_self (v : Value) : v ∈ v.parts := by
  cases v <;> simp [parts]

/-- Parts of parts are parts. -/
theorem mem_parts_trans {u v w : Value} (hu : u ∈ v.parts) (hw : w ∈ u.parts) : w ∈ v.parts := by
  induction v with
  | pair i a d iha ihd =>
    simp only [parts, List.mem_cons, List.mem_append] at hu
    rcases hu with rfl | hu | hu
    · exact hw
    · simp [parts, iha hu]
    · simp [parts, ihd hu]
  | closure i s formals body ihf ihb =>
    simp only [parts, List.mem_cons, List.mem_append] at hu
    rcases hu with rfl | hu | hu
    · exact hw
    · simp [parts, ihf hu]
    · simp [parts, ihb hu]
  | _ =>
    obtain rfl := List.mem_singleton.mp hu
    exact hw

/-- The property holds of the value and of everything in it. -/
def Throughout (P : Value → Prop) (v : Value) : Prop := ∀ u ∈ v.parts, P u

variable {P Q : Value → Prop}

theorem Throughout.self {v : Value} (h : v.Throughout P) : P v := h v v.mem_parts_self

theorem Throughout.of_mem {u v : Value} (h : v.Throughout P) (hu : u ∈ v.parts) :
    u.Throughout P :=
  fun _ hw => h _ (mem_parts_trans hu hw)

theorem Throughout.imp (hPQ : ∀ v, P v → Q v) {v : Value} (h : v.Throughout P) :
    v.Throughout Q :=
  fun u hu => hPQ u (h u hu)

/-- A property holds throughout a pair if it holds of the pair and throughout both components. -/
theorem throughout_pair {i : Label} {a d : Value} :
    (pair i a d).Throughout P ↔ P (pair i a d) ∧ a.Throughout P ∧ d.Throughout P := by
  simp only [Throughout, parts, List.forall_mem_cons, List.forall_mem_append]

/-- A property holds throughout a procedure if it holds of the procedure, and throughout its
parameters and its body. -/
theorem throughout_closure {i : Label} {s : Scope} {formals body : Value} :
    (closure i s formals body).Throughout P ↔
      P (closure i s formals body) ∧ formals.Throughout P ∧ body.Throughout P := by
  simp only [Throughout, parts, List.forall_mem_cons, List.forall_mem_append]

theorem parts_of_isConstant {v : Value} (h : v.isConstant = true) : v.parts = [v] := by
  cases v <;> first | rfl | simp [isConstant] at h

/-! ## Sound values -/

/-- What evaluation could have made: no frame, no procedure but a standard one or one whose
parameters passed their check. -/
def Lawful : Value → Prop
  | builtin b => b ∈ Builtin.standard
  | closure _ _ formals _ => ∃ xs, Form.parameters formals = .ok xs
  | env _ => False
  | _ => True

/-- A value in which everything is lawful. -/
def Sound (v : Value) : Prop := v.Throughout Lawful

end Value

open Value

/-- All values at hand are sound. -/
def soundness : Invariant OneWorld where
  machine _ m := ∀ v, m.store.Binds v → v.Sound
  frame _ _ := True
  value _ := Sound
  permits b := b ∈ Builtin.standard
  frame_mono _ h := h
  value_mono _ h := h
  pair h := (throughout_pair.mp h).2
  closure h := ⟨fun _ _ => trivial, (throughout_closure.mp h).2⟩
  frame_of_env _ := trivial
  builtin h := h.self
  constant w v h := by
    rw [Sound, Throughout, parts_of_isConstant h]
    cases v <;> simp_all [isConstant, Lawful]
  env h _ := absurd h (by decide)
  bound hm hv := hm _ hv
  global _ := trivial
  root _ _ := trivial
  of_eq hm hs _ := hs ▸ hm
  define f x hm hv u hu := by
    rcases hu.of_define with rfl | hu
    · exact hv
    · exact hm u hu
  newFrame hm _ hb := by
    refine ⟨.here, le_rfl, fun u hu => ?_, trivial⟩
    rcases hu.of_push with ⟨x, hx⟩ | hu
    · exact hb (x, u) hx
    · exact hm u hu
  newPair hm ha hd := ⟨.here, le_rfl, hm, throughout_pair.mpr ⟨trivial, ha, hd⟩⟩
  newString s hm := ⟨.here, le_rfl, hm, by simp [Sound, Throughout, parts, Lawful]⟩
  newClosure {w m s formals body xs} hm _ hf hb hp :=
    ⟨.here, le_rfl, hm, throughout_closure.mpr ⟨⟨xs, hp⟩, hf, hb⟩⟩

/-! ## Sessions -/

namespace Session

/-- The machines that a session comes to by program texts, one after the other: texts to evaluate,
input to the read-eval-print loop, files and sources to load. The files can be others for each of
them. -/
inductive Runs (m : Machine) : Machine → Prop
  | refl : Runs m m
  | step {m₁ : Machine} (h : Runs m m₁) (files : String → FileEntry) (r : Request)
      (hr : r.values = []) : Runs m (finalMachine (r.run { m₁ with files := files }))

/-- The values that a session has made when it comes to the machine: what is bound in its frames,
what the last request has answered, and everything in them. -/
inductive Produces (m : Machine) : Machine → Value → Prop
  | bound {m₁ : Machine} {v : Value} (h : Runs m m₁) (hv : m₁.store.Binds v) : Produces m m₁ v
  | answer {m₁ : Machine} {v : Value} (h : Runs m m₁) (files : String → FileEntry) (r : Request)
      (hr : r.values = []) (hv : v ∈ answer? (r.run { m₁ with files := files })) :
      Produces m (finalMachine (r.run { m₁ with files := files })) v
  | part {m₁ : Machine} {u v : Value} (h : Produces m m₁ v) (hu : u ∈ v.parts) : Produces m m₁ u

/-- The property holds of all that an event shows, and of all that is bound at the time. -/
def Everything (P : Value → Prop) (e : Event) (k : Machine) : Prop :=
  ∀ v, v ∈ e.values ∨ k.store.Binds v → v.Throughout P

/-- The property holds of all values that a session makes, and of all that it handles on its way
through a request. -/
structure Everywhere (P : Value → Prop) (m : Machine) : Prop where
  produced {m₁ : Machine} {v : Value} (h : Produces m m₁ v) : P v
  handled {m₁ : Machine} (h : Runs m m₁) (files : String → FileEntry) (r : Request)
    (hr : r.values = []) : r.EachEvent (Everything P) { m₁ with files := files }

/-- A new session binds only standard procedures, which are sound. -/
theorem new_sound (files : String → FileEntry) : soundness.machine .here (new files) := by
  intro v hv
  obtain ⟨b, hb, rfl⟩ := Machine.binds_new hv
  simpa [Sound, Throughout, parts, Lawful] using hb

section Sound

variable {m m₁ : Machine} (hm : soundness.machine .here m)

include hm

/-- A request that brings no values along leaves a sound machine and answers with a sound value. -/
theorem Request.sound {r : Request} (hr : r.values = []) (files : String → FileEntry) :
    soundness.machine .here (finalMachine (r.run { m with files := files })) ∧
      ∀ v ∈ answer? (r.run { m with files := files }), v.Sound := by
  obtain ⟨w, -, hend, hanswer⟩ := soundness.request_kept (w := .here)
    (m := { m with files := files }) (soundness.of_eq hm rfl rfl) r (fun _ _ => trivial)
    (by simp [hr])
  exact ⟨hend, hanswer⟩

/-- During a request that brings no values along, all that is handled and all that is bound is
lawful throughout. -/
theorem Request.events_sound {r : Request} (hr : r.values = []) (files : String → FileEntry)
    {fair : Event → Machine → Prop} (hfair : ∀ {e k}, Everything Lawful e k → fair e k) :
    r.EachEvent fair { m with files := files } := by
  refine soundness.request_events (w := .here) (m := { m with files := files })
    (soundness.of_eq hm rfl rfl) r (fun _ _ => trivial) (by simp [hr])
    fun hk he => hfair fun v hv => ?_
  exact hv.elim (he v) (hk v)

/-- A session stays sound, whatever texts it is given. -/
theorem Runs.sound (h : Runs m m₁) : soundness.machine .here m₁ := by
  induction h with
  | refl => exact hm
  | step _ files r hr ih => exact (Request.sound ih hr files).1

/-- Whatever a session produces is sound. -/
theorem Produces.sound {v : Value} (h : Produces m m₁ v) : v.Sound := by
  induction h with
  | bound h hv => exact h.sound hm _ hv
  | answer h files r hr hv => exact (Request.sound (h.sound hm) hr files).2 _ hv
  | part _ hu ih => exact ih.of_mem hu

end Sound

/-- What sound values have in common holds everywhere in a session. -/
theorem everywhere_of_sound {P : Value → Prop} (hP : ∀ v, v.Sound → P v)
    (files : String → FileEntry) : Everywhere P (new files) where
  produced h := hP _ (h.sound (new_sound files))
  handled h files' _ hr :=
    Request.events_sound (h.sound (new_sound files)) hr files' fun he v hv u hu =>
      hP u ((he v hv).of_mem hu)

end Session

end Scheme
