import Scheme.Proofs.Persistence
import Scheme.Proofs.Simulation.Observe

/-!
# Invariants of runs and sessions

An `Invariant` is a property of machines together with a property of the frames and values that are
at hand. The values that frames bind have it, a value hands it down to its parts, and every basic
operation keeps it: a binding, a new frame, a new object. What holds may hang on a world that grows,
such as the objects made so far.

An invariant is a simulation between a run and itself, so it is kept by every run whatever its
outcome (`Invariant.request_kept`), and it holds of all events and before all steps on the way
(`Invariant.request_events`, `Invariant.request_steps`).
-/

namespace Scheme

open EvalM

/-! ## Bound values -/

namespace Store

/-- Some frame binds the value. -/
def Binds (s : Store) (v : Value) : Prop :=
  ∃ (f : FrameId) (fr : Frame), s.frames[f]? = some fr ∧ ∃ x, (x, v) ∈ fr.bindings

theorem binds_of_local? {s : Store} {f : FrameId} {x : String} {v : Value}
    (h : s.local? f x = some v) : s.Binds v := by
  rw [local?] at h
  split at h
  · next fr hfr =>
    obtain ⟨l₁, l₂, hl, -⟩ := List.lookup_eq_some_iff.mp h
    exact ⟨f, fr, hfr, x, by simp [hl]⟩
  · simp at h

theorem binds_of_get? {s : Store} {f : FrameId} {x : String} {v : Value}
    (h : s.get? f x = some v) : s.Binds v := by
  induction f using Nat.strongRecOn with
  | ind f ih =>
    rw [get?_eq] at h
    cases hl : s.local? f x with
    | some u =>
      rw [hl] at h
      exact binds_of_local? (hl.trans h)
    | none =>
      rw [hl] at h
      obtain ⟨p, hp, h⟩ := Option.bind_eq_some_iff.mp h
      exact ih p (lt_of_parent? hp) h

/-- What a store binds behind a definition is the defined value or was bound before. -/
theorem Binds.of_define {s : Store} {f : FrameId} {x : String} {u v : Value}
    (h : (s.define f x u).Binds v) : v = u ∨ s.Binds v := by
  obtain ⟨g, fr, hfr, y, hy⟩ := h
  rw [frames_define] at hfr
  split at hfr
  · obtain ⟨fr₀, hfr₀, rfl⟩ := Option.map_eq_some_iff.mp hfr
    rcases Bindings.mem_put hy with hy | hy
    · exact .inl (Prod.ext_iff.mp hy).2
    · exact .inr ⟨g, fr₀, hfr₀, y, hy⟩
  · exact .inr ⟨g, fr, hfr, y, hy⟩

/-- What a store binds behind a new frame is bound in this frame or was bound before. -/
theorem Binds.of_push {s : Store} {fr : Frame} {v : Value} (h : (s.push fr).Binds v) :
    (∃ x, (x, v) ∈ fr.bindings) ∨ s.Binds v := by
  obtain ⟨g, fr₀, hfr, y, hy⟩ := h
  rw [frames_push] at hfr
  split at hfr
  · obtain rfl := Option.some.inj hfr
    exact .inl ⟨y, hy⟩
  · exact .inr ⟨g, fr₀, hfr, y, hy⟩

end Store

/-- A new machine binds its built-in procedures and nothing else. -/
theorem Machine.binds_new {builtins : List Builtin} {files : String → FileEntry} {v : Value}
    (h : (Machine.new builtins files).store.Binds v) : ∃ b ∈ builtins, v = .builtin b := by
  obtain ⟨f, fr, hfr, x, hx⟩ := h
  obtain rfl : f = 0 := Nat.lt_one_iff.mp (Array.getElem?_eq_some_iff.mp hfr).1
  obtain rfl := Option.some.inj hfr
  rcases Bindings.mem_putAll hx with hx | hx
  · simp at hx
  · obtain ⟨b, hb, he⟩ := List.mem_map.mp hx
    exact ⟨b, hb, (Prod.ext_iff.mp he).2.symm⟩

/-! ## Invariants -/

/-- Properties of machines and of the frames and values at hand that every basic operation keeps. -/
structure Invariant (W : Type) [Preorder W] where
  machine : W → Machine → Prop
  frame : W → FrameId → Prop
  value : W → Value → Prop
  /-- The built-in procedures that a program can get hold of. -/
  permits : Builtin → Prop
  frame_mono {w w' : W} {f : FrameId} : w ≤ w' → frame w f → frame w' f
  value_mono {w w' : W} {v : Value} : w ≤ w' → value w v → value w' v
  -- Values and their parts.
  pair {w : W} {i : Label} {a d : Value} : value w (.pair i a d) → value w a ∧ value w d
  closure {w : W} {i : Label} {s : Scope} {formals body : Value} :
    value w (.closure i s formals body) →
    (∀ f ∈ s.frames, frame w f) ∧ value w formals ∧ value w body
  frame_of_env {w : W} {f : FrameId} : value w (.env f) → frame w f
  builtin {w : W} {b : Builtin} : value w (.builtin b) → permits b
  constant (w : W) {v : Value} : v.isConstant = true → value w v
  env {w : W} {f : FrameId} : permits (.host .here) → frame w f → value w (.env f)
  -- Machines. Output, depth and files make no difference.
  bound {w : W} {m : Machine} {v : Value} : machine w m → m.store.Binds v → value w v
  global {w : W} {m : Machine} : machine w m → frame w Machine.globalFrame
  root {w : W} {m : Machine} {f : FrameId} : machine w m → frame w f → frame w (m.store.root f)
  of_eq {w : W} {m k : Machine} : machine w m → k.store = m.store → k.nextLabel = m.nextLabel →
    machine w k
  define {w : W} {m : Machine} {v : Value} (f : FrameId) (x : String) : machine w m →
    value w v → machine w { m with store := m.store.define f x v }
  newFrame {w : W} {m : Machine} {p : FrameId} {b : Bindings} : machine w m → frame w p →
    (∀ e ∈ b, value w e.2) → ∃ w', w ≤ w' ∧
      machine w' { m with store := m.store.push ⟨some p, b⟩ } ∧ frame w' m.store.size
  newPair {w : W} {m : Machine} {a d : Value} : machine w m → value w a → value w d →
    ∃ w', w ≤ w' ∧ machine w' { m with nextLabel := m.nextLabel + 1 } ∧
      value w' (.pair m.nextLabel a d)
  newString {w : W} {m : Machine} (s : String) : machine w m →
    ∃ w', w ≤ w' ∧ machine w' { m with nextLabel := m.nextLabel + 1 } ∧
      value w' (.str m.nextLabel s)
  newClosure {w : W} {m : Machine} {s : Scope} {formals body : Value} {xs : List String} :
    machine w m → (∀ f ∈ s.frames, frame w f) → value w formals → value w body →
    Form.parameters formals = .ok xs →
    ∃ w', w ≤ w' ∧ machine w' { m with nextLabel := m.nextLabel + 1 } ∧
      value w' (.closure m.nextLabel s formals body)

namespace Invariant

variable {W : Type} [Preorder W] (I : Invariant W)

/-- A value with the invariant is a layer over components with the invariant. -/
theorem layer {w : W} {v : Value} (h : I.value w v) :
    v.Layer I.permits (fun f f' => f = f' ∧ I.frame w f) (fun u u' => u = u' ∧ I.value w u) v := by
  cases v with
  | pair i a d => exact .pair i i ⟨rfl, (I.pair h).1⟩ ⟨rfl, (I.pair h).2⟩
  | closure i s formals body =>
    obtain ⟨hs, hformals, hbody⟩ := I.closure h
    refine .closure i i ?_ ⟨rfl, hformals⟩ ⟨rfl, hbody⟩
    cases s with
    | lexical f => exact .lexical ⟨rfl, hs f (by simp [Scope.frames])⟩
    | dynamic => exact .dynamic
  | int i => exact .int i
  | float x => exact .float x
  | bool b => exact .bool b
  | str i s => exact .str i i s
  | sym x => exact .sym x
  | nil => exact .nil
  | builtin b => exact .builtin b (I.builtin h)
  | env f => exact .env ⟨rfl, I.frame_of_env h⟩
  | undefined => exact .undefined

theorem bindings {w : W} {b b' : Bindings} (h : b.Alike (fun u u' => u = u' ∧ I.value w u) b') :
    b = b' ∧ ∀ e ∈ b, I.value w e.2 := by
  induction h with
  | nil => exact ⟨rfl, by simp⟩
  | cons he _ ih =>
    obtain ⟨rfl, hb⟩ := ih
    exact ⟨by rw [Prod.ext he.1 he.2.1], List.forall_mem_cons.mpr ⟨he.2.2, hb⟩⟩

/-- A run is compared with itself. -/
def simulation : Simulation W where
  machine w m m' := m = m' ∧ I.machine w m
  frame w f f' := f = f' ∧ I.frame w f
  value w v v' := v = v' ∧ I.value w v
  permits := I.permits
  lax _ := False
  frame_mono hw h := ⟨h.1, I.frame_mono hw h.2⟩
  value_mono hw h := ⟨h.1, I.value_mono hw h.2⟩
  layer h := h.1 ▸ I.layer h.2
  constant w _ h := ⟨rfl, I.constant w h⟩
  env hp h := ⟨by rw [h.1], I.env hp h.2⟩
  same hu hv := by rw [hu.1, hv.1]
  get? {w m m' f f'} x hm hf := by
    obtain ⟨rfl, hm⟩ := hm
    obtain ⟨rfl, -⟩ := hf
    cases hx : m.store.get? f x with
    | none => exact .none
    | some v => exact .some ⟨rfl, I.bound hm (Store.binds_of_get? hx)⟩
  root hm hf := ⟨by rw [hm.1, hf.1], I.root hm.2 hf.2⟩
  frameText hm hf := by rw [hm.1, hf.1]
  files hm := by rw [hm.1]
  define {w m m' f f' v v'} x hm hf hv := by
    obtain ⟨rfl, hm⟩ := hm
    exact ⟨by rw [hf.1, hv.1], I.define f x hm hv.2⟩
  newFrame {w m m' p p' b b'} hm hp hb := by
    obtain ⟨rfl, hm⟩ := hm
    obtain ⟨rfl, hbound⟩ := I.bindings hb
    obtain ⟨w', hw, hm', hf⟩ := I.newFrame hm hp.2 hbound
    exact ⟨w', hw, ⟨by rw [hp.1], hm'⟩, rfl, hf⟩
  newPair {w m m' a a' d d'} hm ha hd := by
    obtain ⟨rfl, hm⟩ := hm
    obtain ⟨w', hw, hm', hv⟩ := I.newPair hm ha.2 hd.2
    exact ⟨w', hw, ⟨rfl, hm'⟩, by rw [ha.1, hd.1], hv⟩
  newString {w m m'} s hm := by
    obtain ⟨rfl, hm⟩ := hm
    obtain ⟨w', hw, hm', hv⟩ := I.newString s hm
    exact ⟨w', hw, ⟨rfl, hm'⟩, rfl, hv⟩
  newClosure {w m m' s s' formals formals' body body' xs} hm hs hx hb hp := by
    obtain ⟨rfl, hm⟩ := hm
    obtain ⟨rfl, hscope⟩ := hs.inside
    obtain ⟨w', hw, hm', hv⟩ := I.newClosure hm hscope hx.2 hb.2 hp
    exact ⟨w', hw, ⟨rfl, hm'⟩, by rw [hx.1, hb.1], hv⟩
  emit text hm := ⟨by rw [hm.1], I.of_eq hm.2 rfl rfl⟩
  emitError text hm := ⟨by rw [hm.1], I.of_eq hm.2 rfl rfl⟩
  lax_inside _ := False.elim
  lax_file _ _ h := h.elim

instance : I.simulation.Nests where
  limit hm h := hm.1 ▸ h
  limit_lax hm h := .inl (hm.1 ▸ h)
  enter hm := ⟨by rw [hm.1], I.of_eq hm.2 rfl rfl⟩
  leave hm := ⟨by rw [hm.1], I.of_eq hm.2 rfl rfl⟩

theorem values {w : W} {vs vs' : List Value}
    (h : List.Forall₂ (I.simulation.value w) vs vs') : vs = vs' ∧ ∀ v ∈ vs, I.value w v := by
  induction h with
  | nil => exact ⟨rfl, by simp⟩
  | cons hv _ ih => exact ⟨by rw [hv.1, ih.1], List.forall_mem_cons.mpr ⟨hv.2, ih.2⟩⟩

end Invariant

/-! ## Requests -/

/-- The value that a run gives, if it gives one. -/
def answer? : EStateM.Result Stop Machine Value → Option Value
  | .ok v _ => some v
  | .error _ _ => none

namespace Session

namespace Request

/-- The values that a request hands over. -/
def values : Request → List Value
  | value e => [e]
  | application p args => [p, args]
  | text _ | loop .. | file .. | source .. => []

/-- Carries out a request with a given evaluator. -/
def runWith (ev : Evaluator) : Request → EvalM Value
  | text src =>
    match (Program.ofText src).all with
    | .ok exprs => evalInTurn ev .undefined exprs
    | .error e => fail (.unreadable e)
  | value e => ev (.eval e Machine.globalFrame)
  | application p args =>
    applyStep ev p args.items Machine.globalFrame >>= Step.settle fun e f => ev (.eval e f)
  | loop f prompt input => do return .bool (← repl ev f prompt input)
  | file name f => do return .int (← loadFile ev name f)
  | source src origin f => do return .int (← loadSource ev src origin f)

theorem runWith_evaluate (r : Request) : r.runWith evaluate = r.run := by
  cases r with
  | text src =>
    simp only [runWith, run, evalText]
    cases (Program.ofText src).all <;> rfl
  | _ => rfl

open Classical in
/-- Every event on the way through a request passes the check. -/
def EachEvent (fair : Event → Machine → Prop) (r : Request) (m : Machine) : Prop :=
  ∀ alarm, r.runWith (observedRun fair alarm ample) m = r.run m

open Classical in
/-- Every step of the evaluations on the way through a request passes the check. -/
def EachStep (safe : FrameId → Machine → Prop) (r : Request) (m : Machine) : Prop :=
  ∀ alarm, r.runWith (watchedRun safe alarm ample) m = r.run m

end Request

end Session

namespace Invariant

open Session

variable {W : Type} [Preorder W] (I : Invariant W) {w : W}

/-- Every request corresponds to itself, whatever evaluators that correspond it is carried out
with. -/
theorem request {ev ev' : Evaluator} (hev : I.simulation.Evaluators ev ev') (r : Request)
    (hg : I.frame w Machine.globalFrame) (hf : ∀ g ∈ r.frames, I.frame w g)
    (hr : ∀ v ∈ r.values, I.value w v) :
    I.simulation.Agree w I.simulation.value (r.runWith ev) (r.runWith ev') := by
  have hl : ∀ e, ¬I.simulation.lax (.fault e) := fun _ => id
  have hframe : ∀ f, (∀ g ∈ [f], I.frame w g) → I.simulation.frame w f f :=
    fun f hf => ⟨rfl, hf f List.mem_cons_self⟩
  have hcount : ∀ w' (n n' : Nat), n = n' → I.simulation.value w' (.int n) (.int n') := by
    rintro w' n _ rfl
    exact I.simulation.constant w' rfl
  cases r with
  | text src =>
    simp only [Request.runWith]
    split
    · exact Simulation.evalInTurn hev _ ⟨rfl, hg⟩ (I.simulation.constant w rfl)
    · exact .fail (Simulation.fault_plain rfl)
  | value e => exact Simulation.eval hev ⟨rfl, hr e (by simp [Request.values])⟩ ⟨rfl, hg⟩
  | application p args =>
    have hp : I.simulation.value w p p := ⟨rfl, hr p (by simp [Request.values])⟩
    have ha : I.simulation.value w args args := ⟨rfl, hr args (by simp [Request.values])⟩
    exact (Simulation.applyStep hev hp (Simulation.items ha) ⟨rfl, hg⟩).bind fun _ _ _ _ hs =>
      Simulation.settle hs fun he hf => hev _ _ _ (.eval he hf)
  | loop f prompt input =>
    refine (Simulation.Repl.session hl hev prompt [] _ (hframe f hf)).map ?_
    rintro w' b _ - rfl
    exact I.simulation.constant w' rfl
  | file name f =>
    exact (Simulation.loadFile hev name (hframe f hf)).map fun w' n n' _ => hcount w' n n'
  | source src origin f =>
    exact (Simulation.loadProgram hev hl origin (hframe f hf) _).map
      fun w' n n' _ => hcount w' n n'

/-- A run that is compared with itself keeps the invariant. -/
theorem kept_of_related {r r' : EStateM.Result Stop Machine Value}
    (h : I.simulation.Related w I.simulation.value r r') :
    r' = r ∧ ∃ w', w ≤ w' ∧ I.machine w' (finalMachine r) ∧ ∀ v ∈ answer? r, I.value w' v := by
  cases h with
  | ok hw hm hv =>
    obtain ⟨rfl, hm⟩ := hm
    obtain ⟨rfl, hv⟩ := hv
    exact ⟨rfl, _, hw, hm, by simpa [answer?] using hv⟩
  | error hw hm hs =>
    obtain ⟨rfl, hm⟩ := hm
    obtain rfl := Simulation.stop_eq And.left hs
    exact ⟨rfl, _, hw, hm, by simp [answer?]⟩
  | lax h => exact h.elim

section Request

variable {m : Machine} (hm : I.machine w m) (r : Request) (hf : ∀ g ∈ r.frames, I.frame w g)
  (hr : ∀ v ∈ r.values, I.value w v)

include hm hf hr

/-- A request keeps the invariant, and its answer has it. -/
theorem request_kept : ∃ w', w ≤ w' ∧ I.machine w' (finalMachine (r.run m)) ∧
    ∀ v ∈ answer? (r.run m), I.value w' v := by
  have h := I.request Simulation.evaluate r (I.global hm) hf hr m m ⟨rfl, hm⟩
  rw [r.runWith_evaluate] at h
  exact (I.kept_of_related h).2

/-- An evaluator that does the same as long as the invariant holds makes no difference. -/
theorem request_eq {ev : Evaluator} (hev : I.simulation.Evaluators (run ample) ev) :
    r.runWith ev m = r.run m := by
  have h := I.request hev r (I.global hm) hf hr m m ⟨rfl, hm⟩
  have hrun : r.runWith (run ample) m = r.run m := congrFun r.runWith_evaluate m
  rw [hrun] at h
  exact (I.kept_of_related h).1

/-- What the invariant says of events holds of every event of a request. -/
theorem request_events {fair : Event → Machine → Prop}
    (hfair : ∀ {w m e}, I.machine w m → (∀ v ∈ e.values, I.value w v) → fair e m) :
    r.EachEvent fair m := by
  classical
  intro alarm
  have hevent : ∀ {w m m' e e'}, I.simulation.machine w m m' → I.simulation.event w e e' →
      fair e' m' := by
    rintro w m _ e e' ⟨rfl, hm⟩ he
    cases he with
    | call hp ha hf =>
      obtain ⟨rfl, hp⟩ := hp
      obtain ⟨rfl, hargs⟩ := I.values ha
      exact hfair hm (List.forall_mem_cons.mpr ⟨hp, hargs⟩)
    | answer hv =>
      obtain ⟨rfl, hv⟩ := hv
      exact hfair hm (by simpa [Event.values] using hv)
  exact I.request_eq hm r hf hr (Simulation.observedRun hevent alarm ample)

/-- What the invariant says of machines and frames holds before every step of a request. -/
theorem request_steps {safe : FrameId → Machine → Prop}
    (hsafe : ∀ {w m f}, I.machine w m → I.frame w f → safe f m) : r.EachStep safe m := by
  classical
  intro alarm
  have hstep : ∀ {w m m' f f'}, I.simulation.machine w m m' → I.simulation.frame w f f' →
      safe f' m' := by
    rintro w m _ f _ ⟨rfl, hm⟩ ⟨rfl, hf⟩
    exact hsafe hm hf
  exact I.request_eq hm r hf hr (Simulation.watchedRun hstep alarm ample)

end Request

end Invariant

end Scheme
