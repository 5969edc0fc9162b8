import Scheme.Proofs.Isolation
import Scheme.Proofs.Simulation.Session
import Scheme.Proofs.Simulation.Watch

/-!
# Frames over a whole session

The frames of a session form a tree. Its root is the global frame, and every other frame was made
after its parent (`Store.Rooted`). So the way up from a frame always ends, and it ends in the
global frame: a search for a name comes to an answer (`Store.Rooted.finds`), and a file is loaded
into the global frame wherever it is asked for (`Store.Rooted.loadFile_eq`).

The tree only grows. Frames keep their parents, names that are bound stay bound, and what was
written stays written (`Machine.Grows`); a name that was once found from a frame is found from it
ever after.

A request to a session can fail half way, and what it did until then stays. The invariant is
therefore not one of results but of every basic operation: `Persistence.simulation` compares a
run with itself and carries it along, and `Session.Reaches` puts requests in sequence.
`session_frames_persist` is the result.
-/

namespace Scheme

open EvalM

/-! ## The tree of frames -/

namespace Store

/-- The parent that a frame was made with. -/
def parentOf (s : Store) (f : FrameId) : Option FrameId := s.frames[f]?.bind Frame.parent

/-- The global frame has no parent, and every other frame has one that was made before it. -/
structure Rooted (s : Store) : Prop where
  size_pos : Machine.globalFrame < s.size
  global : s.parentOf Machine.globalFrame = none
  older : ∀ f < s.size, f ≠ Machine.globalFrame → ∃ p < f, s.parentOf f = some p

instance (s : Store) : Decidable s.Rooted :=
  decidable_of_iff
    (Machine.globalFrame < s.size ∧ s.parentOf Machine.globalFrame = none ∧
      ∀ f < s.size, f ≠ Machine.globalFrame → ∃ p < f, s.parentOf f = some p)
    ⟨fun h => ⟨h.1, h.2.1, h.2.2⟩, fun h => ⟨h.size_pos, h.global, h.older⟩⟩

/-- The way up from the first frame, parent by parent, ends in the second, which has none. -/
inductive Climbs (s : Store) : FrameId → FrameId → Prop
  | top {f : FrameId} (hf : f < s.size) (h : s.parentOf f = none) : Climbs s f f
  | up {f p g : FrameId} (hp : s.parentOf f = some p) (h : Climbs s p g) : Climbs s f g

/-- The search for a name on the way up from a frame, and its answer. -/
inductive Finds (s : Store) (x : String) : FrameId → Option Value → Prop
  | here {f : FrameId} {v : Value} (hx : s.local? f x = some v) : Finds s x f (some v)
  | up {f p : FrameId} {r : Option Value} (hx : s.local? f x = none)
      (hp : s.parentOf f = some p) (h : Finds s x p r) : Finds s x f r
  | nowhere {f : FrameId} (hx : s.local? f x = none) (hp : s.parentOf f = none) : Finds s x f none

theorem lt_size_of_parentOf {s : Store} {f p : FrameId} (h : s.parentOf f = some p) :
    f < s.size := by
  obtain ⟨fr, hfr, -⟩ := Option.bind_eq_some_iff.mp h
  exact (Array.getElem?_eq_some_iff.mp hfr).1

theorem parentOf_define (s : Store) (f g : FrameId) (x : String) (v : Value) :
    (s.define f x v).parentOf g = s.parentOf g := by
  rw [parentOf, parentOf, frames_define]
  split
  · rw [Option.bind_map]
    rfl
  · rfl

/-- A new frame has the parent it is made with, and all others keep theirs. -/
theorem parentOf_push (s : Store) (fr : Frame) (g : FrameId) :
    (s.push fr).parentOf g = if g = s.size then fr.parent else s.parentOf g := by
  rw [parentOf, frames_push]
  split
  · rfl
  · rfl

/-- The way up follows a parent if it is older than the frame. -/
theorem parent?_eq (s : Store) (f : FrameId) :
    s.parent? f = (s.parentOf f).filter (· < f) := by
  rw [parent?, parentOf]
  cases s.frames[f]? with
  | none => rfl
  | some fr =>
    cases hp : fr.parent with
    | none => simp [hp]
    | some p => simp [hp, Option.filter]

namespace Rooted

variable {s : Store} (h : s.Rooted)

include h

/-- In a rooted store the way up follows every parent. -/
theorem parent?_eq (f : FrameId) : s.parent? f = s.parentOf f := by
  rw [Store.parent?_eq]
  cases hp : s.parentOf f with
  | none => rfl
  | some p =>
    have hne : f ≠ Machine.globalFrame := by
      rintro rfl
      simp [h.global] at hp
    obtain ⟨q, hlt, hq⟩ := h.older f (lt_size_of_parentOf hp) hne
    obtain rfl : p = q := Option.some.inj (hp.symm.trans hq)
    simp [hlt]

/-- From every frame the way up leads to the global frame. -/
theorem climbs {f : FrameId} (hf : f < s.size) : s.Climbs f Machine.globalFrame := by
  induction f using Nat.strongRecOn with
  | ind f ih =>
    by_cases hg : f = Machine.globalFrame
    · subst hg
      exact .top hf h.global
    · obtain ⟨p, hlt, hp⟩ := h.older f hf hg
      exact .up hp (ih p hlt (hlt.trans hf))

/-- The walks of the store follow the way up to its end. -/
theorem walks_of_climbs (x : String) {f g : FrameId} (hc : s.Climbs f g) :
    s.root f = g ∧ s.Finds x f (s.get? f x) := by
  induction hc with
  | @top f _ hp =>
    rw [s.root_eq, s.get?_eq, h.parent?_eq, hp]
    refine ⟨rfl, ?_⟩
    cases hx : s.local? f x with
    | some v => exact .here hx
    | none => exact .nowhere hx hp
  | @up f p g hp _ ih =>
    rw [s.root_eq, s.get?_eq, h.parent?_eq, hp]
    refine ⟨ih.1, ?_⟩
    cases hx : s.local? f x with
    | some v => exact .here hx
    | none => exact .up hx hp ih.2

/-- The root of every frame is the global frame. -/
theorem root_eq {f : FrameId} (hf : f < s.size) : s.root f = Machine.globalFrame :=
  (h.walks_of_climbs "" (h.climbs hf)).1

/-- The search for a name comes to an answer, from every frame. -/
theorem finds (x : String) {f : FrameId} (hf : f < s.size) : s.Finds x f (s.get? f x) :=
  (h.walks_of_climbs x (h.climbs hf)).2

omit h in
/-- A file is loaded into the global frame, whichever frame asks for it. -/
theorem loadFile_eq {m : Machine} (h : m.store.Rooted) {f : FrameId} (hf : f < m.store.size)
    (ev : Evaluator) {name path source : String} {bytes : ByteArray}
    (hfile : findSource name m = .ok (path, bytes) m)
    (hsource : String.fromUTF8? bytes = some source) :
    loadFile ev name f m = loadSource ev source path Machine.globalFrame m := by
  have hroot : rootFrame f m = .ok Machine.globalFrame m := by rw [rootFrame, h.root_eq hf]
  rw [loadFile, bind_ok hfile]
  simp only [hsource]
  rw [bind_ok hroot]

end Rooted

/-- The tree of frames, and that the values bound in it refer only to frames of it. -/
structure Intact (s : Store) : Prop extends s.Rooted where
  closed {f : FrameId} {fr : Frame} : s.frames[f]? = some fr → ∀ g ∈ fr.frames, g < s.size

namespace Intact

variable {s : Store} (h : s.Intact)

include h

theorem agreeOn : AgreeOn (· < s.size) s s := ⟨fun _ => rfl, fun _ hfr => h.closed hfr⟩

/-- Definitions keep the tree intact if the value refers only to frames of it. -/
theorem define (f : FrameId) (x : String) {v : Value} (hv : ∀ g ∈ v.frames, g < s.size) :
    (s.define f x v).Intact where
  size_pos := by
    rw [size_define]
    exact h.size_pos
  global := by
    rw [parentOf_define]
    exact h.global
  older g hg hne := by
    rw [size_define] at hg
    rw [parentOf_define]
    exact h.older g hg hne
  closed {g fr} hfr g' hg' := by
    rw [size_define]
    rw [frames_define] at hfr
    split at hfr
    · obtain ⟨fr₀, hfr₀, rfl⟩ := Option.map_eq_some_iff.mp hfr
      rcases Frame.mem_frames_define hg' with hg' | hg'
      · exact h.closed hfr₀ g' hg'
      · exact hv g' hg'
    · exact h.closed hfr g' hg'

/-- A new frame keeps the tree intact if it refers only to frames that exist. -/
theorem push {p : FrameId} {b : Bindings} (hfr : ∀ g ∈ (⟨some p, b⟩ : Frame).frames, g < s.size) :
    (s.push ⟨some p, b⟩).Intact where
  size_pos := by
    rw [size_push]
    exact Nat.lt_succ_of_lt h.size_pos
  global := by
    rw [parentOf_push, if_neg (Nat.ne_of_lt h.size_pos)]
    exact h.global
  older g hg hne := by
    rw [size_push] at hg
    rw [parentOf_push]
    split
    · next hlast => exact ⟨p, hlast ▸ hfr p (Frame.parent_mem_frames rfl), rfl⟩
    · next hlast => exact h.older g (Nat.lt_of_le_of_ne (Nat.le_of_lt_succ hg) hlast) hne
  closed {g fr} hg g' hg' := by
    rw [size_push]
    rw [frames_push] at hg
    split at hg
    · obtain rfl := Option.some.inj hg
      exact Nat.lt_succ_of_lt (hfr g' hg')
    · exact Nat.lt_succ_of_lt (h.closed hg g' hg')

end Intact

/-! ## Growth -/

/-- Frames stay, with their parents and with the names that they bind. -/
def Grows (s s' : Store) : Prop :=
  ∀ ⦃f : FrameId⦄ ⦃fr : Frame⦄, s.frames[f]? = some fr →
    ∃ fr' : Frame, s'.frames[f]? = some fr' ∧ fr'.parent = fr.parent ∧
      fr.bindings.names <+: fr'.bindings.names

namespace Grows

variable {s s' s'' : Store}

theorem refl (s : Store) : s.Grows s := fun _ fr hfr => ⟨fr, hfr, rfl, List.prefix_rfl⟩

theorem trans (h : s.Grows s') (h' : s'.Grows s'') : s.Grows s'' := by
  intro f fr hfr
  obtain ⟨fr', hfr', hp', hn'⟩ := h hfr
  obtain ⟨fr'', hfr'', hp'', hn''⟩ := h' hfr'
  exact ⟨fr'', hfr'', hp''.trans hp', hn'.trans hn''⟩

/-- A definition leaves all frames in place with the names that they bind. -/
theorem define (s : Store) (f : FrameId) (x : String) (v : Value) : s.Grows (s.define f x v) := by
  intro g fr hfr
  rw [frames_define, hfr]
  split
  · refine ⟨fr.define x v, rfl, rfl, ?_⟩
    rw [Frame.define, Bindings.names_put]
    split
    · exact List.prefix_rfl
    · exact List.prefix_append _ _
  · exact ⟨fr, rfl, rfl, List.prefix_rfl⟩

theorem push (s : Store) (fr : Frame) : s.Grows (s.push fr) := by
  intro g fr₀ hfr₀
  have hlt : g < s.size := (Array.getElem?_eq_some_iff.mp hfr₀).1
  rw [frames_push, if_neg (Nat.ne_of_lt hlt)]
  exact ⟨fr₀, hfr₀, rfl, List.prefix_rfl⟩

/-- As a store grows, frames keep their parents. -/
theorem parentOf_eq (h : s.Grows s') {f : FrameId} (hf : f < s.size) :
    s'.parentOf f = s.parentOf f := by
  have hfr : s.frames[f]? = some s.frames[f] := Array.getElem?_eq_getElem hf
  obtain ⟨fr', hfr', hp, -⟩ := h hfr
  simp [parentOf, hfr, hfr', hp]

/-- As a store grows, the way up from a frame stays the same. -/
theorem parent?_eq_some (h : s.Grows s') {f p : FrameId} (hp : s.parent? f = some p) :
    s'.parent? f = some p := by
  rw [Store.parent?_eq] at hp ⊢
  rw [h.parentOf_eq (lt_size_of_parentOf (Option.filter_eq_some_iff.mp hp).1), hp]

theorem local?_isSome (h : s.Grows s') {f : FrameId} {x : String}
    (hx : (s.local? f x).isSome = true) : (s'.local? f x).isSome = true := by
  rw [local?] at hx ⊢
  cases hfr : s.frames[f]? with
  | none => simp [hfr] at hx
  | some fr =>
    obtain ⟨fr', hfr', -, hn⟩ := h hfr
    rw [hfr] at hx
    rw [hfr']
    exact Bindings.lookup_isSome_iff.mpr (hn.subset (Bindings.lookup_isSome_iff.mp hx))

/-- A name that is found from a frame is still found from it. -/
theorem get?_isSome (h : s.Grows s') {f : FrameId} {x : String}
    (hx : (s.get? f x).isSome = true) : (s'.get? f x).isSome = true := by
  induction f using Nat.strongRecOn with
  | ind f ih =>
    rw [s'.get?_eq]
    rw [s.get?_eq] at hx
    cases hl' : s'.local? f x with
    | some v => rfl
    | none =>
      have hl : s.local? f x = none := by
        by_contra hl
        have := h.local?_isSome (Option.isSome_iff_ne_none.mpr hl)
        simp [hl'] at this
      simp only [hl] at hx
      obtain ⟨p, hp⟩ : ∃ p, s.parent? f = some p :=
        Option.ne_none_iff_exists'.mp fun hp => by simp [hp] at hx
      have hp' : s'.parent? f = some p := h.parent?_eq_some hp
      simp only [hp, hp', Option.bind_some] at hx ⊢
      exact ih p (lt_of_parent? hp) hx

end Grows

end Store

/-- The frames of a machine stay, and its output is only added to. -/
structure Machine.Grows (m m' : Machine) : Prop where
  store : m.store.Grows m'.store
  out : ∃ text, m'.out = m.out ++ text

namespace Machine.Grows

variable {m m' m'' : Machine}

theorem refl (m : Machine) : m.Grows m := ⟨.refl m.store, "", (String.append_empty).symm⟩

theorem trans (h : m.Grows m') (h' : m'.Grows m'') : m.Grows m'' := by
  obtain ⟨text, htext⟩ := h.out
  obtain ⟨text', htext'⟩ := h'.out
  exact ⟨h.store.trans h'.store, text ++ text', by rw [htext', htext, String.append_assoc]⟩

/-- Only the store and the output count. -/
theorem of_eq (h : m.Grows m') {k : Machine} (hs : k.store = m'.store) (ho : k.out = m'.out) :
    m.Grows k :=
  ⟨hs ▸ h.store, ho ▸ h.out⟩

theorem setStore (h : m.Grows m') {s : Store} (hs : m'.store.Grows s) :
    m.Grows { m' with store := s } :=
  ⟨h.store.trans hs, h.out⟩

theorem emit (h : m.Grows m') (text : String) : m.Grows { m' with out := m'.out ++ text } :=
  h.trans ⟨.refl m'.store, text, rfl⟩

end Machine.Grows

/-! ## Runs -/

namespace Persistence

/-- A run is compared with itself. All references lead to frames that exist, of which there are as
many as the world says, and all that there was in `start` is still there. -/
def simulation (start : Machine) : Simulation Nat where
  machine w m m' := m = m' ∧ m.store.size = w ∧ m.store.Intact ∧ start.Grows m
  frame w f f' := f = f' ∧ f < w
  value w := Value.Inside (· < w)
  permits _ := True
  lax _ := False
  frame_mono hw h := ⟨h.1, Nat.lt_of_lt_of_le h.2 hw⟩
  value_mono hw h := ⟨h.1, fun g hg => Nat.lt_of_lt_of_le (h.2 g hg) hw⟩
  layer h := h.layer
  constant w v h := ⟨rfl, by simp [Value.frames_of_isConstant h]⟩
  env _ h := ⟨by rw [h.1], by simpa [Value.frames] using h.2⟩
  same hu hv := by rw [hu.1, hv.1]
  get? x hm hf := by
    obtain ⟨rfl, rfl, hi, -⟩ := hm
    obtain ⟨rfl, hf⟩ := hf
    exact hi.agreeOn.get? hf x
  root hm hf := by
    obtain ⟨rfl, rfl, hi, -⟩ := hm
    obtain ⟨rfl, hf⟩ := hf
    exact hi.agreeOn.root hf
  frameText hm hf := by rw [hm.1, hf.1]
  files hm := by rw [hm.1]
  define {w m m' f f' v v'} x hm hf hv := by
    obtain ⟨rfl, rfl, hi, hgrows⟩ := hm
    obtain ⟨rfl, hf⟩ := hf
    obtain ⟨rfl, hv⟩ := hv
    exact ⟨rfl, Store.size_define .., hi.define f x hv, hgrows.setStore (.define ..)⟩
  newFrame {w m m' p p' b b'} hm hp hb := by
    obtain ⟨rfl, rfl, hi, hgrows⟩ := hm
    obtain ⟨rfl, hp⟩ := hp
    obtain ⟨rfl, hbound⟩ := hb.inside
    have hfr := Frame.forall_mem_frames (A := (· < m.store.size)) hp hbound
    exact ⟨m.store.size + 1, Nat.le_succ _, ⟨rfl, Store.size_push .., hi.push hfr,
      hgrows.setStore (.push ..)⟩, rfl, Nat.lt_succ_self _⟩
  newPair {w m m' a a' d d'} hm ha hd := by
    obtain ⟨rfl, hw, hi, hgrows⟩ := hm
    refine ⟨w, le_rfl, ⟨rfl, hw, hi, hgrows.of_eq rfl rfl⟩, by rw [ha.1, hd.1], ?_⟩
    rw [Value.frames, List.forall_mem_append]
    exact ⟨ha.2, hd.2⟩
  newString {w m m'} s hm := by
    obtain ⟨rfl, hw, hi, hgrows⟩ := hm
    exact ⟨w, le_rfl, ⟨rfl, hw, hi, hgrows.of_eq rfl rfl⟩, rfl, by simp [Value.frames]⟩
  newClosure {w m m' c c' formals formals' body body' xs} hm hc hx hb _ := by
    obtain ⟨rfl, hw, hi, hgrows⟩ := hm
    obtain ⟨rfl, hscope⟩ := hc.inside
    refine ⟨w, le_rfl, ⟨rfl, hw, hi, hgrows.of_eq rfl rfl⟩, by rw [hx.1, hb.1], ?_⟩
    rw [Value.frames, List.forall_mem_append, List.forall_mem_append]
    exact ⟨⟨hscope, hx.2⟩, hb.2⟩
  emit text hm := by
    obtain ⟨rfl, hw, hi, hgrows⟩ := hm
    exact ⟨rfl, hw, hi, hgrows.emit text⟩
  emitError text hm := by
    obtain ⟨rfl, hw, hi, hgrows⟩ := hm
    exact ⟨rfl, hw, hi, hgrows.of_eq rfl rfl⟩
  lax_inside _ := False.elim
  lax_file _ _ h := h.elim

instance (start : Machine) : (simulation start).Nests where
  limit hm h := hm.1 ▸ h
  limit_lax hm h := .inl (hm.1 ▸ h)
  enter hm := by
    obtain ⟨rfl, hw, hi, hgrows⟩ := hm
    exact ⟨rfl, hw, hi, hgrows.of_eq rfl rfl⟩
  leave hm := by
    obtain ⟨rfl, hw, hi, hgrows⟩ := hm
    exact ⟨rfl, hw, hi, hgrows.of_eq rfl rfl⟩

/-- What is known of a run when it is over: how things stand then, and that its value refers only to
frames that exist. -/
structure Settled (start : Machine) (r : EStateM.Result Stop Machine Value) : Prop where
  intact : (finalMachine r).store.Intact
  grows : start.Grows (finalMachine r)
  frames : ∀ g ∈ resultFrames r, g < (finalMachine r).store.size

/-- A run that corresponds to itself ends with the tree intact and grown. -/
theorem settled_of_related {start : Machine} {w : Nat} {r r' : EStateM.Result Stop Machine Value}
    (h : (simulation start).Related w (simulation start).value r r') :
    r' = r ∧ Settled start r := by
  cases h with
  | ok _ hm hv =>
    obtain ⟨rfl, rfl, hi, hgrows⟩ := hm
    exact ⟨by rw [hv.1], hi, hgrows, hv.2⟩
  | error _ hm hs =>
    obtain ⟨rfl, rfl, hi, hgrows⟩ := hm
    exact ⟨by rw [Simulation.stop_eq And.left hs], hi, hgrows, by simp [resultFrames]⟩
  | lax h => exact h.elim

/-- Every step of an evaluation starts on a rooted store, in a frame that exists. -/
theorem safeThroughout {m : Machine} (hm : m.store.Intact) {e : Value} {f : FrameId}
    (hfr : ∀ g ∈ f :: e.frames, g < m.store.size) (fuel : Nat) :
    SafeThroughout (fun f m => m.store.Rooted ∧ f < m.store.size) fuel (.eval e f) m := by
  intro alarm
  rw [List.forall_mem_cons] at hfr
  have hsafe : ∀ {w m₁ m₁' g g'}, (simulation m).machine w m₁ m₁' → (simulation m).frame w g g' →
      m₁'.store.Rooted ∧ g' < m₁'.store.size := by
    rintro w m₁ _ g _ ⟨rfl, rfl, hi, -⟩ ⟨rfl, hg⟩
    exact ⟨hi.toRooted, hg⟩
  have hrun := Simulation.watchedRun hsafe alarm fuel m.store.size _ _
    (.eval (.inl ⟨rfl, hfr.2⟩) ⟨rfl, hfr.1⟩) m m ⟨rfl, rfl, hm, .refl m⟩
  exact (settled_of_related hrun).1

end Persistence

/-! ## Sessions -/

namespace Session

/-- What can be asked of a session. -/
inductive Request where
  | text (src : String)
  | value (e : Value)
  | application (p args : Value)
  | loop (f : FrameId) (prompt : Option String) (input : ByteArray)
  | file (name : String) (f : FrameId)
  | source (src origin : String) (f : FrameId)

namespace Request

/-- Carries out a request; counts and answers are given as values. -/
def run : Request → EvalM Value
  | text src => evalText src
  | value e => evalValue e
  | application p args => applyValue p args
  | loop f prompt input => do return .bool (← repl evaluate f prompt input)
  | file name f => do return .int (← loadFile evaluate name f)
  | source src origin f => do return .int (← loadSource evaluate src origin f)

/-- The frames that a request refers to. -/
def frames : Request → List FrameId
  | text _ => []
  | value e => e.frames
  | application p args => p.frames ++ args.frames
  | loop f _ _ | file _ f | source _ _ f => [f]

end Request

/-- The machines that a session comes to, one request after the other. The files can be others for
each request, and a request refers to frames that exist. -/
inductive Reaches (m : Machine) : Machine → Prop
  | refl : Reaches m m
  | step {m₁ : Machine} (h : Reaches m m₁) (files : String → FileEntry) (r : Request)
      (hr : ∀ g ∈ r.frames, g < m₁.store.size) :
      Reaches m (finalMachine (r.run { m₁ with files := files }))

open Persistence

/-- Every request corresponds to itself if the frames that it refers to exist. -/
theorem Request.agree {start : Machine} {w : Nat} (hg : Machine.globalFrame < w) (r : Request)
    (hr : ∀ g ∈ r.frames, g < w) :
    (simulation start).Agree w (simulation start).value r.run r.run := by
  have hl : ∀ e, ¬(simulation start).lax (.fault e) := fun _ => id
  have hglobal : (simulation start).frame w Machine.globalFrame Machine.globalFrame := ⟨rfl, hg⟩
  have hvalue : ∀ v : Value, (∀ g ∈ v.frames, g < w) → (simulation start).value w v v :=
    fun v hv => ⟨rfl, hv⟩
  have hframe : ∀ f, (∀ g ∈ [f], g < w) → (simulation start).frame w f f :=
    fun f hf => ⟨rfl, hf f List.mem_cons_self⟩
  have hcount : ∀ w' (n n' : Nat), n = n' → (simulation start).value w' (.int n) (.int n') := by
    rintro w' n _ rfl
    exact (simulation start).constant w' rfl
  cases r with
  | text src => exact Simulation.evalText hglobal src
  | value e => exact Simulation.evalValue hglobal (hvalue e hr)
  | application p args =>
    obtain ⟨hp, ha⟩ := List.forall_mem_append.mp hr
    exact Simulation.applyValue hglobal (hvalue p hp) (hvalue args ha)
  | loop f prompt input =>
    refine (Simulation.Repl.session hl Simulation.evaluate prompt [] _ (hframe f hr)).map ?_
    rintro w' b _ - rfl
    exact (simulation start).constant w' rfl
  | file name f =>
    exact (Simulation.loadFile Simulation.evaluate name (hframe f hr)).map
      fun w' n n' _ => hcount w' n n'
  | source src origin f =>
    exact (Simulation.loadProgram Simulation.evaluate hl origin (hframe f hr) _).map
      fun w' n n' _ => hcount w' n n'

/-- Every request leaves the tree intact and grown, whether it succeeds or fails. -/
theorem Request.settled {m : Machine} (hm : m.store.Intact) (r : Request)
    (hr : ∀ g ∈ r.frames, g < m.store.size) (files : String → FileEntry) :
    Settled m (r.run { m with files := files }) := by
  have hstart : (simulation m).machine m.store.size { m with files := files }
      { m with files := files } := ⟨rfl, rfl, hm, (Machine.Grows.refl m).of_eq rfl rfl⟩
  exact (settled_of_related (r.agree hm.size_pos hr _ _ hstart)).2

/-- After any number of requests the tree is intact and has only grown. -/
theorem Reaches.settled {m m' : Machine} (hm : m.store.Intact) (h : Reaches m m') :
    m'.store.Intact ∧ m.Grows m' := by
  induction h with
  | refl => exact ⟨hm, .refl m⟩
  | step _ files r hr ih =>
    have hstep := r.settled ih.1 hr files
    exact ⟨hstep.intact, ih.2.trans hstep.grows⟩

end Session

/-- What is bound after some bindings have been put in was bound before or is one of them. -/
theorem Bindings.mem_putAll {b : Bindings} {new : List (String × Value)} {e : String × Value}
    (h : e ∈ b.putAll new) : e ∈ b ∨ e ∈ new := by
  induction new generalizing b with
  | nil => exact .inl h
  | cons e₁ new ih =>
    rcases ih h with h | h
    · rcases Bindings.mem_put h with rfl | h
      · exact .inr List.mem_cons_self
      · exact .inl h
    · exact .inr (List.mem_cons_of_mem e₁ h)

/-- A new machine has one frame, and only built-in procedures are bound in it. -/
theorem Machine.intact_new (builtins : List Builtin) (files : String → FileEntry) :
    (Machine.new builtins files).store.Intact where
  size_pos := Nat.one_pos
  global := rfl
  older f hf hne := absurd (Nat.lt_one_iff.mp hf) hne
  closed {f fr} hfr g hg := by
    obtain rfl : f = 0 := Nat.lt_one_iff.mp (Array.getElem?_eq_some_iff.mp hfr).1
    obtain rfl := Option.some.inj hfr
    obtain ⟨e, he, hg⟩ := List.mem_flatMap.mp hg
    rcases Bindings.mem_putAll he with he | he
    · simp at he
    · obtain ⟨b, -, rfl⟩ := List.mem_map.mp he
      simp [Value.frames] at hg

/-- At every point of a session, whatever was asked for before and whether it failed or not: the
frames form a tree whose root is the global frame, in which every frame is younger than its parent.
The way up from every frame ends in the global frame, searches for names come to their answer, and
files are loaded into the global frame whichever frame asks for them; inside an evaluation this
holds before each step, in the frame of that step. From then on no frame changes its parent or
loses a name, output is only added, and a name that is found from a frame stays found. -/
theorem session_frames_persist (builtins : List Builtin) (files : String → FileEntry)
    {m m' : Machine} (hm : Session.Reaches (Machine.new builtins files) m)
    (hm' : Session.Reaches m m') :
    m.store.Rooted ∧
    (∀ f < m.store.size, m.store.Climbs f Machine.globalFrame ∧
      m.store.root f = Machine.globalFrame ∧ (∀ x, m.store.Finds x f (m.store.get? f x)) ∧
      ∀ ev name path bytes source, findSource name m = .ok (path, bytes) m →
        String.fromUTF8? bytes = some source →
          loadFile ev name f m = loadSource ev source path Machine.globalFrame m) ∧
    (∀ e f fuel, (∀ g ∈ f :: e.frames, g < m.store.size) →
      SafeThroughout (fun f m => m.store.Rooted ∧ f < m.store.size) fuel (.eval e f) m) ∧
    (∀ (r : Session.Request) files, (∀ g ∈ r.frames, g < m.store.size) →
      ∀ g ∈ resultFrames (r.run { m with files := files }),
        g < (finalMachine (r.run { m with files := files })).store.size) ∧
    m.Grows m' ∧
    ∀ f x, (m.store.get? f x).isSome = true → (m'.store.get? f x).isSome = true := by
  have hi : m.store.Intact := (hm.settled (Machine.intact_new builtins files)).1
  have hgrows : m.Grows m' := (hm'.settled hi).2
  have hr : m.store.Rooted := hi.toRooted
  refine ⟨hr, fun f hf => ⟨hr.climbs hf, hr.root_eq hf, fun x => hr.finds x hf, ?_⟩, ?_, ?_,
    hgrows, fun f x => hgrows.store.get?_isSome⟩
  · exact fun ev name path bytes source hfile hsource => hr.loadFile_eq hf ev hfile hsource
  · exact fun e f fuel hfr => Persistence.safeThroughout hi hfr fuel
  · exact fun r files hfr => (r.settled hi hfr files).frames

/-- A call leaves a frame behind, and then a request fails after a definition. -/
theorem session_frames_persist_call :
    let call : Value := .pair 1 (.pair 2 (.sym "lambda") (.pair 3 (.pair 4 (.sym "x") .nil)
      (.pair 5 (.sym "x") .nil))) (.pair 6 (.int 5) .nil)
    let failing : Value := .pair 1 (.sym "begin") (.pair 2 (.pair 3 (.sym "define")
      (.pair 4 (.sym "car") (.pair 5 (.int 1) .nil))) (.pair 6 (.sym "nowhere") .nil))
    let files : String → FileEntry := fun _ => .absent
    let m := finalMachine (Session.Request.run (.value call) (Session.new files))
    let m' := finalMachine (Session.Request.run (.value failing) { m with files := files })
    (Session.Reaches (Session.new files) m ∧ Session.Reaches m m') ∧
    m.store.parentOf 1 = some Machine.globalFrame ∧ m.store.Climbs 1 Machine.globalFrame ∧
    (m.store.get? 1 "x").isSome = true ∧ m.Grows m' ∧
    (m'.store.get? 1 "x").isSome = true := by
  intro call failing files m m'
  have hm : Session.Reaches (Session.new files) m := .step .refl files (.value call) (by decide)
  have hm' : Session.Reaches m m' := .step .refl files (.value failing) (by decide)
  obtain ⟨-, hframes, -, -, hgrows, hfound⟩ :=
    session_frames_persist Builtin.standard files hm hm'
  have hparent : m.store.parentOf 1 = some Machine.globalFrame := by decide +kernel
  have hx : (m.store.get? 1 "x").isSome = true := by
    rw [Store.get?_eq]
    decide +kernel
  exact ⟨⟨hm, hm'⟩, hparent, (hframes 1 (Store.lt_size_of_parentOf hparent)).1, hx, hgrows,
    hfound 1 "x" hx⟩

end Scheme
