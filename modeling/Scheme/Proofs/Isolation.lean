import Mathlib.Data.Nat.Basic
import Scheme.Proofs.Reachability
import Scheme.Proofs.Simulation.Indifference

/-!
# Isolation

An evaluation cannot touch the frames that are not reachable from its expression and its frame.
They are the same afterwards, and whatever they hold makes no difference to the result, to the
output, or to what becomes of the other frames.

Both are about two runs on machines that differ only in such frames: `Isolation.simulation` shows
that evaluation keeps this, where all values at hand refer only to the other frames. A single run
is compared with itself. `unreachable_isolated` is the result, together with what it means for
two sessions in one store that have no frame in common.
-/

namespace Scheme

open EvalM

/-- The machines are the same but for what the frames of a set hold. -/
structure SameBut (U : FrameId → Prop) (m m' : Machine) : Prop where
  nextLabel_eq : m.nextLabel = m'.nextLabel
  depth_eq : m.depth = m'.depth
  out_eq : m.out = m'.out
  err_eq : m.err = m'.err
  files_eq : m.files = m'.files
  size_eq : m.store.size = m'.store.size
  frames_eq {g : FrameId} : ¬U g → m.store.frames[g]? = m'.store.frames[g]?

/-- The same value or the same reason to stop, on machines that are the same but for the set. -/
inductive SameOutcome (U : FrameId → Prop) :
    EStateM.Result Stop Machine Value → EStateM.Result Stop Machine Value → Prop
  | ok (v : Value) {m m' : Machine} (h : SameBut U m m') : SameOutcome U (.ok v m) (.ok v m')
  | error (s : Stop) {m m' : Machine} (h : SameBut U m m') :
      SameOutcome U (.error s m) (.error s m')

namespace Isolation

/-- Frames that are not isolated and, if that is promised, exist. -/
def Within (U : FrameId → Prop) (P : Prop) (size : Nat) (g : FrameId) : Prop :=
  ¬U g ∧ (P → g < size)

theorem Within.mono {U : FrameId → Prop} {P : Prop} {w w' : Nat} (hw : w ≤ w') {g : FrameId}
    (h : Within U P w g) : Within U P w' g :=
  ⟨h.1, fun hp => Nat.lt_of_lt_of_le (h.2 hp) hw⟩

/-- Machines that differ in a set of frames which nothing else refers to, and which are still as
they were in `s` and `s'`. -/
structure Apart (U : FrameId → Prop) (P : Prop) (s s' : Store) (size : Nat) (m m' : Machine) :
    Prop where
  same : SameBut U m m'
  size_eq : m.store.size = size
  exist {g : FrameId} : U g → g < size
  closed {g : FrameId} {fr : Frame} : ¬U g → m.store.frames[g]? = some fr →
    ∀ h ∈ fr.frames, Within U P size h
  kept {g : FrameId} : U g → m.store.frames[g]? = s.frames[g]?
  kept' {g : FrameId} : U g → m'.store.frames[g]? = s'.frames[g]?

namespace Apart

variable {U : FrameId → Prop} {P : Prop} {s s' : Store} {w : Nat} {m m' : Machine}

theorem agreeOn (h : Apart U P s s' w m m') : AgreeOn (Within U P w) m.store m'.store :=
  ⟨fun hg => h.same.frames_eq hg.1, fun hg hfr => h.closed hg.1 hfr⟩

theorem define (h : Apart U P s s' w m m') {f : FrameId} (hf : ¬U f) (x : String) {v : Value}
    (hv : ∀ g ∈ v.frames, Within U P w g) :
    Apart U P s s' w { m with store := m.store.define f x v }
      { m' with store := m'.store.define f x v } := by
  have hne : ∀ {g}, U g → f ≠ g := by
    rintro g hg rfl
    exact hf hg
  refine ⟨{ h.same with size_eq := ?_, frames_eq := ?_ }, ?_, h.exist, ?_, ?_, ?_⟩
  · simpa only [Store.size_define] using h.same.size_eq
  · intro g hg
    rw [Store.frames_define, Store.frames_define, h.same.frames_eq hg]
  · rw [Store.size_define, h.size_eq]
  · intro g fr hg hfr g' hg'
    rw [Store.frames_define] at hfr
    split at hfr
    · obtain ⟨fr₀, hfr₀, rfl⟩ := Option.map_eq_some_iff.mp hfr
      rcases Frame.mem_frames_define hg' with hg' | hg'
      · exact h.closed hg hfr₀ g' hg'
      · exact hv g' hg'
    · exact h.closed hg hfr g' hg'
  · intro g hg
    rw [Store.frames_define, if_neg (hne hg), h.kept hg]
  · intro g hg
    rw [Store.frames_define, if_neg (hne hg), h.kept' hg]

/-- The number of a new frame is not isolated. -/
theorem fresh (h : Apart U P s s' w m m') : Within U P (w + 1) w :=
  ⟨fun hu => Nat.lt_irrefl w (h.exist hu), fun _ => Nat.lt_succ_self w⟩

theorem push (h : Apart U P s s' w m m') {fr : Frame} (hfr : ∀ g ∈ fr.frames, Within U P w g) :
    Apart U P s s' (w + 1) { m with store := m.store.push fr }
      { m' with store := m'.store.push fr } := by
  have hsize' : m'.store.size = w := h.same.size_eq ▸ h.size_eq
  have hne : ∀ {g}, U g → g ≠ w := fun hg => Nat.ne_of_lt (h.exist hg)
  refine ⟨{ h.same with size_eq := ?_, frames_eq := ?_ }, ?_, ?_, ?_, ?_, ?_⟩
  · rw [Store.size_push, Store.size_push, h.size_eq, hsize']
  · intro g hg
    rw [Store.frames_push, Store.frames_push, h.size_eq, hsize', h.same.frames_eq hg]
  · rw [Store.size_push, h.size_eq]
  · exact fun hg => Nat.lt_succ_of_lt (h.exist hg)
  · intro g fr₀ hg hfr₀ g' hg'
    rw [Store.frames_push] at hfr₀
    split at hfr₀
    · obtain rfl := Option.some.inj hfr₀
      exact (hfr g' hg').mono (Nat.le_succ w)
    · exact (h.closed hg hfr₀ g' hg').mono (Nat.le_succ w)
  · intro g hg
    rw [Store.frames_push, h.size_eq, if_neg (hne hg), h.kept hg]
  · intro g hg
    rw [Store.frames_push, hsize', if_neg (hne hg), h.kept' hg]

/-- The other parts of the machines can change in the same way. -/
theorem of_same (h : Apart U P s s' w m m') {k k' : Machine} (hk : k.store = m.store)
    (hk' : k'.store = m'.store) (hsame : SameBut U k k') : Apart U P s s' w k k' where
  same := hsame
  size_eq := hk ▸ h.size_eq
  exist := h.exist
  closed := hk ▸ h.closed
  kept := hk ▸ h.kept
  kept' := hk' ▸ h.kept'

end Apart

/-- Two runs whose machines differ in the isolated frames `U`, which hold what they hold in `s` and
in `s'`. If all references lead to frames that exist, which `P` says, then they always do. -/
def simulation (U : FrameId → Prop) (P : Prop) (s s' : Store) : Simulation Nat where
  machine := Apart U P s s'
  frame w f f' := f = f' ∧ Within U P w f
  value w := Value.Inside (Within U P w)
  permits _ := True
  lax _ := False
  frame_mono hw h := ⟨h.1, h.2.mono hw⟩
  value_mono hw h := ⟨h.1, fun g hg => (h.2 g hg).mono hw⟩
  layer h := h.layer
  constant w v h := ⟨rfl, by simp [Value.frames_of_isConstant h]⟩
  env _ h := ⟨by rw [h.1], by simpa [Value.frames] using h.2⟩
  same hu hv := by rw [hu.1, hv.1]
  get? x hm hf := hf.1 ▸ hm.agreeOn.get? hf.2 x
  root hm hf := hf.1 ▸ hm.agreeOn.root hf.2
  frameText hm hf := by
    rw [Store.frameText, Store.frameText, ← hm.same.size_eq, ← hf.1, hm.agreeOn.textWithin hf.2]
  files hm := hm.same.files_eq
  define {w m m' f f' v v'} x hm hf hv := by
    rw [← hf.1, ← hv.1]
    exact hm.define hf.2.1 x hv.2
  newFrame {w m m' p p' b b'} hm hp hb := by
    obtain ⟨rfl, hp⟩ := hp
    obtain ⟨rfl, hbound⟩ := hb.inside
    exact ⟨w + 1, Nat.le_succ w, hm.push (Frame.forall_mem_frames hp hbound), hm.same.size_eq,
      by rw [hm.size_eq]; exact hm.fresh⟩
  newPair {w m m' a a' d d'} hm ha hd := by
    refine ⟨w, le_rfl, hm.of_same rfl rfl
      { hm.same with nextLabel_eq := congrArg (· + 1) hm.same.nextLabel_eq }, ?_, ?_⟩
    · rw [ha.1, hd.1, hm.same.nextLabel_eq]
    · rw [Value.frames, List.forall_mem_append]
      exact ⟨ha.2, hd.2⟩
  newString {w m m'} str hm := by
    refine ⟨w, le_rfl, hm.of_same rfl rfl
      { hm.same with nextLabel_eq := congrArg (· + 1) hm.same.nextLabel_eq }, ?_, ?_⟩
    · rw [hm.same.nextLabel_eq]
    · simp [Value.frames]
  newClosure {w m m' c c' formals formals' body body' xs} hm hc hx hb _ := by
    obtain ⟨rfl, hscope⟩ := hc.inside
    refine ⟨w, le_rfl, hm.of_same rfl rfl
      { hm.same with nextLabel_eq := congrArg (· + 1) hm.same.nextLabel_eq }, ?_, ?_⟩
    · rw [hx.1, hb.1, hm.same.nextLabel_eq]
    · rw [Value.frames, List.forall_mem_append, List.forall_mem_append]
      exact ⟨⟨hscope, hx.2⟩, hb.2⟩
  emit text hm := hm.of_same rfl rfl { hm.same with out_eq := congrArg (· ++ text) hm.same.out_eq }
  emitError text hm :=
    hm.of_same rfl rfl { hm.same with err_eq := congrArg (· ++ text) hm.same.err_eq }
  lax_inside _ := False.elim
  lax_file _ _ h := h.elim

instance (U : FrameId → Prop) (P : Prop) (s s' : Store) : (simulation U P s s').Nests where
  limit hm h := hm.same.depth_eq ▸ h
  limit_lax hm h := .inl (hm.same.depth_eq ▸ h)
  enter hm := hm.of_same rfl rfl { hm.same with depth_eq := congrArg (· + 1) hm.same.depth_eq }
  leave hm := hm.of_same rfl rfl { hm.same with depth_eq := congrArg (· - 1) hm.same.depth_eq }

end Isolation

/-! ## Outcomes -/

/-- The frames that the value of a run refers to. -/
def resultFrames : EStateM.Result Stop Machine Value → List FrameId
  | .ok v _ => v.frames
  | .error _ _ => []

/-- Two runs on machines that differ in isolated frames have the same outcome, and their machines
still differ only there. -/
theorem Isolation.run {U : FrameId → Prop} {P : Prop} {s s' : Store} {w : Nat} {m m' : Machine}
    (hm : Apart U P s s' w m m') {e : Value} (he : ∀ g ∈ e.frames, Within U P w g)
    {f : FrameId} (hf : Within U P w f) (fuel : Nat) :
    SameOutcome U (run fuel (.eval e f) m) (run fuel (.eval e f) m') ∧
      ∃ w', w ≤ w' ∧
        Apart U P s s' w' (finalMachine (run fuel (.eval e f) m))
          (finalMachine (run fuel (.eval e f) m')) ∧
        ∀ g ∈ resultFrames (run fuel (.eval e f) m), Within U P w' g := by
  have htask : (simulation U P s s').task w (.eval e f) (.eval e f) :=
    .eval (.inl ⟨rfl, he⟩) ⟨rfl, hf⟩
  have hrun := (simulation U P s s').run fuel w _ _ htask m m' hm
  revert hrun
  generalize Scheme.run fuel (.eval e f) m = r, Scheme.run fuel (.eval e f) m' = r'
  intro hrun
  cases hrun with
  | @ok w' v v' m₁ m₁' hw hm₁ hv =>
    obtain ⟨rfl, hv⟩ := hv
    exact ⟨.ok v hm₁.same, w', hw, hm₁, hv⟩
  | @error w' r r' m₁ m₁' hw hm₁ hr =>
    obtain rfl := Simulation.stop_eq And.left hr
    exact ⟨.error r hm₁.same, w', hw, hm₁, by simp [resultFrames]⟩
  | lax h => exact h.elim

/-! ## Unreachable frames -/

/-- The frames that exist and are not reachable from the roots. -/
def Unreachable (s : Store) (roots : List FrameId) (g : FrameId) : Prop :=
  g < s.size ∧ ¬Reachable s roots g

/-- All frames that are reachable from the roots exist. -/
def Grounded (s : Store) (roots : List FrameId) : Prop := ∀ g, Reachable s roots g → g < s.size

section Unreachable

variable {m m' : Machine} {roots : List FrameId}

theorem within_of_reachable {g : FrameId} (h : Reachable m.store roots g) :
    Isolation.Within (Unreachable m.store roots) (Grounded m.store roots) m.store.size g :=
  ⟨fun hu => hu.2 h, fun hp => hp g h⟩

/-- What is reachable refers to nothing that is not. -/
theorem SameBut.apart (h : SameBut (Unreachable m.store roots) m m') :
    Isolation.Apart (Unreachable m.store roots) (Grounded m.store roots) m.store m'.store
      m.store.size m m' where
  same := h
  size_eq := rfl
  exist hu := hu.1
  closed {g fr} hg hfr g' hg' := by
    have hlt : g < m.store.size := (Array.getElem?_eq_some_iff.mp hfr).1
    have hreach : Reachable m.store roots g := by
      by_contra hr
      exact hg ⟨hlt, hr⟩
    exact within_of_reachable (.step hreach hfr hg')
  kept _ := rfl
  kept' _ := rfl

end Unreachable

/-- Frames that are not isolated lead only to such frames. -/
theorem Isolation.Apart.within_of_reachable {U : FrameId → Prop} {P : Prop} {s s' : Store} {w : Nat}
    {m m' : Machine} (h : Apart U P s s' w m m') {roots : List FrameId}
    (hr : ∀ g ∈ roots, Within U P w g) {g : FrameId} (hg : Reachable m.store roots g) :
    Within U P w g := by
  induction hg with
  | root hg => exact hr _ hg
  | step _ hfr hg' ih => exact h.closed ih.1 hfr _ hg'

/-- Where the reachable frames are as they were, no others become reachable. -/
theorem Reachable.of_kept {s s₁ : Store} {roots : List FrameId}
    (hs : ∀ g, Reachable s roots g → s₁.frames[g]? = s.frames[g]?) {g : FrameId}
    (h : Reachable s₁ roots g) : Reachable s roots g := by
  induction h with
  | root hg => exact .root hg
  | step _ hfr hg' ih => exact .step ih (hs _ ih ▸ hfr) hg'

/-- Roots of two parties with no frame in common, all of whose frames exist. -/
structure Separate (s : Store) (roots others : List FrameId) : Prop where
  grounded : Grounded s roots
  grounded' : Grounded s others
  disjoint {g : FrameId} : Reachable s roots g → ¬Reachable s others g

theorem Separate.unreachable {s : Store} {roots others : List FrameId}
    (h : Separate s roots others) {g : FrameId} (hg : Reachable s others g) :
    Unreachable s roots g :=
  ⟨h.grounded' g hg, fun hr => h.disjoint hr hg⟩

theorem SameBut.mono {U V : FrameId → Prop} (hUV : ∀ g, U g → V g) {m m' : Machine}
    (h : SameBut U m m') : SameBut V m m' :=
  { h with frames_eq := fun hg => h.frames_eq fun hu => hg (hUV _ hu) }

theorem SameBut.refl (U : FrameId → Prop) (m : Machine) : SameBut U m m :=
  ⟨rfl, rfl, rfl, rfl, rfl, rfl, fun _ => rfl⟩

/-- An outcome that is the same but for a set is so for any other set outside of which the stores
agree. -/
theorem SameOutcome.change {U V : FrameId → Prop} {r r' : EStateM.Result Stop Machine Value}
    (h : SameOutcome U r r') (hV : ∀ g, ¬V g →
      (finalMachine r).store.frames[g]? = (finalMachine r').store.frames[g]?) :
    SameOutcome V r r' := by
  cases h with
  | ok v h => exact .ok v { h with frames_eq := fun hg => hV _ hg }
  | error s h => exact .error s { h with frames_eq := fun hg => hV _ hg }

section Evaluation

variable {e : Value} {f : FrameId} {m m' : Machine}

/-- Evaluation on machines that differ only in unreachable frames. -/
theorem SameBut.run (h : SameBut (Unreachable m.store (f :: e.frames)) m m') (fuel : Nat) :
    SameOutcome (Unreachable m.store (f :: e.frames)) (run fuel (.eval e f) m)
        (run fuel (.eval e f) m') ∧
      ∃ w, m.store.size ≤ w ∧
        Isolation.Apart (Unreachable m.store (f :: e.frames)) (Grounded m.store (f :: e.frames))
          m.store m'.store w (finalMachine (run fuel (.eval e f) m))
          (finalMachine (run fuel (.eval e f) m')) ∧
        ∀ g ∈ resultFrames (run fuel (.eval e f) m), Isolation.Within
          (Unreachable m.store (f :: e.frames)) (Grounded m.store (f :: e.frames)) w g :=
  Isolation.run h.apart (fun _ hg => within_of_reachable (.root (List.mem_cons_of_mem f hg)))
    (within_of_reachable (.root List.mem_cons_self)) fuel

theorem unreachable_kept (fuel : Nat) {g : FrameId}
    (hg : Unreachable m.store (f :: e.frames) g) :
    (finalMachine (run fuel (.eval e f) m)).store.frames[g]? = m.store.frames[g]? := by
  obtain ⟨-, w, -, hapart, -⟩ := (SameBut.refl (Unreachable m.store (f :: e.frames)) m).run fuel
  exact hapart.kept hg

variable {others : List FrameId} (hsep : Separate m.store (f :: e.frames) others)

include hsep

/-- What the frames of another party hold makes no difference. -/
theorem Separate.sameOutcome (h : SameBut (Reachable m.store others) m m') (fuel : Nat) :
    SameOutcome (Reachable m.store others) (run fuel (.eval e f) m)
      (run fuel (.eval e f) m') := by
  have hU : ∀ g, Reachable m.store others g → Unreachable m.store (f :: e.frames) g :=
    fun g hg => hsep.unreachable hg
  obtain ⟨hsame, w, -, hapart, -⟩ := (h.mono hU).run fuel
  refine hsame.change fun g hg => ?_
  by_cases hu : Unreachable m.store (f :: e.frames) g
  · rw [hapart.kept hu, hapart.kept' hu, h.frames_eq hg]
  · exact hapart.same.frames_eq hu

/-- A run leaves the parties apart: what it makes and what it gives is its own. -/
theorem Separate.run (fuel : Nat) :
    Separate (finalMachine (run fuel (.eval e f) m)).store
      (resultFrames (run fuel (.eval e f) m) ++ f :: e.frames) others := by
  obtain ⟨-, w, hw, hapart, hresult⟩ :=
    (SameBut.refl (Unreachable m.store (f :: e.frames)) m).run fuel
  have hroots : ∀ g ∈ resultFrames (Scheme.run fuel (.eval e f) m) ++ f :: e.frames,
      Isolation.Within (Unreachable m.store (f :: e.frames)) (Grounded m.store (f :: e.frames))
        w g := by
    refine List.forall_mem_append.mpr ⟨hresult, fun g hg => ?_⟩
    exact (within_of_reachable (.root hg)).mono hw
  have hback : ∀ g, Reachable (finalMachine (Scheme.run fuel (.eval e f) m)).store others g →
      Reachable m.store others g := fun g hg =>
    hg.of_kept fun g hg => hapart.kept (hsep.unreachable hg)
  refine ⟨fun g hg => ?_, fun g hg => ?_, fun hg hg' => ?_⟩
  · rw [hapart.size_eq]
    exact (hapart.within_of_reachable hroots hg).2 hsep.grounded
  · rw [hapart.size_eq]
    exact Nat.lt_of_lt_of_le (hsep.grounded' g (hback g hg)) hw
  · exact (hapart.within_of_reachable hroots hg).1 (hsep.unreachable (hback _ hg'))

end Evaluation

/-- An evaluation in a frame does not touch the frames that are not reachable from its expression
and its frame: they hold the same bindings afterwards, and other frames in their place change
neither the outcome nor the rest of the machine. Two parties that have no frame in common cannot
influence each other: neither changes or observes the other's frames, and they have no frame in
common afterwards. -/
theorem unreachable_isolated (e : Value) (f : FrameId) (m : Machine) (fuel : Nat) :
    (∀ g, Unreachable m.store (f :: e.frames) g →
      (finalMachine (run fuel (.eval e f) m)).store.frames[g]? = m.store.frames[g]?) ∧
    (∀ m', SameBut (Unreachable m.store (f :: e.frames)) m m' →
      SameOutcome (Unreachable m.store (f :: e.frames)) (run fuel (.eval e f) m)
        (run fuel (.eval e f) m')) ∧
    ∀ others, Separate m.store (f :: e.frames) others →
      (∀ g, Reachable m.store others g →
        (finalMachine (run fuel (.eval e f) m)).store.frames[g]? = m.store.frames[g]?) ∧
      (∀ m', SameBut (Reachable m.store others) m m' →
        SameOutcome (Reachable m.store others) (run fuel (.eval e f) m)
          (run fuel (.eval e f) m')) ∧
      Separate (finalMachine (run fuel (.eval e f) m)).store
        (resultFrames (run fuel (.eval e f) m) ++ f :: e.frames) others := by
  refine ⟨fun g hg => unreachable_kept fuel hg, fun m' h => (h.run fuel).1, fun others hsep => ?_⟩
  refine ⟨fun g hg => unreachable_kept fuel (hsep.unreachable hg),
    fun m' h => hsep.sameOutcome h fuel, hsep.run fuel⟩

/-- Two global frames in one store: a definition in the first leaves the second alone. -/
theorem unreachable_isolated_globals :
    let m : Machine :=
      { Machine.new [] fun _ => .absent with store := ⟨#[⟨none, []⟩, ⟨none, [("x", .int 1)]⟩]⟩ }
    let e : Value := .pair 1 (.sym "define") (.pair 2 (.sym "x") (.pair 3 (.int 5) .nil))
    Separate m.store (0 :: e.frames) [1] ∧
      (finalMachine (run 2 (.eval e 0) m)).store.frames[0]? = some ⟨none, [("x", .int 5)]⟩ ∧
      (finalMachine (run 2 (.eval e 0) m)).store.frames[1]? = some ⟨none, [("x", .int 1)]⟩ := by
  intro m e
  have hroots : ∀ roots g, Reachable m.store roots g → g ∈ roots := by
    intro roots g hg
    induction hg with
    | root hg => exact hg
    | @step g h fr _ hfr hh _ =>
      have hnone : fr.frames = [] := by
        match g, hfr with
        | 0, hfr => rw [← Option.some.inj hfr]; rfl
        | 1, hfr => rw [← Option.some.inj hfr]; rfl
      simp [hnone] at hh
  have hfirst : ∀ g, Reachable m.store (0 :: e.frames) g → g = 0 :=
    fun g hg => List.mem_singleton.mp (hroots _ g hg)
  have hsecond : ∀ g, Reachable m.store [1] g → g = 1 :=
    fun g hg => List.mem_singleton.mp (hroots _ g hg)
  have hsep : Separate m.store (0 :: e.frames) [1] :=
    ⟨fun g hg => hfirst g hg ▸ by decide, fun g hg => hsecond g hg ▸ by decide, fun hg hg' =>
      absurd ((hfirst _ hg).symm.trans (hsecond _ hg')) (by decide)⟩
  obtain ⟨-, -, hothers⟩ := unreachable_isolated e 0 m 2
  exact ⟨hsep, rfl, (hothers [1] hsep).1 1 (.root (by simp))⟩

end Scheme
