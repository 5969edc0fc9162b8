import Scheme.Proofs.Reading.Bounded
import Scheme.Proofs.Values

/-!
# The texts of values

The text of a frame shows what is bound in it, so it changes with every definition, and it has no
end where a frame comes to hold itself. The text of any other value is made of the texts of its
parts. A value without frames is therefore written by recursion on the value alone, the texts of
frames left out (`Value.FrameFree.sameTexts`).

Program texts never get hold of a frame: `environments_never_leak`.
-/

namespace Scheme

namespace Value

/-- No part of the value is a frame. -/
def FrameFree (v : Value) : Prop := v.Throughout fun u => ∀ f, u ≠ .env f

theorem Sound.frameFree {v : Value} (h : v.Sound) : v.FrameFree := by
  refine Throughout.imp ?_ h
  rintro u hu f rfl
  exact hu

/-- A text depends only on the texts of the frames in the value. -/
theorem writeOnto_congr {t t' : FrameId → String} {v : Value}
    (hv : v.Throughout fun u => ∀ f, u = .env f → t f = t' f) (quoting : Bool) (place : Place)
    (acc : String) : v.writeOnto t quoting place acc = v.writeOnto t' quoting place acc := by
  fun_induction writeOnto t quoting place acc v with
  | case8 quoting place acc i a d opened iha ihd =>
    obtain ⟨-, ha, hd⟩ := throughout_pair.mp hv
    rw [ihd hd, iha ha]
    rfl
  | case10 quoting place acc i s formals j e opened named ihf ihe =>
    obtain ⟨-, hf, hb⟩ := throughout_closure.mp hv
    rw [ihe (throughout_pair.mp hb).2.1, show named = _ from ihf hf, writeOnto]
  | case11 quoting place acc i s formals body hsingle opened named ihf ihb =>
    obtain ⟨-, hf, hb⟩ := throughout_closure.mp hv
    rw [ihb hb, show named = _ from ihf hf, writeOnto]
    exact hsingle
  | case12 quoting place acc f => rw [writeOnto, hv.self f rfl]
  | _ => simp only [writeOnto]

theorem FrameFree.writeOnto_eq {v : Value} (hv : v.FrameFree) (t t' : FrameId → String)
    (quoting : Bool) (place : Place) (acc : String) :
    v.writeOnto t quoting place acc = v.writeOnto t' quoting place acc :=
  writeOnto_congr (Throughout.imp (fun _ hu f h => absurd h (hu f)) hv) quoting place acc

/-- The value has the same texts for these texts of frames. -/
def SameTexts (t t' : FrameId → String) (v : Value) : Prop :=
  v.written t = v.written t' ∧ v.displayed t = v.displayed t'

/-- No text of a frame is asked for. -/
theorem FrameFree.sameTexts {v : Value} (hv : v.FrameFree) (t t' : FrameId → String) :
    v.SameTexts t t' :=
  ⟨hv.writeOnto_eq t t' true .alone "", hv.writeOnto_eq t t' false .alone ""⟩

end Value

/-- If a built-in procedure is about to be called that does not ask for the frame of its call, then
there is no frame in what it is given. -/
def Event.Conceals (e : Event) (_ : Machine) : Prop :=
  ∀ b args f, e = .call (.builtin b) args f → b.wantsFrame = false →
    ∀ v ∈ b.arguments args f, v.FrameFree

theorem Event.conceals_of_lawful {e : Event} {k : Machine}
    (h : Session.Everything Value.Lawful e k) : e.Conceals k := by
  rintro b args f rfl hb v hv
  rw [Builtin.arguments, hb] at hv
  exact Value.Sound.frameFree (h v (.inl (List.mem_cons_of_mem _ hv)))

open Session in
/-- No value that a session of program texts makes or handles is a frame or has a frame in it, and
no procedure that does not ask for it is given one. So the texts of what a session makes are found
without the text of any frame, and they are the same at every later point of the session. -/
theorem environments_never_leak (files : String → FileEntry) :
    Everywhere (fun v => ∀ f, v ≠ .env f) (Session.new files) ∧
    (∀ m files' (r : Request), Runs (Session.new files) m → r.values = [] →
      r.EachEvent Event.Conceals { m with files := files' }) ∧
    ∀ m v, Produces (Session.new files) m v →
      (∀ t t', v.SameTexts t t') ∧
      ∀ m', Runs m m' → v.SameTexts m.store.frameText m'.store.frameText := by
  refine ⟨everywhere_of_sound (fun v hv => hv.frameFree.self) files, ?_, ?_⟩
  · intro m files' r hm hr
    exact Request.events_sound (hm.sound (new_sound files)) hr files' Event.conceals_of_lawful
  · intro m v hv
    have hfree := (hv.sound (new_sound files)).frameFree
    exact ⟨hfree.sameTexts, fun m' _ => hfree.sameTexts _ _⟩

open Session in
/-- A list of a procedure and of what a call of it has found in its frame. -/
theorem environments_never_leak_evaluation :
    let files : String → FileEntry := fun _ => .absent
    let m := finalMachine (Request.run (.text "(define (f y) (eval 'y))") (Session.new files))
    let r : Request := .text "(list f (f eval))"
    (Runs (Session.new files) m ∧ r.values = []) ∧
    ∃ v ∈ answer? (r.run m), (∀ f, v ≠ .env f) ∧
      v.written m.store.frameText = "((lambda (y) (eval (quote y))) #[eval])" ∧
      ∀ m', Runs (finalMachine (r.run m)) m' →
        v.SameTexts (finalMachine (r.run m)).store.frameText m'.store.frameText := by
  intro files m r
  have hm : Runs (Session.new files) m := .step .refl files _ rfl
  have htext : (answer? (r.run m)).map (·.written m.store.frameText) =
      some "((lambda (y) (eval (quote y))) #[eval])" := by
    simp (disch := decide) only [m, r, Request.run, evalText_eq_evalAll 30]
    decide +kernel
  obtain ⟨v, hv, hwritten⟩ := Option.map_eq_some_iff.mp htext
  obtain ⟨hnone, -, hkept⟩ := environments_never_leak files
  have hmade : Produces (Session.new files) (finalMachine (r.run m)) v :=
    .answer hm m.files r rfl hv
  exact ⟨⟨hm, rfl⟩, v, hv, hnone.produced hmade, hwritten, (hkept _ v hmade).2⟩

end Scheme
