import Scheme.Proofs.Procedures

/-!
# What is seen from the frame of a call

A call of a procedure makes one frame. From it the parameters are seen with the arguments in their
places for values, and every other name as it is seen from the frame above: the frame in which the
procedure was made, or the frame of the call for a dynamic procedure. That frame can still change,
and so can all frames above it. The two are only ever compared in the same store, and the comparison
holds in every later one as long as nothing is defined in the frame of the call itself
(`Store.ChangedElsewhere.sees`).

The frame above is all that a procedure's scope decides, so two procedures with the same parameters
and body and the same frame above are called alike (`calledAlike_of_parent`).
-/

namespace Scheme

open EvalM

namespace Bindings

/-- Where no name is bound twice, every binding is seen. -/
theorem lookup_of_mem {b : Bindings} (hn : b.names.Nodup) {x : String} {v : Value}
    (h : (x, v) ∈ b) : b.lookup x = some v := by
  induction b with
  | nil => cases h
  | cons e b ih =>
    obtain ⟨hx, hn⟩ := List.nodup_cons.mp hn
    rcases List.mem_cons.mp h with rfl | h
    · exact List.lookup_cons_self
    · have hne : (x == e.1) = false := by
        rw [beq_eq_false_iff_ne]
        rintro rfl
        exact hx (List.mem_map.mpr ⟨_, h, rfl⟩)
      rw [List.lookup_cons, hne]
      exact ih hn h

end Bindings

namespace Store

/-- The second store comes from the first by definitions in frames other than `g` and by new
frames. -/
inductive ChangedElsewhere (g : FrameId) (s : Store) : Store → Prop
  | refl : ChangedElsewhere g s s
  | define {t : Store} (h : ChangedElsewhere g s t) {f : FrameId} (hf : f ≠ g) (x : String)
      (v : Value) : ChangedElsewhere g s (t.define f x v)
  | push {t : Store} (h : ChangedElsewhere g s t) (fr : Frame) : ChangedElsewhere g s (t.push fr)

/-- From the frame `g` the names have the values in their places, and all other names are seen as
they are from the frame `p`. -/
structure Sees (s : Store) (g : FrameId) (xs : List String) (vs : List Value) (p : FrameId) :
    Prop where
  own {x : String} {v : Value} : (x, v) ∈ xs.zip vs → s.get? g x = some v
  others {y : String} : y ∉ xs → s.get? g y = s.get? p y

theorem sees_of_frame {s : Store} {g p : FrameId} {xs : List String} {vs : List Value}
    (h : s.frames[g]? = some ⟨some p, xs.zip vs⟩) (hp : p < g) (hn : xs.Nodup)
    (hlen : vs.length = xs.length) : s.Sees g xs vs p := by
  have hnames : Bindings.names (xs.zip vs) = xs := List.map_fst_zip hlen.ge
  refine ⟨fun {x v} hx => ?_, fun {y} hy => ?_⟩
  · rw [get?_of_frame h hp, Bindings.lookup_of_mem (hnames.symm ▸ hn) hx, Option.some_or]
  · have hnone : List.lookup y (xs.zip vs) = none := by
      rw [← Option.not_isSome_iff_eq_none, Bindings.lookup_isSome_iff, hnames]
      exact hy
    rw [get?_of_frame h hp, hnone, Option.none_or]

namespace ChangedElsewhere

variable {g : FrameId} {s t : Store}

/-- The frame itself stays as it is. -/
theorem frames_eq (h : ChangedElsewhere g s t) (hg : g < s.size) :
    g < t.size ∧ t.frames[g]? = s.frames[g]? := by
  induction h with
  | refl => exact ⟨hg, rfl⟩
  | define _ hf x v ih =>
    rw [size_define, frames_define, if_neg hf]
    exact ih
  | push _ fr ih =>
    rw [size_push, frames_push, if_neg (Nat.ne_of_lt ih.1)]
    exact ⟨Nat.lt_succ_of_lt ih.1, ih.2⟩

theorem sees (h : ChangedElsewhere g s t) (hg : g < s.size) {p : FrameId} {xs : List String}
    {vs : List Value} (hframe : s.frames[g]? = some ⟨some p, xs.zip vs⟩) (hp : p < g)
    (hn : xs.Nodup) (hlen : vs.length = xs.length) : t.Sees g xs vs p :=
  sees_of_frame ((h.frames_eq hg).2.trans hframe) hp hn hlen

end ChangedElsewhere

end Store

/-! ## Calls -/

/-- A call of `p` from the frame `c` does what a call of `p'` from `c'` does, step by step and as a
nested application: on every machine it has the same result and leaves the same machine. -/
structure CalledAlike (p : Value) (c : FrameId) (p' : Value) (c' : FrameId) : Prop where
  step (ev : Evaluator) (args : Except Fault (List Value)) :
    applyStep ev p args c = applyStep ev p' args c'
  application (n : Nat) (args : List Value) : run n (.apply p args c) = run n (.apply p' args c')

theorem calledAlike_of_parent {scope scope' : Scope} {c c' : FrameId}
    (h : scope.parent c = scope'.parent c') (i j : Label) (formals body : Value) :
    CalledAlike (.closure i scope formals body) c (.closure j scope' formals body) c' := by
  have hstep : ∀ ev args, applyStep ev (.closure i scope formals body) args c =
      applyStep ev (.closure j scope' formals body) args c' := fun ev args => by
    rw [applyStep, applyStep, h]
  refine ⟨hstep, fun n args => ?_⟩
  cases n with
  | zero => rfl
  | succ n => rw [run_apply, run_apply, hstep]

/-- A call of a procedure with distinct parameters, from a frame of the store and with the frame
above that its scope decides. It fails if and only if the number of arguments is another one, and
then it changes nothing. Else it makes one new frame. From this the parameters are seen with the
arguments for values and all other names as they are from the frame above, and that stays so
whatever is defined in other frames. The older frames are as they were, and so is every look-up from
them.

Hence a call of a `lambda` does not depend on the frame of the call, and a `mu` is called from `c`
as a `lambda` is that was made in `c`. -/
theorem call_scoping {formals : Value} {xs : List String} (hp : ParameterList formals xs)
    {scope : Scope} {caller : FrameId} {m : Machine} (hparent : scope.parent caller < m.store.size)
    (args : List Value) :
    (args.length ≠ xs.length → callFrameOf (scope.parent caller) formals (.ok args) m =
      .error (.fault (.arityMismatch xs.length args.length)) m) ∧
    (args.length = xs.length → ∃ m', callFrameOf (scope.parent caller) formals (.ok args) m =
        .ok m.store.size m' ∧ m' = { m with store := m'.store } ∧
      m'.store.size = m.store.size + 1 ∧
      (∀ h < m.store.size, m'.store.frames[h]? = m.store.frames[h]? ∧
        ∀ y, m'.store.get? h y = m.store.get? h y) ∧
      ∀ s, m'.store.ChangedElsewhere m.store.size s →
        s.Sees m.store.size xs args (scope.parent caller)) ∧
    ∀ i j body c c',
      (∀ f, CalledAlike (.closure i (.lexical f) formals body) c
        (.closure i (.lexical f) formals body) c') ∧
      CalledAlike (.closure i .dynamic formals body) c
        (.closure j (.lexical c) formals body) c' := by
  rw [hp.callFrameOf_eq]
  refine ⟨fun hlen => if_neg hlen, fun hlen => ?_, fun i j body c c' => ?_⟩
  · have hnew : m.store.size < (m.store.push ⟨some (scope.parent caller), xs.zip args⟩).size := by
      rw [Store.size_push]
      exact Nat.lt_succ_self _
    refine ⟨_, if_pos hlen, rfl, Store.size_push _ _, fun h hh => ⟨?_, fun y => ?_⟩, fun s hs => ?_⟩
    · rw [Store.frames_push, if_neg (Nat.ne_of_lt hh)]
    · exact Store.get?_push_of_lt m.store _ hh y
    · exact hs.sees hnew (by rw [Store.frames_push, if_pos rfl]) hparent
        (parameterList_iff.mp hp).2 hlen
  · have hlambda (f : FrameId) : (Scope.lexical f).parent c = (Scope.lexical f).parent c' := rfl
    have hmu : Scope.dynamic.parent c = (Scope.lexical c).parent c' := rfl
    exact ⟨fun f => calledAlike_of_parent (hlambda f) i i formals body,
      calledAlike_of_parent hmu i j formals body⟩

/-- A `mu` is called from a frame in which the name of its parameter has another value. What is
defined there afterwards is seen from the frame of the call, but for that name. -/
theorem call_scoping_dynamic :
    let formals : Value := .pair 1 (.sym "x") .nil
    let m : Machine := { Machine.new [] (fun _ => .absent) with
      store := ⟨#[⟨none, []⟩, ⟨some 0, [("x", .int 1)]⟩]⟩ }
    ParameterList formals ["x"] ∧ Scope.dynamic.parent 1 < m.store.size ∧
    callFrameOf (Scope.dynamic.parent 1) formals (.ok []) m =
      .error (.fault (.arityMismatch 1 0)) m ∧
    ∃ m', callFrameOf (Scope.dynamic.parent 1) formals (.ok [.int 7]) m = .ok 2 m' ∧
      let s := (m'.store.define 1 "x" (.int 4)).define 1 "y" (.int 3)
      s.get? 2 "x" = some (.int 7) ∧ s.get? 2 "y" = some (.int 3) := by
  intro formals m
  have hp : ParameterList formals ["x"] := .cons 1 .nil (by simp)
  have hparent : Scope.dynamic.parent 1 < m.store.size := by decide
  obtain ⟨hfail, -⟩ := call_scoping hp hparent []
  obtain ⟨-, hcall, -⟩ := call_scoping hp hparent [.int 7]
  obtain ⟨m', hm', -, hsize, -, hsees⟩ := hcall rfl
  have hother : 1 ≠ m.store.size := by decide
  have hs := hsees _ (.define (.define .refl hother "x" (.int 4)) hother "y" (.int 3))
  refine ⟨hp, hparent, hfail (by decide), m', hm', hs.own (by simp), ?_⟩
  have hone : 1 < (m'.store.define 1 "x" (.int 4)).size := by
    rw [Store.size_define, hsize]
    decide
  refine (hs.others (by decide)).trans ?_
  rw [Store.get?_eq, Store.local?_define _ _ _ _ _ _ hone]
  rfl

end Scheme
