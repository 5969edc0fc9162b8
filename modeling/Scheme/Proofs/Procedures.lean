import Mathlib.Data.List.Nodup
import Scheme.Proofs.Reading.Bounded
import Scheme.Proofs.Rules
import Scheme.Proofs.Values

/-!
# Procedures and their parameters

The check of parameters accepts the lists of distinct symbols and nothing else
(`Form.parameters_eq_ok_iff`). A call binds the parameters without checking them again, and for
such a list it can fail in one way only: the number of arguments is another one
(`ParameterList.callFrameOf_eq`).

Every procedure of a session of program texts has passed the check, wherever it is kept, so this
holds of each call: `procedures_well_formed`.
-/

namespace Scheme

open EvalM

/-! ## Lists of distinct symbols -/

/-- A list of distinct symbols, with their names in order. -/
inductive ParameterList : Value → List String → Prop
  | nil : ParameterList .nil []
  | cons (i : Label) {x : String} {rest : Value} {xs : List String} (h : ParameterList rest xs)
      (hx : x ∉ xs) : ParameterList (.pair i (.sym x) rest) (x :: xs)

/-- A parameter list is a list of different symbols. -/
theorem parameterList_iff {v : Value} {xs : List String} :
    ParameterList v xs ↔ v.spine = (xs.map .sym, .nil) ∧ xs.Nodup := by
  constructor
  · intro h
    induction h with
    | nil => exact ⟨rfl, List.nodup_nil⟩
    | cons i _ hx ih => exact ⟨by rw [Value.spine_pair, ih.1]; rfl, List.nodup_cons.mpr ⟨hx, ih.2⟩⟩
  · rintro ⟨hs, hn⟩
    induction xs generalizing v with
    | nil =>
      obtain rfl := Value.eq_nil_of_spine hs
      exact .nil
    | cons x xs ih =>
      obtain ⟨hx, hn⟩ := List.nodup_cons.mp hn
      cases v with
      | pair i a d =>
        rw [Value.spine_pair, Prod.mk.injEq, List.map_cons, List.cons.injEq] at hs
        obtain ⟨⟨rfl, hd⟩, hend⟩ := hs
        exact .cons i (ih (Prod.ext hd hend) hn) hx
      | _ => simp [Value.spine, Value.spineOnto] at hs

namespace Form

/-- The names behind those that were seen, all of them distinct. -/
theorem distinctNames_eq_ok_iff {formals rest : List Value} {seen ys : List String}
    (hn : seen.Nodup) : distinctNames formals seen rest = .ok ys ↔
      ∃ xs, rest = xs.map .sym ∧ ys = seen.reverse ++ xs ∧ ys.Nodup := by
  fun_induction distinctNames formals seen rest with
  | case1 seen =>
    constructor
    · intro h
      obtain rfl := Except.ok.inj h
      exact ⟨[], rfl, by simp, List.nodup_reverse.mpr hn⟩
    · rintro ⟨xs, hxs, rfl, -⟩
      obtain rfl := List.map_eq_nil_iff.mp hxs.symm
      simp
  | case2 seen x rest hx =>
    refine iff_of_false (by simp) ?_
    rintro ⟨xs, hxs, rfl, hnodup⟩
    obtain ⟨y, xs, rfl, hy, -⟩ := List.map_eq_cons_iff.mp hxs.symm
    obtain rfl := Value.sym.inj hy
    exact (List.nodup_append.mp hnodup).2.2 y (List.mem_reverse.mpr hx) y (by simp) rfl
  | case3 seen x rest hx ih =>
    rw [ih (List.nodup_cons.mpr ⟨hx, hn⟩)]
    constructor
    · rintro ⟨xs, rfl, rfl, hnodup⟩
      exact ⟨x :: xs, rfl, by simp, hnodup⟩
    · rintro ⟨xs, hxs, rfl, hnodup⟩
      obtain ⟨y, xs, rfl, hy, hrest⟩ := List.map_eq_cons_iff.mp hxs.symm
      obtain rfl := Value.sym.inj hy
      exact ⟨xs, hrest.symm, by simp, hnodup⟩
  | case4 seen v rest hv =>
    refine iff_of_false (by simp) ?_
    rintro ⟨xs, hxs, -⟩
    obtain ⟨y, xs, rfl, hy, -⟩ := List.map_eq_cons_iff.mp hxs.symm
    exact hv y hy.symm

/-- The check of parameters accepts exactly the lists of distinct symbols. -/
theorem parameters_eq_ok_iff {formals : Value} {xs : List String} :
    parameters formals = .ok xs ↔ ParameterList formals xs := by
  rw [parameterList_iff, parameters]
  split
  · next vs hs =>
    rw [names, distinctNames_eq_ok_iff List.nodup_nil, hs]
    simp
  · next hs =>
    refine iff_of_false (by simp) ?_
    rintro ⟨hxs, -⟩
    exact hs _ hxs

end Form

/-! ## Calls -/

namespace Bindings

theorem put_of_notMem {x : String} {v : Value} {b : Bindings} (h : x ∉ b.names) :
    b.put x v = b ++ [(x, v)] := by
  induction b with
  | nil => rfl
  | cons e b ih =>
    rw [names, List.map_cons, List.mem_cons, not_or] at h
    rw [put, if_neg (Ne.symm h.1), ih h.2]
    rfl

/-- Names that are all different are put in their order behind those that are bound. -/
theorem putAll_of_nodup {b new : Bindings} (h : (b ++ new).names.Nodup) :
    b.putAll new = b ++ new := by
  induction new generalizing b with
  | nil => exact (List.append_nil b).symm
  | cons e new ih =>
    have hb : e.1 ∉ b.names := by
      rw [names, List.map_append, List.nodup_append] at h
      exact fun he => h.2.2 e.1 he e.1 (by simp) rfl
    change (b.put e.1 e.2).putAll new = _
    rw [put_of_notMem hb, ih (by simpa using h)]
    simp

end Bindings

/-- A new frame that binds each name to the argument in its place if there are as many arguments,
and else only the fault. -/
def frameFor (xs : List String) (args : List Value) (parent : FrameId) : EvalM FrameId := fun k =>
  if args.length = xs.length then
    .ok k.store.size { k with store := k.store.push ⟨some parent, xs.zip args⟩ }
  else .error (.fault (.arityMismatch xs.length args.length)) k

/-- With a parameter list, nothing but the number of arguments decides whether a call gets its
frame. -/
theorem ParameterList.callFrameOf_eq {formals : Value} {xs : List String}
    (h : ParameterList formals xs) (parent : FrameId) (args : List Value) :
    callFrameOf parent formals (.ok args) = frameFor xs args parent := by
  funext k
  obtain ⟨hs, hn⟩ := parameterList_iff.mp h
  rw [frameFor]
  split
  · next hlen =>
    have hnames : Bindings.putAll [] (xs.zip args) = xs.zip args := by
      refine Bindings.putAll_of_nodup ?_
      rwa [List.nil_append, Bindings.names, List.map_fst_zip hlen.ge]
    rw [Scheme.callFrameOf_eq hs hlen.symm parent k, hnames]
  · next hlen =>
    simp only [callFrameOf, Value.items, hs, check, pure_bind, callFrame, List.length_map,
      if_pos (Ne.symm hlen)]
    rfl

/-- Enters a procedure: its body is left to be evaluated in a frame for the arguments. -/
def enter (scope : Scope) (xs : List String) (body : Value) (args : List Value) (f : FrameId) :
    EvalM Step := do
  return .next body.sequence (← frameFor xs args (scope.parent f))

theorem ParameterList.applyStep_eq {formals : Value} {xs : List String}
    (h : ParameterList formals xs) (ev : Evaluator) (i : Label) (s : Scope) (body : Value)
    (args : List Value) (f : FrameId) :
    applyStep ev (.closure i s formals body) (.ok args) f = enter s xs body args f := by
  rw [applyStep, h.callFrameOf_eq, enter]

/-- The two ways to a call of `p`, an expression and a nested application, both go on with what
`entry` does on the arguments and the frame of the call. -/
structure EnteredBy (entry : List Value → FrameId → EvalM Step) (p : Value) : Prop where
  evaluation {ev : Evaluator} {i : Label} {head operands : Value} {args : List Value} {f : FrameId}
    {k k₁ k₂ : Machine} (hcall : (operands.isProper && (Keyword.ofValue? head).isNone) = true)
    (hp : ev (.eval head f) k = .ok p k₁) (ha : evalOperands ev operands f k₁ = .ok args k₂) :
    evalStep ev (.pair i head operands) f k = entry args f k₂
  application (n : Nat) (args : List Value) (f : FrameId) :
    run (n + 1) (.apply p args f) = entry args f >>= Step.settle fun e g => run n (.eval e g)

theorem ParameterList.enteredBy {formals : Value} {xs : List String} (h : ParameterList formals xs)
    (i : Label) (s : Scope) (body : Value) :
    EnteredBy (enter s xs body) (.closure i s formals body) where
  evaluation {ev j _ _ args f k _ _} hcall hp ha := by
    rw [evalStep_of_call hcall, bind_ok hp, bind_ok ha, h.applyStep_eq]
  application n args f := by
    rw [run_apply, h.applyStep_eq]

/-! ## Sessions -/

/-- A procedure written in the language has a list of distinct symbols as its parameters. Their
names are all that matters for the frame of a call, and every call goes through such a frame. -/
def Value.WellMade : Value → Prop
  | closure i s formals body => ∃ xs, ParameterList formals xs ∧
      (∀ parent args, callFrameOf parent formals (.ok args) = frameFor xs args parent) ∧
      EnteredBy (enter s xs body) (closure i s formals body)
  | _ => True

/-- In a sound value every procedure is well made. -/
theorem Value.Sound.wellMade {v : Value} (h : v.Sound) : v.WellMade := by
  cases v with
  | closure i s formals body =>
    obtain ⟨xs, hxs⟩ := h.self
    have hp := Form.parameters_eq_ok_iff.mp hxs
    exact ⟨xs, hp, hp.callFrameOf_eq, hp.enteredBy i s body⟩
  | _ => trivial

/-- The check of parameters accepts the lists of distinct symbols and no other value. Whatever
procedure a session of program texts makes or handles, its parameters are such a list, and a call
of it fails before its body is run if and only if the number of arguments is another one. -/
theorem procedures_well_formed (files : String → FileEntry) :
    (∀ formals xs, Form.parameters formals = .ok xs ↔ ParameterList formals xs) ∧
    Session.Everywhere Value.WellMade (Session.new files) :=
  ⟨fun _ _ => Form.parameters_eq_ok_iff,
    Session.everywhere_of_sound (fun _ hv => hv.wellMade) files⟩

open Session in
/-- A procedure that is kept in a list is applied to too few arguments, and no frame is made. -/
theorem procedures_well_formed_in_list :
    let files : String → FileEntry := fun _ => .absent
    let m := finalMachine (Request.run (.text "(define p (list (mu (x y) x)))") (Session.new files))
    Runs (Session.new files) m ∧
    (∃ v, m.store.Binds v ∧ v.written m.store.frameText = "((mu (x y) x))" ∧
      v.Throughout Value.WellMade) ∧
    (match Request.run (.text "(apply (car p) '(1))") m with
      | .error (.fault e) k => some (e.message k.store.frameText, k.store.size)
      | _ => none) = some ("apply: arity mismatch: expected 2 arguments, got 1", 1) := by
  intro files m
  have hm : Runs (Session.new files) m := .step .refl files _ rfl
  have hbound : (m.store.local? Machine.globalFrame "p").map (·.written m.store.frameText) =
      some "((mu (x y) x))" := by
    simp (disch := decide) only [m, Request.run, evalText_eq_evalAll 30]
    decide +kernel
  obtain ⟨v, hv, hwritten⟩ := Option.map_eq_some_iff.mp hbound
  have hv := Store.binds_of_local? hv
  have hmade : v.Throughout Value.WellMade := fun u hu =>
    (procedures_well_formed files).2.produced (.part (.bound hm hv) hu)
  refine ⟨hm, ⟨v, hv, hwritten, hmade⟩, ?_⟩
  simp (disch := decide) only [m, Request.run, evalText_eq_evalAll 30]
  decide +kernel

end Scheme
