import Scheme.Proofs.Simulation.Basic

/-!
# Corresponding values look alike

Whatever evaluation asks of a value, corresponding values give the same answer: their kind, their
truth, whether they are lists and of which elements, their structure and their text. All of it
follows from `Simulation.layer` by induction on the value.
-/

namespace Scheme

/-! ## Values with corresponding parts -/

theorem Scope.Alike.keyword_eq {frame : FrameId → FrameId → Prop} {s s' : Scope}
    (h : s.Alike frame s') : s.keyword = s'.keyword := by
  cases h <;> rfl

section Layers

variable {permits : Builtin → Prop} {frame : FrameId → FrameId → Prop} {R : Value → Value → Prop}
  (hR : ∀ {v v' : Value}, R v v' → v.Layer permits frame R v')

include hR

/-- Corresponding values are lists of one element, or neither of them is one. -/
theorem Value.single_cases {v v' : Value} (h : R v v') :
    (∃ i i' e e', v = .pair i e .nil ∧ v' = .pair i' e' .nil ∧ R e e') ∨
    ((∀ i e, v ≠ .pair i e .nil) ∧ ∀ i e, v' ≠ .pair i e .nil) := by
  by_cases hv : ∃ i e, v = .pair i e .nil
  · obtain ⟨i, e, rfl⟩ := hv
    cases hR h with
    | pair _ j he hn =>
      cases hR hn
      exact Or.inl ⟨i, j, e, _, rfl, rfl, he⟩
  · refine Or.inr ⟨fun i e hi => hv ⟨i, e, hi⟩, ?_⟩
    rintro i e rfl
    apply hv
    cases hR h with
    | pair j _ he hn =>
      cases hR hn
      exact ⟨j, _, rfl⟩

/-- Values with corresponding parts have the same text if corresponding frames have. -/
theorem Value.writeOnto_eq_of_layer {ft ft' : FrameId → String}
    (ht : ∀ f f', frame f f' → ft f = ft' f') :
    ∀ {v v' : Value}, R v v' → ∀ (q : Bool) (place : Place) (acc : String),
      v.writeOnto ft q place acc = v'.writeOnto ft' q place acc
  | .pair i a d, v', h, q, place, acc => by
    cases hR h with
    | @pair _ _ _ a' _ d' ha hd =>
      cases place
      all_goals
        simp only [Value.writeOnto]
        rw [writeOnto_eq_of_layer ht ha, writeOnto_eq_of_layer ht hd]
  | .closure i s formals body, v', h, q, place, acc => by
    cases hR h with
    | @closure _ _ _ s' _ formals' _ body' hs hf hbody =>
      rcases single_cases hR hbody with ⟨j, j', e, e', rfl, rfl, he⟩ | ⟨hb, hb'⟩
      · simp only [Value.writeOnto]
        rw [hs.keyword_eq, writeOnto_eq_of_layer ht hf, writeOnto_eq_of_layer ht he]
      · rw [Value.writeOnto.eq_12 ft q place acc i s formals body hb,
          Value.writeOnto.eq_12 ft' q place acc _ s' formals' body' hb', hs.keyword_eq,
          writeOnto_eq_of_layer ht hf, writeOnto_eq_of_layer ht hbody]
  | .env f, v', h, q, place, acc => by
    cases hR h with
    | env hf => simp only [Value.writeOnto, ht _ _ hf]
  | .int _, v', h, q, place, acc => by cases hR h; rfl
  | .float _, v', h, q, place, acc => by cases hR h; rfl
  | .bool _, v', h, q, place, acc => by cases hR h; rfl
  | .str _ _, v', h, q, place, acc => by cases hR h; rfl
  | .sym _, v', h, q, place, acc => by cases hR h; rfl
  | .nil, v', h, q, place, acc => by cases hR h; rfl
  | .builtin _, v', h, q, place, acc => by cases hR h; rfl
  | .undefined, v', h, q, place, acc => by cases hR h; rfl

end Layers

end Scheme

namespace Scheme.Simulation

variable {W : Type} [Preorder W] {S : Simulation W} {w : W}

/-- Corresponding values count alike in a test. -/
theorem isTrue_eq {v v' : Value} (h : S.value w v v') : v.isTrue = v'.isTrue := by
  cases S.layer h <;> rfl

theorem isNil_eq {v v' : Value} (h : S.value w v v') : v.isNil = v'.isNil := by
  cases S.layer h <;> rfl

/-- A value that corresponds to a proper list is one. -/
theorem isProper_eq {v v' : Value} (h : S.value w v v') : v.isProper = v'.isProper := by
  induction v generalizing v' with
  | pair i a d _ ih =>
    cases S.layer h with
    | pair _ _ _ hd =>
      simp only [Value.isProper]
      exact ih hd
  | _ => cases S.layer h; rfl

theorem sym_eq {x : String} {v' : Value} (h : S.value w (.sym x) v') : v' = .sym x := by
  cases S.layer h
  rfl

/-! ## Lists -/

/-- Elements that correspond in front of ends that correspond. -/
theorem spine {v v' : Value} (h : S.value w v v') :
    List.Forall₂ (S.value w) v.spine.1 v'.spine.1 ∧ S.value w v.spine.2 v'.spine.2 := by
  induction v generalizing v' with
  | pair i a d _ ih =>
    cases S.layer h with
    | pair _ _ ha hd =>
      rw [Value.spine_pair, Value.spine_pair]
      exact ⟨.cons ha (ih hd).1, (ih hd).2⟩
  | _ => cases S.layer h; exact ⟨.nil, h⟩

/-- Corresponding values are lists of corresponding elements, or neither of them is a list. -/
theorem spine_cases {v v' : Value} (h : S.value w v v') :
    (∃ xs xs', v.spine = (xs, .nil) ∧ v'.spine = (xs', .nil) ∧
      List.Forall₂ (S.value w) xs xs') ∨
    ((∀ xs, v.spine ≠ (xs, .nil)) ∧ ∀ xs, v'.spine ≠ (xs, .nil)) := by
  obtain ⟨hx, he⟩ := spine h
  by_cases hn : v.spine.2 = .nil
  · rw [hn] at he
    have hn' : v'.spine.2 = .nil := by
      generalize v'.spine.2 = e at he
      cases S.layer he
      rfl
    exact Or.inl ⟨_, _, Prod.ext rfl hn, Prod.ext rfl hn', hx⟩
  · refine Or.inr ⟨fun xs hs => hn (by rw [hs]), fun xs hs => hn ?_⟩
    rw [hs] at he
    generalize v.spine.2 = e at he
    cases S.layer he
    rfl

/-- Corresponding values have corresponding elements, or are refused for corresponding reasons. -/
theorem items {v v' : Value} (h : S.value w v v') :
    S.Checked w (List.Forall₂ (S.value w)) v.items v'.items := by
  unfold Value.items
  rcases spine_cases h with ⟨xs, xs', hs, hs', hx⟩ | ⟨hn, hn'⟩
  · rw [hs, hs']
    exact .ok hx
  · split
    · next xs hs => exact absurd hs (hn xs)
    · exact .error (.malformedList (expr_of_value h))

/-- What is met on the way along corresponding chains. -/
theorem walk {v v' : Value} (h : S.value w v v') :
    List.Forall₂ (S.value w) v.walk.1 v'.walk.1 ∧
      Option.Rel (S.fault w) v.walk.2 v'.walk.2 := by
  have hx := (spine h).1
  unfold Value.walk
  rcases spine_cases h with ⟨xs, xs', hs, hs', hx⟩ | ⟨hn, hn'⟩
  · rw [hs, hs']
    exact ⟨hx, .none⟩
  · split
    · next xs hs => exact absurd hs (hn xs)
    · next xs _ _ hs =>
      split
      · next xs hs => exact absurd hs (hn' xs)
      · next xs' _ _ hs' =>
        rw [hs, hs'] at hx
        exact ⟨hx, .some (.malformedList (expr_of_value h))⟩

/-- The operands of a form pass the same checks on both sides. -/
theorem operands (k : String) {v v' : Value} (least : Nat) (most : Option Nat)
    (h : S.value w v v') :
    S.Checked w (List.Forall₂ (S.value w)) (Form.operands k v least most)
      (Form.operands k v' least most) := by
  unfold Form.operands
  rcases spine_cases h with ⟨xs, xs', hs, hs', hx⟩ | ⟨hn, hn'⟩
  · rw [hs, hs']
    simp only [← hx.length_eq]
    split
    · exact .error (.tooFewOperands k (expr_of_value h))
    · split
      · exact .error (.tooManyOperands k (expr_of_value h))
      · exact .ok hx
  · split
    · next xs hs => exact absurd hs (hn xs)
    · exact .error (.badForm k (expr_of_value h))

/-- Corresponding lists name the same parameters, or are refused for corresponding reasons. -/
theorem distinctNames {formals formals' : List Value}
    (h : List.Forall₂ (S.value w) formals formals') :
    ∀ {vs vs' : List Value} (seen : List String), List.Forall₂ (S.value w) vs vs' →
      S.Checked w Eq (Form.distinctNames formals seen vs) (Form.distinctNames formals' seen vs')
  | _, _, seen, .nil => .ok rfl
  | _, _, seen, .cons hv hs => by
    have hb : S.fault w (.badParameters formals) (.badParameters formals') :=
      .badParameters (h.imp fun _ _ => expr_of_value)
    cases S.layer hv with
    | sym x =>
      simp only [Form.distinctNames]
      split
      · exact .error (.duplicateParameter x (h.imp fun _ _ => expr_of_value))
      · exact distinctNames h (x :: seen) hs
    | _ => exact .error hb

theorem parameters {v v' : Value} (h : S.value w v v') :
    S.Checked w Eq (Form.parameters v) (Form.parameters v') := by
  unfold Form.parameters
  rcases spine_cases h with ⟨xs, xs', hs, hs', hx⟩ | ⟨hn, hn'⟩
  · rw [hs, hs']
    exact distinctNames hx [] hx
  · split
    · next xs hs => exact absurd hs (hn xs)
    · exact .error (.badFormals (expr_of_value h))

/-! ## Structure and text -/

/-- Equality by structure cannot tell corresponding values apart. -/
theorem equal_eq {u u' v v' : Value} (hu : S.value w u u') (hv : S.value w v v') :
    u.equal v = u'.equal v' := by
  induction u generalizing u' v v' with
  | pair i a d iha ihd =>
    have hs := S.same hu hv
    cases S.layer hu with
    | pair _ _ ha hd =>
      cases S.layer hv with
      | pair _ _ hb he =>
        simp only [Value.equal]
        rw [iha ha hb, ihd hd he]
      | _ => simpa only [Value.equal] using hs
  | str i s =>
    have hs := S.same hu hv
    cases S.layer hu
    cases S.layer hv with
    | str => simp only [Value.equal]
    | _ => simpa only [Value.equal] using hs
  | _ =>
    have hs := S.same hu hv
    cases S.layer hu
    simpa only [Value.equal] using hs

/-- Frames that correspond have the same text. -/
def SameFrameTexts (S : Simulation W) (w : W) (ft ft' : FrameId → String) : Prop :=
  ∀ f f', S.frame w f f' → ft f = ft' f'

theorem sameFrameTexts {m m' : Machine} (hm : S.machine w m m') :
    S.SameFrameTexts w m.store.frameText m'.store.frameText :=
  fun _ _ hf => S.frameText hm hf

/-- Corresponding values are written by the same text. -/
theorem writeOnto_eq {ft ft' : FrameId → String} (ht : S.SameFrameTexts w ft ft') {v v' : Value}
    (h : S.value w v v') (q : Bool) (place : Place) (acc : String) :
    v.writeOnto ft q place acc = v'.writeOnto ft' q place acc :=
  Value.writeOnto_eq_of_layer S.layer ht h q place acc

/-- Corresponding expressions are written by the same text. -/
theorem writeOnto_expr_eq {ft ft' : FrameId → String} (ht : S.SameFrameTexts w ft ft')
    {e e' : Value} (h : S.expr w e e') (q : Bool) (place : Place) (acc : String) :
    e.writeOnto ft q place acc = e'.writeOnto ft' q place acc := by
  rcases h with h | ⟨b, b', rfl, rfl, hb⟩
  · exact writeOnto_eq ht h q place acc
  · simp only [Value.writeOnto]
    rw [writeOnto_eq ht hb]

theorem writtenList_eq {ft ft' : FrameId → String} (ht : S.SameFrameTexts w ft ft')
    {vs vs' : List Value} (h : List.Forall₂ (S.expr w) vs vs') :
    Value.writtenList ft vs = Value.writtenList ft' vs' := by
  cases h with
  | nil => rfl
  | cons hv hs =>
    simp only [Value.writtenList]
    rw [writeOnto_expr_eq ht hv]
    congr 1
    generalize Value.writeOnto ft' true .alone "(" _ = acc
    induction hs generalizing acc with
    | nil => rfl
    | cons hv _ ih =>
      simp only [List.foldl_cons]
      rw [writeOnto_expr_eq ht hv, ih]

/-- The message of a fault that names no value does not depend on the texts of frames. -/
theorem message_of_isPlain {e : Fault} (h : e.isPlain = true) (ft ft' : FrameId → String) :
    e.message ft = e.message ft' := by
  cases e <;> first | rfl | cases h

/-- Corresponding faults are worded in the same way. -/
theorem message_eq {ft ft' : FrameId → String} (ht : S.SameFrameTexts w ft ft') {e e' : Fault}
    (h : S.fault w e e') : e.message ft = e'.message ft' := by
  have hw : ∀ v v', S.expr w v v' → v.written ft = v'.written ft' :=
    fun v v' hv => writeOnto_expr_eq ht hv true .alone ""
  have hk : ∀ k v v', S.expr w v v' → Value.writtenForm ft k v = Value.writtenForm ft' k v' :=
    fun k v v' hv => writeOnto_expr_eq ht hv true .rest ("(" ++ k)
  induction h with
  | plain hp => exact message_of_isPlain hp ft ft'
  | badForm k hv => exact congrArg _ (hk k _ _ hv)
  | tooFewOperands k hv => exact congrArg _ (hk k _ _ hv)
  | tooManyOperands k hv => exact congrArg _ (hk k _ _ hv)
  | badParameters hs => exact congrArg _ (writtenList_eq ht hs)
  | duplicateParameter x hs => exact congrArg (_ ++ · ++ _ ++ x ++ _) (writtenList_eq ht hs)
  | inside name _ ih => exact congrArg (Fault.under name) ih
  | _ hv => exact congrArg _ (hw _ _ hv)

end Scheme.Simulation
