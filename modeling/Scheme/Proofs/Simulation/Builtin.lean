import Scheme.Proofs.Simulation.Value

/-!
# Built-in procedures on corresponding arguments

A built-in procedure that evaluates nothing answers corresponding arguments alike: by
corresponding values, or by corresponding faults.
-/

namespace Scheme.Simulation

variable {W : Type} [Preorder W] {S : Simulation W} {w : W}

/-! ## Arguments -/

section Arguments

variable {args args' : List Value} (h : List.Forall₂ (S.value w) args args')

include h

theorem one : S.Checked w (S.value w) (Arguments.one args) (Arguments.one args') := by
  have hf : S.fault w (.wrongCount 1 args.length) (.wrongCount 1 args'.length) := by
    rw [h.length_eq]
    exact fault_plain rfl
  rcases h with _ | ⟨hv, _ | ⟨_, _⟩⟩
  · exact .error hf
  · exact .ok hv
  · exact .error hf

theorem two : S.Checked w (fun p q => S.value w p.1 q.1 ∧ S.value w p.2 q.2)
    (Arguments.two args) (Arguments.two args') := by
  have hf : S.fault w (.wrongCount 2 args.length) (.wrongCount 2 args'.length) := by
    rw [h.length_eq]
    exact fault_plain rfl
  rcases h with _ | ⟨hu, _ | ⟨hv, _ | ⟨_, _⟩⟩⟩
  · exact .error hf
  · exact .error hf
  · exact .ok ⟨hu, hv⟩
  · exact .error hf

theorem none : S.Checked w Eq (Arguments.none args) (Arguments.none args') := by
  have hf : S.fault w (.wrongCount 0 args.length) (.wrongCount 0 args'.length) := by
    rw [h.length_eq]
    exact fault_plain rfl
  rcases h with _ | ⟨_, _⟩
  · exact .ok rfl
  · exact .error hf

end Arguments

section Argument

variable {v v' : Value} (h : S.value w v v')

include h

/-- Corresponding values stand for the same double, or neither is a number. -/
theorem number : S.Checked w Eq (Arguments.number v) (Arguments.number v') := by
  have hf : S.fault w (.notNumber v) (.notNumber v') := .notNumber (expr_of_value h)
  cases S.layer h with
  | int | float => exact .ok rfl
  | _ => exact .error hf

theorem numeric : S.Checked w (S.value w) (Arguments.numeric v) (Arguments.numeric v') := by
  have hf : S.fault w (.notNumber v) (.notNumber v') := .notNumber (expr_of_value h)
  cases S.layer h with
  | int | float => exact .ok h
  | _ => exact .error hf

/-- Corresponding values are the same integer, or neither is one. -/
theorem integer : S.Checked w Eq (Arguments.integer v) (Arguments.integer v') := by
  have hf : S.fault w (.notInteger v) (.notInteger v') := .notInteger (expr_of_value h)
  cases S.layer h with
  | int => exact .ok rfl
  | _ => exact .error hf

/-- Corresponding values are lists of corresponding elements, or neither is a list. -/
theorem list : S.Checked w (List.Forall₂ (S.value w)) (Arguments.list v) (Arguments.list v') := by
  unfold Arguments.list
  rcases spine_cases h with ⟨xs, xs', hs, hs', hx⟩ | ⟨hn, hn'⟩
  · rw [hs, hs']
    exact .ok hx
  · split
    · next xs hs => exact absurd hs (hn xs)
    · exact .error (.notList (expr_of_value h))

/-- The test for zero comes out alike. -/
theorem isZero : S.Checked w Eq (Number.isZero v) (Number.isZero v') := by
  have hf : S.fault w (.notNumber v) (.notNumber v') := .notNumber (expr_of_value h)
  cases S.layer h with
  | int | float => exact .ok rfl
  | _ => exact .error hf

theorem magnitude : S.Checked w (S.value w) (Number.magnitude v) (Number.magnitude v') := by
  have hn := number h
  cases S.layer h with
  | int => exact .ok (S.constant w rfl)
  | _ => exact hn.bind fun _ _ hx => .ok (hx ▸ S.constant w rfl)

end Argument

/-! ## Numbers -/

section Numbers

variable {a a' b b' : Value} (ha : S.value w a a') (hb : S.value w b b')

include ha hb

/-- An operation on the two numbers as doubles. -/
theorem onFloats {g : Float → Float → Except Fault Value}
    (hg : ∀ x y, S.Checked w (S.value w) (g x y) (g x y)) :
    S.Checked w (S.value w) (do g (← Arguments.number a) (← Arguments.number b))
      (do g (← Arguments.number a') (← Arguments.number b')) :=
  (number ha).bind fun x _ hx => (number hb).bind fun y _ hy => hx ▸ hy ▸ hg x y

/-- An operation on corresponding numbers has corresponding results, of either kind. -/
theorem combine (onInts : Int → Int → Int) (onFloats : Float → Float → Float) :
    S.Checked w (S.value w) (Number.combine onInts onFloats a b)
      (Number.combine onInts onFloats a' b') := by
  have hx := Simulation.onFloats ha hb (g := fun x y => .ok (.float (onFloats x y)))
    fun _ _ => .ok (S.constant w rfl)
  cases S.layer ha with
  | int x =>
    cases S.layer hb with
    | int y => exact .ok (S.constant w rfl)
    | _ => exact hx
  | _ => exact hx

/-- Corresponding numbers have corresponding quotients, or the divisor is zero on both sides. -/
theorem divide : S.Checked w (S.value w) (Number.divide a b) (Number.divide a' b') := by
  refine (isZero hb).bind fun c _ hc => hc ▸ ?_
  have hx := Simulation.onFloats ha hb (g := fun x y => .ok (.float (x / y)))
    fun _ _ => .ok (S.constant w rfl)
  cases c with
  | true => exact .error (fault_plain rfl)
  | false =>
    cases S.layer ha with
    | int x =>
      cases S.layer hb with
      | int y =>
        exact Checked.ite (p := x.tmod y = 0) (.ok (S.constant w (v := .int (x.tdiv y)) rfl))
          (.ok (S.constant w (v := .float (Double.ofInt x / Double.ofInt y)) rfl))
      | _ => exact hx
    | _ => exact hx

theorem expt : S.Checked w (S.value w) (Number.expt a b) (Number.expt a' b') := by
  have hx := Simulation.onFloats ha hb (g := fun x y => .ok (.float (Float.pow x y)))
    fun _ _ => .ok (S.constant w rfl)
  cases S.layer ha with
  | int x =>
    cases S.layer hb with
    | int y =>
      exact Checked.ite (p := 0 ≤ y ∧ y < Number.exponentBound) (.ok (S.constant w rfl))
        (.ok (S.constant w rfl))
    | _ => exact hx
  | _ => exact hx

/-- Corresponding numbers are in the same order. -/
theorem compare : S.Checked w Eq (Number.compare a b) (Number.compare a' b') := by
  have hx : S.Checked w Eq
      (do Number.compareFloats (← Arguments.number a) (← Arguments.number b))
      (do Number.compareFloats (← Arguments.number a') (← Arguments.number b')) := by
    refine (number ha).bind fun x _ hx => (number hb).bind fun y _ hy => hx ▸ hy ▸ ?_
    unfold Number.compareFloats
    split_ifs
    · exact .ok rfl
    · exact .ok rfl
    · exact .ok rfl
    · exact .error (fault_plain rfl)
  cases S.layer ha with
  | int x =>
    cases S.layer hb with
    | int y => exact .ok rfl
    | _ => exact hx
  | _ => exact hx

end Numbers

/-- The comparisons along corresponding lists come out alike. -/
theorem ordered (r : Relation) : ∀ {vs vs' : List Value} (before : Bool),
    List.Forall₂ (S.value w) vs vs' →
      S.Checked w Eq (Number.ordered r before vs) (Number.ordered r before vs')
  | _, _, _, .nil => .ok rfl
  | _, _, _, .cons _ .nil => .ok rfl
  | _, _, _, .cons ha (.cons hb hs) =>
    (compare ha hb).bind fun _ _ ho => ho ▸ ordered r _ (.cons hb hs)

/-- A chain of operations on corresponding arguments has corresponding results if each operation
has. -/
theorem chain {op : Value → Value → Except Fault Value} {unit : Value}
    (hop : ∀ a a' b b', S.value w a a' → S.value w b b' →
      S.Checked w (S.value w) (op a b) (op a' b'))
    (hu : unit.isConstant = true) {vs vs' : List Value} (h : List.Forall₂ (S.value w) vs vs') :
    S.Checked w (S.value w) (Number.chain op unit vs) (Number.chain op unit vs') := by
  rcases h with _ | ⟨hv, _ | ⟨hv', hs⟩⟩
  · exact .error (fault_plain rfl)
  · exact hop _ _ _ _ (S.constant w hu) hv
  · exact (numeric hv).bind fun _ _ hf => Checked.foldlM hop (.cons hv' hs) hf

theorem dividend {args args' : List Value} (h : List.Forall₂ (S.value w) args args') :
    S.Checked w Eq (Number.dividend args) (Number.dividend args') := by
  refine (two h).bind fun p q hpq => ?_
  refine (integer hpq.1).bind fun a _ ha => (integer hpq.2).bind fun b _ hb => ha ▸ hb ▸ ?_
  by_cases hz : b = 0
  · subst hz
    exact .error (fault_plain rfl)
  · simp only [hz, if_false]
    exact .ok rfl

/-- Numeric procedures have corresponding results on corresponding arguments. -/
theorem numericOp {args args' : List Value} (h : List.Forall₂ (S.value w) args args')
    (op : NumericOp) : S.Checked w (S.value w) (op.run args) (op.run args') := by
  have hc : ∀ {v : Value}, v.isConstant = true → S.Checked w (S.value w) (.ok v) (.ok v) :=
    fun hv => .ok (S.constant w hv)
  cases op with
  | add =>
    refine Checked.foldlM (P := S.value w) ?_ h (S.constant w (v := .int 0) rfl)
    exact fun _ _ _ _ hs hv => combine hs hv _ _
  | mul =>
    refine Checked.foldlM (P := S.value w) ?_ h (S.constant w (v := .int 1) rfl)
    exact fun _ _ _ _ hp hv => combine hp hv _ _
  | sub => exact chain (fun _ _ _ _ hc hv => combine hc hv _ _) rfl h
  | div => exact chain (fun _ _ _ _ => divide) rfl h
  | quotient => exact (dividend h).bind fun _ _ hp => hp ▸ hc rfl
  | remainder => exact (dividend h).bind fun _ _ hp => hp ▸ hc rfl
  | modulo => exact (dividend h).bind fun _ _ hp => hp ▸ hc rfl
  | abs => exact (one h).bind fun _ _ hv => magnitude hv
  | expt => exact (two h).bind fun _ _ hp => expt hp.1 hp.2
  | compare r =>
    simp only [NumericOp.run, Number.comparison, ← h.length_eq]
    split
    · exact .error (fault_plain rfl)
    · exact (ordered r true h).bind fun _ _ hb => hb ▸ hc rfl
  | even => exact (one h).bind fun _ _ hv => (integer hv).bind fun _ _ hn => hn ▸ hc rfl
  | odd => exact (one h).bind fun _ _ hv => (integer hv).bind fun _ _ hn => hn ▸ hc rfl
  | zero => exact (one h).bind fun _ _ hv => (isZero hv).bind fun _ _ hb => hb ▸ hc rfl

/-! ## Tests, lists and output -/

theorem test {args args' : List Value} (h : List.Forall₂ (S.value w) args args') (t : Test) :
    S.Checked w (S.value w) (t.run args) (t.run args') := by
  refine (one h).bind fun v v' hv => ?_
  have ht : t.holds v = t.holds v' := by
    cases t with
    | list => exact isProper_eq hv
    | _ => cases S.layer hv <;> rfl
  rw [ht]
  exact .ok (S.constant w rfl)

/-- Comparisons as objects and by structure have the same answer on corresponding arguments. -/
theorem likeness {args args' : List Value} (h : List.Forall₂ (S.value w) args args')
    (l : Likeness) : S.Checked w (S.value w) (l.run args) (l.run args') := by
  refine (two h).bind fun p q hpq => ?_
  have hl : l.holds p.1 p.2 = l.holds q.1 q.2 := by
    cases l with
    | same => exact S.same hpq.1 hpq.2
    | equal => exact equal_eq hpq.1 hpq.2
  change S.Checked w (S.value w) (.ok (.bool (l.holds p.1 p.2))) (.ok (.bool (l.holds q.1 q.2)))
  rw [hl]
  exact .ok (S.constant w rfl)

/-- Lists that correspond end in elements that do. -/
theorem values_snoc {init args' : List Value} {last : Value}
    (h : List.Forall₂ (S.value w) (init ++ [last]) args') :
    ∃ init' last', args' = init' ++ [last'] ∧ List.Forall₂ (S.value w) init init' ∧
      S.value w last last' := by
  induction init generalizing args' with
  | nil =>
    rcases h with _ | ⟨hl, _ | _⟩
    exact ⟨[], _, rfl, .nil, hl⟩
  | cons v init ih =>
    rcases h with _ | ⟨hv, hs⟩
    obtain ⟨init', last', rfl, hi, hl⟩ := ih hs
    exact ⟨_ :: init', last', rfl, .cons hv hi, hl⟩

/-- Appending corresponding lists makes corresponding lists. -/
theorem appendAll {args args' : List Value} (h : List.Forall₂ (S.value w) args args') :
    S.Agree w S.value (ListOp.appendAll args) (ListOp.appendAll args') := by
  rcases List.eq_nil_or_concat args with rfl | ⟨init, last, rfl⟩
  · cases h
    exact .pure (S.constant w rfl)
  · rw [List.concat_eq_append] at h ⊢
    obtain ⟨init', last', rfl, hi, hl⟩ := values_snoc h
    simp only [ListOp.appendAll, List.getLast?_concat, List.dropLast_concat]
    have hc : S.Agree w (fun w => List.Forall₂ (List.Forall₂ (S.value w)))
        (EvalM.check (init.mapM Arguments.list)) (EvalM.check (init'.mapM Arguments.list)) :=
      .check (Checked.mapM (fun _ _ hv => list hv) hi)
    exact hc.bind fun _ _ _ hw hx =>
      .consReversed (S.value_mono hw hl) (List.rel_reverse (List.rel_flatten hx))

/-- List procedures agree on corresponding arguments. -/
theorem listOp {args args' : List Value} (h : List.Forall₂ (S.value w) args args')
    (op : ListOp) : S.Agree w S.value (op.run args) (op.run args') := by
  cases op with
  | car =>
    refine .check ((one h).bind fun v v' hv => ?_)
    cases S.layer hv with
    | pair _ _ ha _ => exact .ok ha
    | _ => exact .error (fault_plain rfl)
  | cdr =>
    refine .check ((one h).bind fun v v' hv => ?_)
    cases S.layer hv with
    | pair _ _ _ hd => exact .ok hd
    | _ => exact .error (fault_plain rfl)
  | cons =>
    have hc : S.Agree w (fun w p q => S.value w p.1 q.1 ∧ S.value w p.2 q.2)
        (EvalM.check (Arguments.two args)) (EvalM.check (Arguments.two args')) := .check (two h)
    exact hc.bind fun _ _ _ _ hp => .cons hp.1 hp.2
  | list => exact .newList h
  | append => exact appendAll h
  | length =>
    have hc : S.Agree w (fun w => List.Forall₂ (S.value w))
        (EvalM.check (Arguments.one args >>= Arguments.list))
        (EvalM.check (Arguments.one args' >>= Arguments.list)) :=
      .check ((one h).bind fun _ _ hv => list hv)
    exact hc.bind fun w' _ _ _ hx => by
      rw [hx.length_eq]
      exact .pure (S.constant w' rfl)

/-- The text of corresponding values in the present stores. -/
theorem Agree.writtenNow {v v' : Value} (h : S.value w v v') :
    S.Agree w (fun _ => Eq) (EvalM.writtenNow v) (EvalM.writtenNow v') :=
  fun _ _ hm => .ok le_rfl hm (writeOnto_eq (sameFrameTexts hm) h true .alone "")

/-- The displayed text of corresponding values is the same, frames included. -/
theorem Agree.displayedNow {v v' : Value} (h : S.value w v v') :
    S.Agree w (fun _ => Eq) (EvalM.displayedNow v) (EvalM.displayedNow v') :=
  fun _ _ hm => .ok le_rfl hm (writeOnto_eq (sameFrameTexts hm) h false .alone "")

theorem Agree.messageNow {e e' : Fault} (h : S.fault w e e') :
    S.Agree w (fun _ => Eq) (EvalM.messageNow e) (EvalM.messageNow e') :=
  fun _ _ hm => .ok le_rfl hm (message_eq (sameFrameTexts hm) h)

/-- Output procedures show the same text on both sides. -/
theorem outputOp {args args' : List Value} (h : List.Forall₂ (S.value w) args args')
    (op : OutputOp) : S.Agree w S.value (op.run args) (op.run args') := by
  have hu : ∀ w', S.Agree w' S.value (Pure.pure .undefined) (Pure.pure .undefined) :=
    fun w' => .pure (S.constant w' rfl)
  have h1 : S.Agree w S.value (EvalM.check (Arguments.one args))
      (EvalM.check (Arguments.one args')) := .check (one h)
  cases op with
  | display =>
    exact h1.bind fun _ _ _ _ hv => (Agree.displayedNow hv).bind fun _ t _ _ ht =>
      ht ▸ (Agree.emit t).bind fun w' _ _ _ _ => hu w'
  | print =>
    exact h1.bind fun _ _ _ _ hv => (Agree.writtenNow hv).bind fun _ t _ _ ht =>
      ht ▸ (Agree.emit _).bind fun w' _ _ _ _ => hu w'
  | newline =>
    have h0 : S.Agree w (fun _ => Eq) (EvalM.check (Arguments.none args))
        (EvalM.check (Arguments.none args')) := .check (none h)
    exact h0.bind fun _ _ _ _ _ => (Agree.emit _).bind fun w' _ _ _ _ => hu w'

end Scheme.Simulation
