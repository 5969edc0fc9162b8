import Scheme.Proofs.Expressions
import Scheme.Proofs.Outcomes

/-!
# Derived forms

`and`, `or`, `begin` and `cond` with many parts are what nested forms with few parts are. An
`Expansion` splits off the first part: of a conjunction into a conditional, of a disjunction or a
sequence into one with two parts, of clauses into a conditional or a disjunction. What follows the
first part is put into a form of its own and is not looked at, so it may be malformed.

The two expressions are evaluated in the same way: the same value or fault, the same machine
afterwards, from every depth (`expansion_evaluates_alike`). The reason is that the expansion takes
the same step, only that a form that was put in between takes one step more and no level: it stands
in tail position (`Expansion.evalStep_eq`).
-/

namespace Scheme

open EvalM

/-- An expression, and the same with its first part split off. -/
inductive Expansion : Value → Value → Prop
  /-- `(and a b ..)` and `(if a (and b ..) #f)`. -/
  | conjunction {e e' a rest : Value} {es : List Value} (he : e.Lists (.sym "and" :: a :: es))
      (hes : es ≠ []) (hrest : rest.Lists (.sym "and" :: es))
      (he' : e'.Lists [.sym "if", a, rest, .bool false]) : Expansion e e'
  /-- `(or a b ..)` and `(or a (or b ..))`. -/
  | disjunction {e e' a rest : Value} {es : List Value} (he : e.Lists (.sym "or" :: a :: es))
      (hes : es ≠ []) (hrest : rest.Lists (.sym "or" :: es))
      (he' : e'.Lists [.sym "or", a, rest]) : Expansion e e'
  /-- `(begin a b ..)` and `(begin a (begin b ..))`. -/
  | sequence {e e' a rest : Value} {es : List Value} (he : e.Lists (.sym "begin" :: a :: es))
      (hes : es ≠ []) (hrest : rest.Lists (.sym "begin" :: es))
      (he' : e'.Lists [.sym "begin", a, rest]) : Expansion e e'
  /-- `(cond (t b ..) c ..)` and `(if t (begin b ..) (cond c ..))`. -/
  | clause {e e' c t body rest : Value} {bs cs : List Value}
      (he : e.Lists (.sym "cond" :: c :: cs)) (hc : c.Lists (t :: bs)) (hbs : bs ≠ [])
      (ht : t ≠ .sym "else") (hbody : body.Lists (.sym "begin" :: bs))
      (hrest : rest.Lists (.sym "cond" :: cs)) (he' : e'.Lists [.sym "if", t, body, rest]) :
      Expansion e e'
  /-- `(cond (t) c ..)` and `(or t (cond c ..))`. -/
  | test {e e' c t rest : Value} {cs : List Value} (he : e.Lists (.sym "cond" :: c :: cs))
      (hc : c.Lists [t]) (ht : t ≠ .sym "else") (hrest : rest.Lists (.sym "cond" :: cs))
      (he' : e'.Lists [.sym "or", t, rest]) : Expansion e e'
  /-- `(cond (else b ..))` and `(begin b ..)`. -/
  | otherwise {e e' c : Value} {bs : List Value} (he : e.Lists [.sym "cond", c])
      (hc : c.Lists (.sym "else" :: bs)) (hbs : bs ≠ [])
      (he' : e'.Lists (.sym "begin" :: bs)) : Expansion e e'

/-- Both expressions take the same step, or the expansion takes one step more. -/
theorem Expansion.evalStep_eq {e e' : Value} (h : Expansion e e') :
    (∀ ev f, evalStep ev e f = evalStep ev e' f) ∨
      ∀ ev f, evalStep ev e f = evalStep ev e' f >>= Step.advance ev := by
  cases h with
  | conjunction he hes hrest he' =>
    refine .inr fun ev f => ?_
    obtain ⟨b, es, rfl⟩ := List.exists_cons_of_ne_nil hes
    rw [he.step_conjunction, he'.step_conditional, Form.conjunction, bind_assoc]
    · congr 1
      funext v
      cases v.isTrue
      · rfl
      · exact (hrest.step_conjunction ev f).symm
    · simp
  | disjunction he hes hrest he' =>
    refine .inr fun ev f => ?_
    obtain ⟨b, es, rfl⟩ := List.exists_cons_of_ne_nil hes
    rw [he.step_disjunction, he'.step_disjunction]
    simp only [Form.disjunction, bind_assoc]
    congr 1
    funext v
    cases v.isTrue
    · exact (hrest.step_disjunction ev f).symm
    · rfl
  | sequence he hes hrest he' =>
    refine .inr fun ev f => ?_
    obtain ⟨b, es, rfl⟩ := List.exists_cons_of_ne_nil hes
    rw [he.step_sequence ev f (by simp), he'.step_sequence ev f (by simp)]
    simp only [Form.body, bind_assoc]
    congr 1
    funext v
    exact (hrest.step_sequence ev f hes).symm
  | clause he hc hbs ht hbody hrest he' =>
    refine .inr fun ev f => ?_
    rw [he.step_clauses, he'.step_conditional, Form.clauses_cons ev f _ hc ht hbs, bind_assoc]
    congr 1
    funext v
    cases v.isTrue
    · exact (hrest.step_clauses ev f).symm
    · exact (hbody.step_sequence ev f hbs).symm
  | test he hc ht hrest he' =>
    refine .inr fun ev f => ?_
    rw [he.step_clauses, he'.step_disjunction, Form.clauses_test_only ev f _ hc ht]
    simp only [Form.disjunction, bind_assoc]
    congr 1
    funext v
    cases v.isTrue
    · exact (hrest.step_clauses ev f).symm
    · rfl
  | otherwise he hc hbs he' =>
    refine .inl fun ev f => ?_
    rw [he.step_clauses, he'.step_sequence ev f hbs, Form.clauses_otherwise ev f hc hbs]

/-- The rounds of an expression and of its expansion finish alike. -/
theorem Expansion.finishes_rounds_iff {e e' : Value} (h : Expansion e e') (f : FrameId)
    (k : Machine) (r : EStateM.Result Stop Machine Value) :
    Finishes (rounds e f) k r ↔ Finishes (rounds e' f) k r :=
  finishes_rounds_of_step 0 <| h.evalStep_eq.imp (fun hstep n _ => congrFun (hstep (run n) f) k)
    fun hstep n _ => congrFun (hstep (run n) f) k

/-- An expression and its expansion are evaluated alike in every frame and from every machine,
whatever its depth. -/
theorem expansion_evaluates_alike {e e' : Value} (h : Expansion e e') (f : FrameId) (m : Machine)
    (r : EStateM.Result Stop Machine Value) :
    Finishes (fun n => run n (.eval e f)) m r ↔ Finishes (fun n => run n (.eval e' f)) m r :=
  finishes_eval_congr (h.finishes_rounds_iff f) m r

/-- `(cond (#f 1) 7)` and `(if #f (begin 1) (cond 7))`: the number is no clause, which comes out
when it is reached. From the depth that leaves two levels both fail for that reason. -/
theorem expansion_evaluates_alike_malformed :
    let e : Value := .pair 1 (.sym "cond")
      (.pair 2 (.pair 3 (.bool false) (.pair 4 (.int 1) .nil)) (.pair 5 (.int 7) .nil))
    let e' : Value := .pair 6 (.sym "if") (.pair 7 (.bool false)
      (.pair 8 (.pair 9 (.sym "begin") (.pair 10 (.int 1) .nil))
        (.pair 11 (.pair 12 (.sym "cond") (.pair 13 (.int 7) .nil)) .nil)))
    let m : Machine := { Machine.new [] (fun _ => .absent) with depth := 998 }
    let r : EStateM.Result Stop Machine Value := .error (.fault (.badlyFormed (.int 7))) m
    Expansion e e' ∧ Finishes (fun n => run n (.eval e 0)) m r ∧
      Finishes (fun n => run n (.eval e' 0)) m r := by
  intro e e' m r
  have hc : (Value.pair 3 (.bool false) (.pair 4 (.int 1) .nil)).Lists [.bool false, .int 1] := rfl
  have hbody : (Value.pair 9 (.sym "begin") (.pair 10 (.int 1) .nil)).Lists
      [.sym "begin", .int 1] := rfl
  have hrest : (Value.pair 12 (.sym "cond") (.pair 13 (.int 7) .nil)).Lists
      [.sym "cond", .int 7] := rfl
  have h : Expansion e e' := .clause rfl hc (by simp) (by simp) hbody hrest rfl
  have he : Finishes (fun n => run n (.eval e 0)) m r := ⟨trivial, 2, rfl⟩
  exact ⟨h, he, (expansion_evaluates_alike h 0 m r).mp he⟩

end Scheme
