import Mathlib.Data.List.Chain
import Scheme.Proofs.Numbers.Arithmetic

/-!
# Comparisons of several numbers

The procedures `=`, `<`, `>`, `<=` and `>=` compare each argument with the next one, and they go on
when a comparison has failed. So an argument that is no number is found wherever it stands
(`ordered_of_fails`). On integers each of the relations is transitive, and what holds of neighbours
holds of all pairs (`ordered_ints`). `comparison_of_all_pairs` states both, with what becomes of the
arguments in reverse order.
-/

namespace Scheme

/-! ## Relations on integers -/

namespace Relation

/-- The relation on integers. -/
def Rel : Relation → Int → Int → Prop
  | eq, x, y => x = y
  | lt, x, y => x < y
  | gt, x, y => x > y
  | le, x, y => x ≤ y
  | ge, x, y => x ≥ y

/-- The relation from right to left. -/
def converse : Relation → Relation
  | eq => eq
  | lt => gt
  | gt => lt
  | le => ge
  | ge => le

variable (r : Relation)

/-- Comparing two integers and testing the order decides the relation. -/
theorem holds_compare_iff (x y : Int) : r.holds (Ord.compare x y) = true ↔ r.Rel x y := by
  cases r with
  | eq => exact beq_iff_eq.trans Int.compare_eq_eq
  | lt => exact beq_iff_eq.trans Int.compare_eq_lt
  | gt => exact beq_iff_eq.trans Int.compare_eq_gt
  | le => exact bne_iff_ne.trans Int.compare_ne_gt
  | ge => exact bne_iff_ne.trans Int.compare_ne_lt

instance : DecidableRel r.Rel := fun x y =>
  decidable_of_iff (r.holds (Ord.compare x y) = true) (r.holds_compare_iff x y)

instance : Trans r.Rel r.Rel r.Rel where
  trans {x y z} hxy hyz := by
    cases r <;> simp only [Rel] at hxy hyz ⊢ <;> omega

theorem rel_converse_iff (x y : Int) : r.converse.Rel x y ↔ r.Rel y x := by
  cases r with
  | eq => exact eq_comm
  | _ => exact Iff.rfl

/-- A relation holds of all pairs if and only if it holds between any two places. -/
theorem pairwise_iff_forall (is : List Int) :
    is.Pairwise r.Rel ↔
      ∀ (i j : Nat) (hij : i < j) (hj : j < is.length), r.Rel is[i] is[j] := by
  rw [List.pairwise_iff_getElem]
  exact ⟨fun h i j hij hj => h i j (hij.trans hj) hj hij, fun h i j _ hj hij => h i j hij hj⟩

theorem pairwise_reverse_iff (is : List Int) :
    is.reverse.Pairwise r.converse.Rel ↔ is.Pairwise r.Rel := by
  rw [List.pairwise_reverse]
  simp only [rel_converse_iff]

end Relation

/-! ## Neighbours -/

namespace Number

variable (r : Relation)

/-- On integers, the comparisons of neighbours decide the relation for all pairs. -/
theorem ordered_ints (before : Bool) (is : List Int) :
    ordered r before (is.map .int) = .ok (before && decide (is.Pairwise r.Rel)) := by
  rcases is with _ | ⟨i, is⟩
  · simp [ordered]
  -- The induction is on what follows the integer that is compared next.
  induction is generalizing i before with
  | nil => simp [ordered]
  | cons j is ih =>
    have hfirst : decide ((i :: j :: is).Pairwise r.Rel) =
        (r.holds (Ord.compare i j) && decide ((j :: is).Pairwise r.Rel)) := by
      rw [Bool.eq_iff_iff, Bool.and_eq_true, decide_eq_true_iff, decide_eq_true_iff,
        r.holds_compare_iff, ← List.isChain_iff_pairwise, ← List.isChain_iff_pairwise,
        List.isChain_cons_cons]
    rw [hfirst, ← Bool.and_assoc]
    exact ih (before && r.holds (Ord.compare i j)) j

/-- A comparison names the first of its operands that is no number. -/
theorem compare_of_fails {a b v : Value} (h : Test.number.firstFailing? [a, b] = some v) :
    compare a b = .error (.notNumber v) := by
  have hsplit : compare a b =
      (do compareFloats (← Arguments.number a) (← Arguments.number b)) := by
    cases a with
    | int i =>
      cases b with
      | int j => cases h
      | _ => rfl
    | _ => rfl
  rw [hsplit]
  exact number_bind_of_fails compareFloats h

/-- What is no number is found, whether or not a comparison before it has failed. -/
theorem ordered_of_fails {v : Value} {args : List Value} (before : Bool)
    (hlength : 2 ≤ args.length) (hfloat : ∀ f, .float f ∉ args)
    (h : Test.number.firstFailing? args = some v) :
    ordered r before args = .error (.notNumber v) := by
  obtain ⟨a, b, rest, rfl⟩ : ∃ a b rest, args = a :: b :: rest := by
    rcases args with _ | ⟨a, _ | ⟨b, rest⟩⟩
    · simp at hlength
    · simp at hlength
    · exact ⟨a, b, rest, rfl⟩
  clear hlength
  induction rest generalizing a b before with
  | nil =>
    rw [ordered, compare_of_fails h]
    rfl
  | cons c rest ih =>
    rw [ordered]
    rcases exists_kind [a, b] with ⟨w, hw⟩ | ⟨is, his⟩ | ⟨-, f, hf⟩
    · have hv : Test.number.firstFailing? ([a, b] ++ c :: rest) = some v := h
      rw [Test.firstFailing?_append, hw] at hv
      cases hv
      rw [compare_of_fails hw]
      rfl
    · obtain ⟨i, _, rfl, rfl, htail⟩ := List.map_eq_cons_iff.mp his.symm
      obtain ⟨j, _, rfl, rfl, -⟩ := List.map_eq_cons_iff.mp htail
      exact ih _ _ _ (fun f hf => hfloat f (List.mem_cons_of_mem _ hf)) h
    · exact absurd (List.mem_append_left (c :: rest) hf) (hfloat f)

end Number

namespace NumericOp

variable (r : Relation) {args : List Value}

theorem run_compare (h : 2 ≤ args.length) :
    (compare r).run args = do return .bool (← Number.ordered r true args) :=
  if_neg (Nat.not_lt_of_ge h)

/-- On two or more integers the answer is whether the relation holds of all pairs. -/
theorem run_compare_ints (is : List Int) (h : 2 ≤ is.length) :
    (compare r).run (is.map .int) = .ok (.bool (decide (is.Pairwise r.Rel))) := by
  rw [run_compare r (by simpa using h), Number.ordered_ints]
  rfl

/-- Without doubles among the arguments, the first that is no number is named. -/
theorem run_compare_of_fails {v : Value} (hlength : 2 ≤ args.length)
    (hfloat : ∀ f, .float f ∉ args) (h : Test.number.firstFailing? args = some v) :
    (compare r).run args = .error (.notNumber v) := by
  rw [run_compare r hlength, Number.ordered_of_fails r true hlength hfloat h]
  rfl

end NumericOp

/-- Without doubles the tests for numbers and for integers are the same. -/
theorem firstFailing?_integer {args : List Value} (h : ∀ f, .float f ∉ args) :
    Test.integer.firstFailing? args = Test.number.firstFailing? args := by
  induction args with
  | nil => rfl
  | cons v args ih =>
    have hv : Test.integer.holds v = Test.number.holds v := by
      cases v with
      | float f => exact absurd List.mem_cons_self (h f)
      | _ => rfl
    have htail := ih fun f hf => h f (List.mem_cons_of_mem v hf)
    cases hn : Test.number.holds v with
    | false =>
      rw [Test.firstFailing?_cons_of_fails hn, Test.firstFailing?_cons_of_fails (hv.trans hn)]
    | true =>
      rw [Test.firstFailing?_cons_of_holds hn, Test.firstFailing?_cons_of_holds (hv.trans hn),
        htail]

/-- If an argument fails a test, one fails it in reverse order as well. -/
theorem Test.exists_firstFailing?_reverse {t : Test} {args : List Value} {v : Value}
    (h : t.firstFailing? args = some v) : ∃ w, t.firstFailing? args.reverse = some w := by
  rw [← Option.ne_none_iff_exists', ne_eq, firstFailing?_eq_none_iff]
  intro hall
  have hnone : t.firstFailing? args = none :=
    firstFailing?_eq_none_iff.mpr fun v hv => hall v (List.mem_reverse.mpr hv)
  rw [hnone] at h
  cases h

/-- The procedures `=`, `<`, `>`, `<=` and `>=` on two or more arguments without a double. They fail
if and only if an argument is no integer, and the fault names the first of these, whatever the
comparisons before it have given. Otherwise the answer is true if and only if the relation holds of
every two integers in their order, neighbours or not. So in reverse order the arguments get the same
answer from the converse relation, and if they fail in one order, they fail in the other. -/
theorem comparison_of_all_pairs (r : Relation) (args : List Value) (hlength : 2 ≤ args.length)
    (hfloat : ∀ f, .float f ∉ args) :
    (∀ e, (NumericOp.compare r).run args = .error e ↔
      ∃ v, Test.integer.firstFailing? args = some v ∧ e = .notNumber v) ∧
    (∀ before e, Number.ordered r before args = .error e ↔
      ∃ v, Test.integer.firstFailing? args = some v ∧ e = .notNumber v) ∧
    (∀ is : List Int, args = is.map .int →
      ∀ b, (NumericOp.compare r).run args = .ok (.bool b) ↔
        (b = true ↔ ∀ (i j : Nat) (hij : i < j) (hj : j < is.length), r.Rel is[i] is[j])) ∧
    (∀ v, (NumericOp.compare r).run args = .ok v ↔
      (NumericOp.compare r.converse).run args.reverse = .ok v) ∧
    ∀ frameText v, Fault.message frameText (.notNumber v) =
      "expected a number, got " ++ v.written frameText := by
  rw [firstFailing?_integer hfloat]
  have hreverse : 2 ≤ args.reverse.length := by rwa [List.length_reverse]
  rcases exists_kind args with ⟨v, hv⟩ | ⟨is, rfl⟩ | ⟨-, f, hf⟩
  · have hfloat' : ∀ f, .float f ∉ args.reverse := fun f hf => hfloat f (List.mem_reverse.mp hf)
    obtain ⟨w, hw⟩ := Test.exists_firstFailing?_reverse hv
    have hrun := NumericOp.run_compare_of_fails r hlength hfloat hv
    have hrun' := NumericOp.run_compare_of_fails r.converse hreverse hfloat' hw
    refine ⟨fun e => ?_, fun before e => ?_, ?_, fun v => ?_, fun _ _ => rfl⟩
    · simp [hrun, hv, eq_comm]
    · simp [Number.ordered_of_fails r before hlength hfloat hv, hv, eq_comm]
    · rintro is rfl
      rw [firstFailing?_ints] at hv
      cases hv
    · simp [hrun, hrun']
  · rw [List.length_map] at hlength
    have hrun := NumericOp.run_compare_ints r is hlength
    have hrun' := NumericOp.run_compare_ints r.converse is.reverse (by simpa using hlength)
    refine ⟨fun e => ?_, fun before e => ?_, ?_, fun v => ?_, fun _ _ => rfl⟩
    · simp [hrun, firstFailing?_ints]
    · simp [Number.ordered_ints, firstFailing?_ints]
    · rintro js hjs b
      obtain rfl := Value.map_int_injective hjs
      rw [hrun, ← r.pairwise_iff_forall]
      cases b <;> simp
    · rw [← List.map_reverse, hrun, hrun']
      simp only [r.pairwise_reverse_iff]
  · exact absurd hf (hfloat f)

/-- Two symbols behind integers that are out of order, and integers in falling order with their
reverse. -/
theorem comparison_of_all_pairs_symbols :
    (NumericOp.compare .lt).run [.int 3, .int 1, .sym "a", .sym "b"] =
      .error (.notNumber (.sym "a")) ∧
    (NumericOp.compare .gt).run [.int 5, .int 2, .int (-4)] = .ok (.bool true) ∧
    (NumericOp.compare .lt).run [.int (-4), .int 2, .int 5] = .ok (.bool true) := by
  obtain ⟨hfails, -⟩ := comparison_of_all_pairs .lt [.int 3, .int 1, .sym "a", .sym "b"]
    (by decide) (by simp)
  obtain ⟨-, -, hpairs, hreverse, -⟩ := comparison_of_all_pairs .gt [.int 5, .int 2, .int (-4)]
    (by decide) (by simp)
  have hfalling : ([5, 2, -4] : List Int).Pairwise (Relation.Rel .gt) := by decide
  have hgt := (hpairs [5, 2, -4] rfl true).mpr
    (iff_of_true rfl ((Relation.pairwise_iff_forall .gt _).mp hfalling))
  exact ⟨(hfails _).mpr ⟨_, rfl, rfl⟩, hgt, (hreverse _).mp hgt⟩

end Scheme
