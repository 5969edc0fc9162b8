import Mathlib.Algebra.BigOperators.Group.List.Basic
import Mathlib.Algebra.Ring.Int.Defs
import Scheme.Builtin.Number
import Scheme.Builtin.Predicate

/-!
# Sums, products and differences

A list of arguments has one of three forms: one of them is no number, all of them are integers, or
all are numbers and a double is among them (`exists_kind`). What arithmetic answers follows it
(`Arithmetic`): it fails for the first argument that is no number, it is exact on integers, and it
is a double otherwise.

All three procedures go through their arguments with `combine`, which is followed once, from a
number in front of the others (`arithmetic_foldlM`). A sum starts from an integer in front of all
arguments, and so do a product and a negation (`Arithmetic.behind`).
-/

namespace Scheme

/-! ## Lists of arguments -/

/-- The first of the values that does not pass the test. -/
def Test.firstFailing? (t : Test) (args : List Value) : Option Value :=
  args.find? fun v => !t.holds v

namespace Test

variable {t : Test} {v : Value} {args : List Value}

theorem firstFailing?_cons_of_holds (h : t.holds v = true) :
    t.firstFailing? (v :: args) = t.firstFailing? args := by
  simp [firstFailing?, h]

theorem firstFailing?_cons_of_fails (h : t.holds v = false) :
    t.firstFailing? (v :: args) = some v := by
  simp [firstFailing?, h]

/-- Of two groups of arguments, the first failing one is sought in the first group and then in the
second. -/
theorem firstFailing?_append (args args' : List Value) :
    t.firstFailing? (args ++ args') = (t.firstFailing? args).or (t.firstFailing? args') :=
  List.find?_append

/-- No argument fails the test if and only if all pass it. -/
theorem firstFailing?_eq_none_iff :
    t.firstFailing? args = none ↔ ∀ v ∈ args, t.holds v = true := by
  simp [firstFailing?]

end Test

theorem Value.map_int_injective : Function.Injective (List.map Value.int) :=
  List.map_injective_iff.mpr fun _ _ => Value.int.inj

theorem firstFailing?_ints (is : List Int) : Test.number.firstFailing? (is.map .int) = none :=
  Test.firstFailing?_eq_none_iff.mpr fun v hv => by
    obtain ⟨i, -, rfl⟩ := List.mem_map.mp hv
    rfl

/-- The kinds of argument lists. -/
theorem exists_kind (args : List Value) :
    (∃ v, Test.number.firstFailing? args = some v) ∨ (∃ is : List Int, args = is.map .int) ∨
      Test.number.firstFailing? args = none ∧ ∃ f, .float f ∈ args := by
  induction args with
  | nil => exact .inr (.inl ⟨[], rfl⟩)
  | cons v args ih =>
    cases hv : Test.number.holds v with
    | false => exact .inl ⟨v, Test.firstFailing?_cons_of_fails hv⟩
    | true =>
      rw [Test.firstFailing?_cons_of_holds hv]
      rcases ih with hfail | ⟨is, rfl⟩ | ⟨hnone, f, hf⟩
      · exact .inl hfail
      · cases v with
        | int i => exact .inr (.inl ⟨i :: is, rfl⟩)
        | float f => exact .inr (.inr ⟨firstFailing?_ints is, f, List.mem_cons_self⟩)
        | _ => cases hv
      · exact .inr (.inr ⟨hnone, f, List.mem_cons_of_mem v hf⟩)

/-! ## What arithmetic answers -/

/-- An answer to these arguments that is exact on integers: it is a fault if one of the arguments is
no number and names the first such argument, it is an integer if all are integers, and it is a
double for all other numbers. -/
structure Arithmetic (exact : List Int → Int) (args : List Value) (x : Except Fault Value) :
    Prop where
  fails_iff : ∀ e, x = .error e ↔
    ∃ v, Test.number.firstFailing? args = some v ∧ e = .notNumber v
  int_iff : ∀ i, x = .ok (.int i) ↔ ∃ is, args = is.map .int ∧ i = exact is
  float_iff : (∃ f, x = .ok (.float f)) ↔
    (∀ v ∈ args, Test.number.holds v = true) ∧ ∃ f, .float f ∈ args

namespace Arithmetic

variable {exact : List Int → Int} {args : List Value} {x : Except Fault Value}

/-- Naming the first argument that is no number is a right answer. -/
theorem of_fault {v : Value} (hv : Test.number.firstFailing? args = some v) :
    Arithmetic exact args (.error (.notNumber v)) := by
  have hints : ∀ is : List Int, args ≠ is.map .int := by
    rintro is rfl
    rw [firstFailing?_ints] at hv
    cases hv
  refine ⟨fun e => ?_, fun i => ?_, ?_⟩
  · simp [hv, eq_comm]
  · simp [hints]
  · simp [← Test.firstFailing?_eq_none_iff, hv]

/-- The exact result is the right answer to integers. -/
theorem of_ints (is : List Int) : Arithmetic exact (is.map .int) (.ok (.int (exact is))) := by
  refine ⟨fun e => ?_, fun i => ?_, ?_⟩
  · simp [firstFailing?_ints]
  · simp [Value.map_int_injective.eq_iff, eq_comm]
  · simp

/-- Any double is a right answer to numbers with a double among them. -/
theorem of_float {f : Float} (hnone : Test.number.firstFailing? args = none)
    (hf : ∃ f, .float f ∈ args) : Arithmetic exact args (.ok (.float f)) := by
  have hints : ∀ is : List Int, args ≠ is.map .int := by
    rintro is rfl
    simp at hf
  refine ⟨fun e => ?_, fun i => ?_, ?_⟩
  · simp [hnone]
  · simp [hints]
  · simp [← Test.firstFailing?_eq_none_iff, hnone, hf]

/-- It is enough to have the answer for each kind of arguments. -/
theorem of_kinds
    (hfault : ∀ v, Test.number.firstFailing? args = some v → x = .error (.notNumber v))
    (hints : ∀ is, args = is.map .int → x = .ok (.int (exact is)))
    (hfloat : Test.number.firstFailing? args = none → (∃ f, .float f ∈ args) →
      ∃ f, x = .ok (.float f)) : Arithmetic exact args x := by
  rcases exists_kind args with ⟨v, hv⟩ | ⟨is, rfl⟩ | ⟨hnone, hf⟩
  · rw [hfault v hv]
    exact of_fault hv
  · rw [hints is rfl]
    exact of_ints is
  · obtain ⟨f, rfl⟩ := hfloat hnone hf
    exact of_float hnone hf

/-- A right answer stays right for another exact operation that agrees on the integers at hand. -/
theorem congr {exact' : List Int → Int} (h : Arithmetic exact args x)
    (hexact : ∀ is, args = is.map .int → exact' is = exact is) : Arithmetic exact' args x := by
  refine ⟨h.fails_iff, fun i => (h.int_iff i).trans ?_, h.float_iff⟩
  refine exists_congr fun is => and_congr_right fun his => ?_
  rw [hexact is his]

/-- An integer in front of all arguments is left out. -/
theorem behind {u : Int} (h : Arithmetic exact (.int u :: args) x) :
    Arithmetic (fun is => exact (u :: is)) args x := by
  have hu : Test.number.holds (.int u) = true := rfl
  have hfirst : Test.number.firstFailing? (.int u :: args) = Test.number.firstFailing? args :=
    Test.firstFailing?_cons_of_holds hu
  refine .of_kinds (fun v hv => ?_) ?_ fun hnone ⟨f, hf⟩ => ?_
  · exact (h.fails_iff _).mpr ⟨v, hfirst.trans hv, rfl⟩
  · rintro is rfl
    exact (h.int_iff _).mpr ⟨u :: is, rfl, rfl⟩
  · exact h.float_iff.mpr ⟨Test.firstFailing?_eq_none_iff.mp (hfirst.trans hnone), f,
      List.mem_cons_of_mem _ hf⟩

end Arithmetic

/-! ## One step -/

namespace Number

open Arguments (number numeric)

theorem number_of_fails {v : Value} (h : Test.number.holds v = false) :
    number v = .error (.notNumber v) := by
  cases v with
  | int | float => cases h
  | _ => rfl

theorem exists_number {v : Value} (h : Test.number.holds v = true) : ∃ f, number v = .ok f := by
  cases v with
  | int i => exact ⟨_, rfl⟩
  | float f => exact ⟨f, rfl⟩
  | _ => cases h

/-- Whatever is done with the doubles of two values, it names the first of them that has none. -/
theorem number_bind_of_fails {α : Type} {a b v : Value} (f : Float → Float → Except Fault α)
    (h : Test.number.firstFailing? [a, b] = some v) :
    (do f (← number a) (← number b)) = .error (.notNumber v) := by
  cases ha : Test.number.holds a with
  | false =>
    rw [Test.firstFailing?_cons_of_fails ha] at h
    cases h
    rw [number_of_fails ha]
    rfl
  | true =>
    obtain ⟨x, hx⟩ := exists_number ha
    rw [Test.firstFailing?_cons_of_holds ha] at h
    cases hb : Test.number.holds b with
    | false =>
      rw [Test.firstFailing?_cons_of_fails hb] at h
      cases h
      rw [hx, number_of_fails hb]
      rfl
    | true =>
      rw [Test.firstFailing?_cons_of_holds hb] at h
      cases h

theorem numeric_of_holds {v : Value} (h : Test.number.holds v = true) : numeric v = .ok v := by
  cases v with
  | int | float => rfl
  | _ => cases h

theorem numeric_of_fails {v : Value} (h : Test.number.holds v = false) :
    numeric v = .error (.notNumber v) := by
  cases v with
  | int | float => cases h
  | _ => rfl

section Fold

variable (onInts : Int → Int → Int) (onFloats : Float → Float → Float) {a b : Value}

/-- Two arguments are combined only if both are numbers, and the first that is none is named. -/
theorem combine_of_fails {v : Value} (h : Test.number.firstFailing? [a, b] = some v) :
    combine onInts onFloats a b = .error (.notNumber v) := by
  have hsplit : combine onInts onFloats a b =
      do return .float (onFloats (← number a) (← number b)) := by
    cases a with
    | int i =>
      cases b with
      | int j => cases h
      | _ => rfl
    | _ => rfl
  rw [hsplit]
  exact number_bind_of_fails (fun x y => pure (Value.float (onFloats x y))) h

/-- Two numbers give a number, and a double if one of them is a double. -/
theorem exists_combine (ha : Test.number.holds a = true) (hb : Test.number.holds b = true) :
    ∃ w, combine onInts onFloats a b = .ok w ∧ Test.number.holds w = true ∧
      ((∃ f, .float f ∈ [a, b]) → ∃ f, w = .float f) := by
  cases a with
  | int i =>
    cases b with
    | int j => exact ⟨_, rfl, rfl, by simp⟩
    | float f => exact ⟨_, rfl, rfl, fun _ => ⟨_, rfl⟩⟩
    | _ => cases hb
  | float f =>
    obtain ⟨y, hy⟩ := exists_number hb
    refine ⟨.float (onFloats f y), ?_, rfl, fun _ => ⟨_, rfl⟩⟩
    change (do return Value.float (onFloats f (← number b))) = _
    rw [hy]
    rfl
  | _ => cases ha

/-! ## All arguments -/

/-- The operation from the first integer through all others. -/
def fromFirst : List Int → Int
  | [] => 0
  | i :: is => is.foldl onInts i

/-- On integers the fold is exact. -/
theorem foldlM_ints (i : Int) (is : List Int) :
    (is.map Value.int).foldlM (combine onInts onFloats) (.int i) =
      .ok (.int (is.foldl onInts i)) := by
  induction is generalizing i with
  | nil => rfl
  | cons j is ih => exact ih (onInts i j)

/-- The fold stops at the first argument that is no number, whatever came before it. -/
theorem foldlM_of_fails {v : Value} {args : List Value}
    (h : Test.number.firstFailing? args = some v) (ha : Test.number.holds a = true) :
    args.foldlM (combine onInts onFloats) a = .error (.notNumber v) := by
  induction args generalizing a with
  | nil => cases h
  | cons b args ih =>
    rw [List.foldlM_cons]
    cases hb : Test.number.holds b with
    | false =>
      have hfirst : Test.number.firstFailing? [a, b] = some b :=
        (Test.firstFailing?_cons_of_holds ha).trans (Test.firstFailing?_cons_of_fails hb)
      rw [Test.firstFailing?_cons_of_fails hb] at h
      cases h
      rw [combine_of_fails onInts onFloats hfirst]
      rfl
    | true =>
      rw [Test.firstFailing?_cons_of_holds hb] at h
      obtain ⟨w, hw, hnumber, -⟩ := exists_combine onInts onFloats ha hb
      rw [hw]
      exact ih h hnumber

/-- Once a double is among the numbers, the fold ends in a double. -/
theorem exists_foldlM_float {args : List Value} (h : Test.number.firstFailing? args = none)
    (ha : Test.number.holds a = true) (hf : ∃ f, .float f ∈ a :: args) :
    ∃ f, args.foldlM (combine onInts onFloats) a = .ok (.float f) := by
  induction args generalizing a with
  | nil =>
    obtain ⟨f, hf⟩ := hf
    obtain rfl := List.mem_singleton.mp hf
    exact ⟨f, rfl⟩
  | cons b args ih =>
    have hb : Test.number.holds b = true :=
      Test.firstFailing?_eq_none_iff.mp h b List.mem_cons_self
    rw [Test.firstFailing?_cons_of_holds hb] at h
    obtain ⟨w, hw, hnumber, hfloat⟩ := exists_combine onInts onFloats ha hb
    rw [List.foldlM_cons, hw]
    refine ih h hnumber ?_
    -- The double is one of the two that were combined, or it is still to come.
    obtain ⟨f, hf⟩ := hf
    have hsplit : .float f ∈ [a, b] ++ args := hf
    rcases List.mem_append.mp hsplit with hf | hf
    · obtain ⟨g, rfl⟩ := hfloat ⟨f, hf⟩
      exact ⟨g, List.mem_cons_self⟩
    · exact ⟨f, List.mem_cons_of_mem _ hf⟩

/-- From a number through all other arguments. -/
theorem arithmetic_foldlM {args : List Value} (ha : Test.number.holds a = true) :
    Arithmetic (fromFirst onInts) (a :: args) (args.foldlM (combine onInts onFloats) a) := by
  refine .of_kinds (fun v hv => ?_) (fun is his => ?_) fun hnone hf => ?_
  · rw [Test.firstFailing?_cons_of_holds ha] at hv
    exact foldlM_of_fails onInts onFloats hv ha
  · obtain ⟨i, js, rfl, rfl, rfl⟩ := List.map_eq_cons_iff.mp his.symm
    exact foldlM_ints onInts onFloats i js
  · rw [Test.firstFailing?_cons_of_holds ha] at hnone
    exact exists_foldlM_float onInts onFloats hnone ha hf

end Fold

theorem foldl_sub (i : Int) (is : List Int) : is.foldl (· - ·) i = i - is.sum := by
  induction is generalizing i with
  | nil => simp
  | cons j is ih =>
    rw [List.foldl_cons, ih, List.sum_cons]
    omega

/-- The first integer less all others, or the negation of a single one. -/
def differenceOfInts : List Int → Int
  | [] => 0
  | [i] => -i
  | i :: is => i - is.sum

/-- Sums are exact on integers. -/
theorem arithmetic_sum (args : List Value) : Arithmetic List.sum args (sum args) :=
  (arithmetic_foldlM (· + ·) (· + ·) (a := .int 0) rfl).behind.congr fun _ _ => List.sum_eq_foldl

theorem arithmetic_product (args : List Value) : Arithmetic List.prod args (product args) :=
  (arithmetic_foldlM (· * ·) (· * ·) (a := .int 1) rfl).behind.congr fun _ _ => List.prod_eq_foldl

/-- Differences are exact on integers, a single one being negated. -/
theorem arithmetic_difference {args : List Value} (h : args ≠ []) :
    Arithmetic differenceOfInts args (difference args) := by
  rcases args with _ | ⟨v, _ | ⟨w, rest⟩⟩
  · exact absurd rfl h
  · have hone : difference [v] = [v].foldlM sub (.int 0) := by
      rw [List.foldlM_cons]
      exact (bind_pure _).symm
    rw [hone]
    refine (arithmetic_foldlM (· - ·) (· - ·) (a := .int 0) rfl).behind.congr fun is his => ?_
    obtain ⟨i, rfl⟩ := List.length_eq_one_iff.mp (by simpa using congrArg List.length his.symm)
    exact (zero_sub i).symm
  · cases hv : Test.number.holds v with
    | false =>
      rw [difference, chain, numeric_of_fails hv]
      · exact .of_fault (Test.firstFailing?_cons_of_fails hv)
      · simp
    | true =>
      rw [difference, chain, numeric_of_holds hv]
      · refine (arithmetic_foldlM (· - ·) (· - ·) hv).congr fun is his => ?_
        obtain ⟨i, js, rfl, -, hjs⟩ := List.map_eq_cons_iff.mp his.symm
        obtain ⟨j, js, rfl, -⟩ := List.map_eq_cons_iff.mp hjs
        exact (foldl_sub i (j :: js)).symm
      · simp

end Number

/-! ## Order and grouping -/

/-- Integers have only one right answer, the exact result. -/
theorem Arithmetic.answer_ints {exact : List Int → Int} {is : List Int} {x : Except Fault Value}
    (h : Arithmetic exact (is.map .int) x) : x = .ok (.int (exact is)) :=
  (h.int_iff _).mpr ⟨is, rfl, rfl⟩

/-- A procedure that is exact on integers answers groups of them one by one as it does all of them
together, if what it computes can be computed so. -/
theorem Arithmetic.groups {op : NumericOp} {exact : List Int → Int}
    (h : ∀ args, Arithmetic exact args (op.run args))
    (hflatten : ∀ groups : List (List Int), exact groups.flatten = exact (groups.map exact))
    (groups : List (List Int)) :
    (do op.run (← groups.mapM fun is => op.run (is.map .int))) =
      op.run (groups.flatten.map .int) := by
  have hgroup : (fun is : List Int => op.run (is.map .int)) =
      fun is => pure (Value.int (exact is)) :=
    funext fun is => (h _).answer_ints
  have hvalues : groups.map (fun is => Value.int (exact is)) = (groups.map exact).map .int := by
    rw [List.map_map]
    rfl
  rw [hgroup, List.mapM_pure, pure_bind, hvalues, (h _).answer_ints, (h _).answer_ints, hflatten]

/-- What the procedures `+`, `*` and `-` answer, by the kinds of their arguments. They fail if and
only if an argument is no number, and the fault names the first of these. They give an integer if
and only if all arguments are integers, and then it is the sum, the product, or the first argument
less all others, or the negation of a single one. They give a double in all other cases. So the
order of integers does not matter to a sum or a product, nor does it matter whether groups of them
are added or multiplied first. -/
theorem arithmetic_by_kind (args : List Value) :
    Arithmetic List.sum args (NumericOp.add.run args) ∧
    Arithmetic List.prod args (NumericOp.mul.run args) ∧
    (args ≠ [] → Arithmetic Number.differenceOfInts args (NumericOp.sub.run args)) ∧
    (∀ op ∈ [NumericOp.add, .mul],
      (∀ is js : List Int, is.Perm js → op.run (is.map .int) = op.run (js.map .int)) ∧
      ∀ groups : List (List Int),
        (do op.run (← groups.mapM fun is => op.run (is.map .int))) =
          op.run (groups.flatten.map .int)) ∧
    ∀ frameText v, Fault.message frameText (.notNumber v) =
      "expected a number, got " ++ v.written frameText := by
  have hsum : ∀ args, Arithmetic List.sum args (NumericOp.add.run args) := Number.arithmetic_sum
  have hproduct : ∀ args, Arithmetic List.prod args (NumericOp.mul.run args) :=
    Number.arithmetic_product
  refine ⟨hsum args, hproduct args, Number.arithmetic_difference, fun op hop => ?_, fun _ _ => rfl⟩
  rcases List.mem_pair.mp hop with rfl | rfl
  · refine ⟨fun is js hperm => ?_, Arithmetic.groups hsum fun groups => List.sum_flatten⟩
    rw [(hsum _).answer_ints, (hsum _).answer_ints, hperm.sum_eq]
  · refine ⟨fun is js hperm => ?_, Arithmetic.groups hproduct fun groups => List.prod_flatten⟩
    rw [(hproduct _).answer_ints, (hproduct _).answer_ints, hperm.prod_eq]

/-- A symbol behind a double and in front of another symbol; and three integers in another order. -/
theorem arithmetic_by_kind_mixed :
    NumericOp.sub.run [.int 7, .float 0.5, .sym "a", .sym "b"] =
      .error (.notNumber (.sym "a")) ∧
    NumericOp.sub.run [.int (-7)] = .ok (.int 7) ∧
    NumericOp.mul.run [.int 2, .int (-3), .int 5] =
      NumericOp.mul.run [.int 5, .int 2, .int (-3)] := by
  have hfault := (arithmetic_by_kind [.int 7, .float 0.5, .sym "a", .sym "b"]).2.2.1 (by simp)
  have hnegation := (arithmetic_by_kind [.int (-7)]).2.2.1 (by simp)
  obtain ⟨-, -, -, hop, -⟩ := arithmetic_by_kind []
  exact ⟨(hfault.fails_iff _).mpr ⟨_, rfl, rfl⟩, (hnegation.int_iff _).mpr ⟨[-7], rfl, rfl⟩,
    (hop .mul (by simp)).1 [2, -3, 5] [5, 2, -3] (by decide)⟩

end Scheme
