import Mathlib.Algebra.BigOperators.Group.List.Basic
import Mathlib.Data.Int.ModEq
import Mathlib.Tactic.Linarith
import Scheme.Proofs.Numbers.Doubles

/-!
# Division

There are two remainders of integers that differ from the dividend by a multiple of the divisor and
are smaller than the divisor: one has the sign of the dividend (`Truncates`) and one that of the
divisor (`Floors`). Two such numbers that are not of opposite signs are the same
(`eq_of_congruent`), so each of the two is the only one of its kind. `integer_division` says that
`quotient`, `remainder` and `modulo` give them.

The procedure `/` goes from quotient to quotient and stays with integers as long as each division
comes out even. `Division` says what comes of it by the product of all divisors, and
`Division.step` is one division that comes out even; `exact_division` is the result. The divisors
are tested on their doubles there, and integers are never divided by zero (`divideBy_eq`).
-/

namespace Scheme

/-! ## Remainders -/

/-- A quotient and a remainder that is smaller than the divisor and has the sign of the dividend. -/
structure Truncates (a b q r : Int) : Prop where
  eq : a = b * q + r
  small : r.natAbs < b.natAbs
  sign : r = 0 ∨ r.sign = a.sign

/-- A remainder that is smaller than the divisor and has its sign. -/
structure Floors (a b m : Int) : Prop where
  congruent : m ≡ a [ZMOD b]
  small : m.natAbs < b.natAbs
  sign : m = 0 ∨ m.sign = b.sign

theorem sign_eq_of_neg_iff {x y : Int} (hx : x ≠ 0) (hy : y ≠ 0) (h : x < 0 ↔ y < 0) :
    x.sign = y.sign := by
  by_cases hneg : y < 0
  · rw [Int.sign_eq_neg_one_of_neg hneg, Int.sign_eq_neg_one_of_neg (h.mpr hneg)]
  · rw [Int.sign_eq_one_of_pos (by omega), Int.sign_eq_one_of_pos (by omega)]

/-- Integers of one sign, zeros aside, lie on the same side of zero. -/
theorem nonneg_or_nonpos_of_sign {x y s : Int} (hx : x = 0 ∨ x.sign = s) (hy : y = 0 ∨ y.sign = s) :
    0 ≤ x ∧ 0 ≤ y ∨ x ≤ 0 ∧ y ≤ 0 := by
  rcases hx with rfl | rfl
  · omega
  rcases hy with rfl | hy
  · omega
  rcases lt_trichotomy x 0 with hneg | rfl | hpos
  · rw [Int.sign_eq_neg_one_of_neg hneg, Int.sign_eq_neg_one_iff_neg] at hy
    omega
  · omega
  · rw [Int.sign_eq_one_of_pos hpos, Int.sign_eq_one_iff_pos] at hy
    omega

/-- Congruent numbers that are smaller than the modulus and not of opposite signs are the same. -/
theorem eq_of_congruent {b x y s : Int} (h : b ∣ x - y) (hx : x.natAbs < b.natAbs)
    (hy : y.natAbs < b.natAbs) (hxs : x = 0 ∨ x.sign = s) (hys : y = 0 ∨ y.sign = s) : x = y := by
  have hsmall : (x - y).natAbs < b.natAbs := by
    rcases nonneg_or_nonpos_of_sign hxs hys with hnonneg | hnonpos <;> omega
  exact Int.sub_eq_zero.mp (Int.eq_zero_of_dvd_of_natAbs_lt_natAbs h hsmall)

/-- There is only one quotient with a remainder of the sign of the dividend. -/
theorem Truncates.unique {a b q r q' r' : Int} (h : Truncates a b q r) (h' : Truncates a b q' r') :
    q' = q ∧ r' = r := by
  have hb : b ≠ 0 := by
    have := h.small
    omega
  have hdvd : b ∣ r' - r := ⟨q - q', by linarith [h.eq, h'.eq]⟩
  have hr : r' = r := eq_of_congruent hdvd h'.small h.small h'.sign h.sign
  have hq : b * q' = b * q := by linarith [h.eq, h'.eq]
  exact ⟨Int.eq_of_mul_eq_mul_left hb hq, hr⟩

/-- There is only one remainder of the sign of the divisor. -/
theorem Floors.unique {a b m m' : Int} (h : Floors a b m) (h' : Floors a b m') : m' = m :=
  eq_of_congruent (h.congruent.trans h'.congruent.symm).dvd h'.small h.small h'.sign h.sign

theorem natAbs_tmod_lt (a : Int) {b : Int} (hb : b ≠ 0) : (a.tmod b).natAbs < b.natAbs := by
  rw [Int.natAbs_tmod]
  exact Nat.mod_lt _ (Int.natAbs_pos.mpr hb)

/-- The quotient towards zero leaves a remainder of the sign of the dividend. -/
theorem truncates_tdiv (a : Int) {b : Int} (hb : b ≠ 0) : Truncates a b (a.tdiv b) (a.tmod b) where
  eq := (Int.mul_tdiv_add_tmod a b).symm
  small := natAbs_tmod_lt a hb
  sign := by
    rw [Int.sign_tmod]
    split
    · next h => exact .inl (Int.tmod_eq_zero_of_dvd h)
    · exact .inr rfl

theorem tmod_modEq (a b : Int) : a.tmod b ≡ a [ZMOD b] :=
  Int.modEq_iff_dvd.mpr Int.dvd_self_sub_tmod

/-- The modulus has the sign of the divisor, and its distance from the dividend is a multiple of
it. -/
theorem floors_modulo (a : Int) {b : Int} (hb : b ≠ 0) : Floors a b (Number.modulo a b) := by
  have hsmall := natAbs_tmod_lt a hb
  have hmod := tmod_modEq a b
  unfold Number.modulo
  dsimp only
  generalize a.tmod b = r at hsmall hmod ⊢
  split
  · next h =>
    -- The remainder and the divisor have opposite signs, and their sum lies between them.
    refine ⟨Int.add_modulus_modEq_iff.mpr hmod, by omega, .inr (sign_eq_of_neg_iff ?_ hb ?_)⟩
    · omega
    · omega
  · next h =>
    refine ⟨hmod, hsmall, ?_⟩
    by_cases hr : r = 0
    · exact .inl hr
    · exact .inr (sign_eq_of_neg_iff hr hb (by omega))

theorem floors_fmod (a : Int) {b : Int} (hb : b ≠ 0) : Floors a b (a.fmod b) := by
  have hmod : a.fmod b ≡ a [ZMOD b] := Int.modEq_iff_dvd.mpr Int.dvd_self_sub_fmod
  have hlow := Int.emod_nonneg a hb
  have hhigh := Int.emod_lt a hb
  have hzero := Int.dvd_iff_emod_eq_zero (a := b) (b := a)
  rw [Int.fmod_eq_emod] at hmod ⊢
  refine ⟨hmod, by split <;> omega, ?_⟩
  by_cases hr : a % b = 0
  · left
    rw [if_pos (.inr (hzero.mpr hr)), hr]
    rfl
  · right
    refine sign_eq_of_neg_iff ?_ hb ?_ <;> split <;> omega

/-- The modulus is the remainder of the division that rounds down. -/
theorem modulo_eq_fmod (a : Int) {b : Int} (hb : b ≠ 0) : Number.modulo a b = a.fmod b :=
  (floors_fmod a hb).unique (floors_modulo a hb)

/-- The three procedures on integers differ only in what they compute. -/
theorem dividend_bind (f : Int → Int → Int) (a b : Int) :
    (do let (a, b) ← Number.dividend [.int a, .int b]; return Value.int (f a b)) =
      if b = 0 then .error .divisionByZero else .ok (.int (f a b)) := by
  by_cases hb : b = 0
  · subst hb
    rfl
  · have hok : Number.dividend [.int a, .int b] = .ok (a, b) := by
      change (if b = 0 then _ else _) = _
      rw [if_neg hb]
      rfl
    rw [hok, if_neg hb]
    rfl

theorem dividend_bind_eq_error_iff (f : Int → Int → Int) (a b : Int) (e : Fault) :
    (do let (a, b) ← Number.dividend [.int a, .int b]; return Value.int (f a b)) = .error e ↔
      b = 0 ∧ e = .divisionByZero := by
  rw [dividend_bind]
  by_cases hb : b = 0 <;> simp [hb, eq_comm]

/-- The procedures `quotient`, `remainder` and `modulo` on integers fail if and only if the divisor
is zero, and say so. Otherwise the first two give the only quotient and remainder of which the
remainder is smaller than the divisor and has the sign of the dividend, and the third gives the only
number that is congruent to the dividend, smaller than the divisor and of the divisor's sign, which
is the remainder of the division that rounds down. -/
theorem integer_division (a b : Int) :
    (∀ op ∈ [NumericOp.quotient, .remainder, .modulo], ∀ e,
      op.run [.int a, .int b] = .error e ↔ b = 0 ∧ e = .divisionByZero) ∧
    (∀ frameText, Fault.message frameText .divisionByZero = "division by zero") ∧
    (b ≠ 0 → ∃ q r m,
      NumericOp.quotient.run [.int a, .int b] = .ok (.int q) ∧
      NumericOp.remainder.run [.int a, .int b] = .ok (.int r) ∧
      NumericOp.modulo.run [.int a, .int b] = .ok (.int m) ∧
      (∀ q' r', Truncates a b q' r' ↔ q' = q ∧ r' = r) ∧
      (∀ m', Floors a b m' ↔ m' = m) ∧ m = a.fmod b) := by
  refine ⟨?_, fun _ => rfl, fun hb => ?_⟩
  · simp only [List.mem_cons, List.not_mem_nil, or_false]
    rintro op (rfl | rfl | rfl) e
    · exact dividend_bind_eq_error_iff Number.quotient a b e
    · exact dividend_bind_eq_error_iff Number.remainder a b e
    · exact dividend_bind_eq_error_iff Number.modulo a b e
  · have htruncates := truncates_tdiv a hb
    have hfloors := floors_modulo a hb
    have hrun : ∀ f : Int → Int → Int,
        (do let (a, b) ← Number.dividend [.int a, .int b]; return Value.int (f a b)) =
          .ok (.int (f a b)) := fun f => (dividend_bind f a b).trans (if_neg hb)
    refine ⟨_, _, _, hrun Number.quotient, hrun Number.remainder, hrun Number.modulo,
      fun q' r' => ⟨htruncates.unique, ?_⟩, fun m' => ⟨hfloors.unique, ?_⟩, modulo_eq_fmod a hb⟩
    · rintro ⟨rfl, rfl⟩
      exact htruncates
    · rintro rfl
      exact hfloors

/-- A negative divisor that leaves a remainder, and division by zero. -/
theorem integer_division_negative :
    NumericOp.modulo.run [.int 7, .int 0] = .error .divisionByZero ∧
    NumericOp.quotient.run [.int 7, .int (-2)] = .ok (.int (-3)) ∧
    NumericOp.remainder.run [.int 7, .int (-2)] = .ok (.int 1) ∧
    NumericOp.modulo.run [.int 7, .int (-2)] = .ok (.int (-1)) := by
  obtain ⟨q, r, m, hq, hr, hm, htruncates, hfloors, -⟩ :=
    (integer_division 7 (-2)).2.2 (by decide)
  obtain ⟨rfl, rfl⟩ := (htruncates (-3) 1).mp ⟨by decide, by decide, by decide⟩
  obtain rfl := (hfloors (-1)).mp ⟨by decide, by decide, by decide⟩
  exact ⟨((integer_division 7 0).1 .modulo (by simp) _).mpr ⟨rfl, rfl⟩, hq, hr, hm⟩

/-! ## Exact quotients -/

namespace Number

theorem isZero_int {i : Int} (h : i ≠ 0) : isZero (.int i) = .ok false :=
  congrArg Except.ok (beq_false_of_ne h)

/-- The quotient of integers is an integer where it is exact, and a double elsewhere. -/
theorem divide_ints (x y : Int) :
    divide (.int x) (.int y) =
      if y = 0 then .error .divisionByZero
      else if y ∣ x then .ok (.int (x / y))
      else .ok (.float (Double.ofInt x / Double.ofInt y)) := by
  by_cases hy : y = 0
  · subst hy
    rfl
  · rw [divide, isZero_int hy, if_neg hy]
    change (if x.tmod y = 0 then _ else _) = _
    simp only [← Int.dvd_iff_tmod_eq_zero]
    split
    · next h =>
      rw [Int.tdiv_eq_ediv_of_dvd h]
      rfl
    · rfl

/-- A double is divided by the double of an integer, unless that integer is zero. -/
theorem divide_float (x : Float) (y : Int) :
    divide (.float x) (.int y) =
      if y = 0 then .error .divisionByZero else .ok (.float (x / Double.ofInt y)) := by
  by_cases hy : y = 0
  · subst hy
    rfl
  · unfold divide
    rw [isZero_int hy, if_neg hy]
    rfl

/-- Once a quotient is a double, the others are. -/
theorem foldlM_divide_float (x : Float) (bs : List Int) :
    (0 ∈ bs → (bs.map Value.int).foldlM divide (.float x) = .error .divisionByZero) ∧
      (0 ∉ bs → ∃ f, (bs.map Value.int).foldlM divide (.float x) = .ok (.float f)) := by
  induction bs generalizing x with
  | nil => exact ⟨fun h => absurd h List.not_mem_nil, fun _ => ⟨x, rfl⟩⟩
  | cons b bs ih =>
    rw [List.map_cons, List.foldlM_cons, divide_float]
    by_cases hb : b = 0
    · subst hb
      exact ⟨fun _ => rfl, fun h => absurd List.mem_cons_self h⟩
    · rw [if_neg hb, List.mem_cons, or_iff_right (Ne.symm hb)]
      exact ih (x / Double.ofInt b)

end Number

/-- What becomes of an integer that is divided by one integer after the other: a fault if one of
them is zero, an integer if their product divides it, and a double otherwise. -/
structure Division (a : Int) (bs : List Int) (x : Except Fault Value) : Prop where
  fails_iff : ∀ e, x = .error e ↔ 0 ∈ bs ∧ e = .divisionByZero
  int_iff : ∀ i, x = .ok (.int i) ↔ 0 ∉ bs ∧ a = bs.prod * i
  float_iff : (∃ f, x = .ok (.float f)) ↔ 0 ∉ bs ∧ ¬bs.prod ∣ a

namespace Division

variable {a b c : Int} {bs : List Int} {x : Except Fault Value}

theorem undivided (a : Int) : Division a [] (.ok (.int a)) := by
  refine ⟨fun e => ?_, fun i => ?_, ?_⟩ <;> simp

theorem of_zero (h : 0 ∈ bs) : Division a bs (.error .divisionByZero) := by
  refine ⟨fun e => ?_, fun i => ?_, ?_⟩ <;> simp [h, eq_comm]

theorem inexact (h : 0 ∉ bs) (ha : ¬bs.prod ∣ a) (f : Float) : Division a bs (.ok (.float f)) := by
  refine ⟨fun e => ?_, fun i => ?_, ?_⟩
  · simp [h]
  · simp only [Except.ok.injEq, reduceCtorEq, false_iff]
    rintro ⟨-, rfl⟩
    exact ha (dvd_mul_right _ _)
  · simp [h, ha]

/-- The first division comes out even. -/
theorem step (hb : b ≠ 0) (h : Division c bs x) : Division (b * c) (b :: bs) x := by
  have hmem : 0 ∈ b :: bs ↔ 0 ∈ bs := by simp [Ne.symm hb]
  refine ⟨fun e => ?_, fun i => ?_, ?_⟩
  · rw [h.fails_iff, hmem]
  · rw [h.int_iff, hmem, List.prod_cons, mul_assoc, Int.mul_eq_mul_left_iff hb]
  · rw [h.float_iff, hmem, List.prod_cons, Int.mul_dvd_mul_iff_left hb]

end Division

/-- Dividing by integers one after the other comes to what their product says. -/
theorem division_foldlM (a : Int) (bs : List Int) :
    Division a bs ((bs.map Value.int).foldlM Number.divide (.int a)) := by
  induction bs generalizing a with
  | nil => exact .undivided a
  | cons b bs ih =>
    rw [List.map_cons, List.foldlM_cons, Number.divide_ints]
    by_cases hb : b = 0
    · subst hb
      exact .of_zero List.mem_cons_self
    rw [if_neg hb]
    by_cases hdvd : b ∣ a
    · obtain ⟨c, rfl⟩ := hdvd
      rw [if_pos (Int.dvd_mul_right b c), Int.mul_ediv_cancel_left c hb]
      exact (ih c).step hb
    · rw [if_neg hdvd]
      change Division a (b :: bs)
        ((bs.map Value.int).foldlM Number.divide (.float (Double.ofInt a / Double.ofInt b)))
      obtain ⟨hfault, hfloat⟩ :=
        Number.foldlM_divide_float (Double.ofInt a / Double.ofInt b) bs
      by_cases hzero : 0 ∈ bs
      · rw [hfault hzero]
        exact .of_zero (List.mem_cons_of_mem b hzero)
      · obtain ⟨f, hf⟩ := hfloat hzero
        rw [hf]
        refine .inexact ?_ ?_ f
        · simp [Ne.symm hb, hzero]
        · exact fun h => hdvd ((Dvd.intro _ List.prod_cons.symm).trans h)

/-- The quotient of an integer by one or more others comes to what their product says. -/
theorem division_ratio (a : Int) {bs : List Int} (h : bs ≠ []) :
    Division a bs (Number.ratio ((a :: bs).map .int)) := by
  obtain ⟨b, bs, rfl⟩ := List.exists_cons_of_ne_nil h
  exact division_foldlM a (b :: bs)

/-- The quotient of two numbers, where the divisor is tested as a double and the division of
integers is left open. -/
def Number.divideBy (rem quo : Int → Int → Int) (a b : Value) : Except Fault Value := do
  if (← Arguments.number b) == 0 then throw .divisionByZero
  match a, b with
  | .int x, .int y =>
    if rem x y = 0 then return .int (quo x y)
    else return .float (Double.ofInt x / Double.ofInt y)
  | a, b =>
    let x ← Arguments.number a
    let y ← Arguments.number b
    return .float (x / y)

/-- It does not matter what the division of integers gives for the divisor zero. -/
theorem Number.divideBy_eq {rem quo : Int → Int → Int}
    (h : ∀ x y, y ≠ 0 → rem x y = x.tmod y ∧ quo x y = x.tdiv y) : divideBy rem quo = divide := by
  funext a b
  unfold divideBy divide
  rw [isZero_eq, bind_assoc]
  cases hb : Arguments.number b with
  | error e => rfl
  | ok z =>
    dsimp only [bind, Except.bind, pure, Except.pure]
    cases hz : z == 0 with
    | true => rfl
    | false =>
      -- The two differ on integers only, and there the divisor is not zero.
      cases a with
      | int x =>
        cases b with
        | int y =>
          obtain rfl := Except.ok.inj hb
          rw [Double.ofInt_beq_zero, beq_eq_false_iff_ne] at hz
          obtain ⟨hrem, hquo⟩ := h x y hz
          dsimp only
          rw [hrem, hquo]
        | _ => rfl
      | _ => rfl

/-- The procedure `/` divides an integer by one integer after the other. It fails if and only if one
of them is zero, and says so; it gives an integer if and only if their product divides the first,
and then it is the exact quotient; and it gives a double in all other cases. A single integer is
divided into 1. The divisors may be tested for zero on their doubles, and integers are never divided
by zero: whatever that would give, the answers are the same, to all arguments. -/
theorem exact_division (a : Int) (bs : List Int) (h : bs ≠ []) :
    Division a bs (NumericOp.div.run ((a :: bs).map .int)) ∧
    (∀ frameText, Fault.message frameText .divisionByZero = "division by zero") ∧
    (∀ b : Int, NumericOp.div.run [.int b] = NumericOp.div.run [.int 1, .int b]) ∧
    ∀ rem quo : Int → Int → Int, (∀ x y, y ≠ 0 → rem x y = x.tmod y ∧ quo x y = x.tdiv y) →
      ∀ args, Number.chain (Number.divideBy rem quo) (.int 1) args = NumericOp.div.run args := by
  refine ⟨division_ratio a h, fun _ => rfl, fun b => ?_, fun rem quo hdiv args => ?_⟩
  · change Number.divide (.int 1) (.int b) = [Value.int b].foldlM Number.divide (.int 1)
    rw [List.foldlM_cons]
    exact (bind_pure _).symm
  · rw [Number.divideBy_eq hdiv]
    rfl

/-- A negative divisor, a zero behind a quotient that is a double, and a division of integers that
would give 7 for the divisor zero. -/
theorem exact_division_by_zero :
    NumericOp.div.run [.int 12, .int (-2), .int 3] = .ok (.int (-2)) ∧
    (∃ f, NumericOp.div.run [.int 2, .int 4] = .ok (.float f)) ∧
    NumericOp.div.run [.int 2, .int 4, .int 0] = .error .divisionByZero ∧
    Number.chain (Number.divideBy (fun x y => if y = 0 then 7 else x.tmod y)
      fun x y => if y = 0 then 7 else x.tdiv y) (.int 1) [.int 6, .int 0] =
        .error .divisionByZero := by
  have heven := (exact_division 12 [-2, 3] (by decide)).1
  have hdouble := (exact_division 2 [4] (by decide)).1
  have hzero := (exact_division 2 [4, 0] (by decide)).1
  obtain ⟨hsix, -, -, hany⟩ := exact_division 6 [0] (by decide)
  refine ⟨(heven.int_iff _).mpr (by decide), hdouble.float_iff.mpr (by decide),
    (hzero.fails_iff _).mpr ⟨by decide, rfl⟩, ?_⟩
  rw [hany _ _ (fun x y hy => by simp [hy])]
  exact (hsix.fails_iff _).mpr ⟨by decide, rfl⟩

end Scheme
