import Mathlib.Data.Nat.Log
import Mathlib.Tactic.Ring
import Scheme.Decimal.Shortest

/-!
# The shortest decimal of a double

The reals that round to a double lie in an `Interval` around it. The search takes the first grid of
decimals that has a point in the interval, and seventeen digits are always enough
(`seventeen_digits`): the spacing of that grid is below the width of the interval, on either side of
the double.

What is found lies in the interval (`shortest_eq`). The only whole number in an interval is the
double itself (`eq_of_contains_whole`), so the decimal of a double that is no whole number has a
digit behind the point (`exponent_neg_of_not_whole`). A whole number from `10^16` on has at least
seventeen digits in front of the point, so its decimal has none behind it
(`exponent_nonneg_of_large`).
-/

namespace Scheme.Decimal

/-! ## Counting digits -/

/-- A number has at most so many digits if and only if it is below that power of ten. -/
theorem digitCount_le_iff {n k : Nat} (hk : 0 < k) : digitCount n ≤ k ↔ n < 10 ^ k :=
  Nat.length_toDigits_le_iff (by decide) hk

theorem lt_digitCount_iff {n k : Nat} (hk : 0 < k) : k < digitCount n ↔ 10 ^ k ≤ n := by
  rw [← Nat.not_le, digitCount_le_iff hk, Nat.not_lt]

namespace Interval

/-! ## Intervals -/

/-- The width of one quarter of the last place, in units. -/
def quarter (e : Int) : Nat := Nat.pow 2 (e + 1074).toNat * Nat.pow 5 1076

/-- The number of decimal places that the units have. It is not unfolded, as no power with this
exponent is to be computed. -/
@[irreducible]
def places : Nat := 1076

theorem places_eq : places = 1076 := by
  unfold places
  rfl

theorem quarter_eq (e : Int) : quarter e = 2 ^ (e + 1074).toNat * 5 ^ places := by
  rw [quarter, ← places_eq]
  rfl

/-- A quarter of the last place is at least `10^17` units. -/
theorem quarter_ge (e : Int) : 10 ^ 17 ≤ quarter e := by
  have hplaces : 30 ≤ places := by
    rw [places_eq]
    decide
  rw [quarter_eq]
  calc 10 ^ 17 ≤ 5 ^ 30 := by decide
    _ ≤ 5 ^ places := Nat.pow_le_pow_right (by decide) hplaces
    _ ≤ 2 ^ (e + 1074).toNat * 5 ^ places := Nat.le_mul_of_pos_left _ (Nat.two_pow_pos _)

theorem contains_of_lt {i : Interval} {x : Nat} (hl : i.lower < x) (hu : x < i.upper) :
    i.contains x = true := by
  unfold contains
  split <;> simp [hl, hu, hl.le, hu.le]

theorem le_of_contains {i : Interval} {x : Nat} (h : i.contains x = true) :
    i.lower ≤ x ∧ x ≤ i.upper := by
  unfold contains at h
  split at h <;> simp only [Bool.and_eq_true, decide_eq_true_eq] at h
  · exact h
  · exact ⟨h.1.le, h.2.le⟩

/-- The nearest point of a grid is found only if it is in the interval. -/
theorem contains_of_nearestOn {i : Interval} {unit q : Nat} (h : i.nearestOn unit = some q) :
    i.contains (q * unit) = true := by
  unfold nearestOn at h
  dsimp only at h
  split at h
  · next hq hs =>
    obtain rfl := Option.some.inj h
    split
    · exact hq
    · exact hs
  · next hq _ =>
    obtain rfl := Option.some.inj h
    exact hq
  · next _ hs =>
    obtain rfl := Option.some.inj h
    exact hs
  · cases h

/-- A grid with a neighbour of the value in the interval has a nearest point. -/
theorem nearestOn_ne_none {i : Interval} {unit : Nat}
    (h : i.contains (i.value / unit * unit) = true ∨
      i.contains ((i.value / unit + 1) * unit) = true) : i.nearestOn unit ≠ none := by
  unfold nearestOn
  dsimp only
  rcases h with h | h
  · rw [h]
    split <;> simp_all
  · rw [h]
    split <;> simp_all

/-- A grid whose spacing is less than twice the distance to the nearer end of the interval has a
point in it. -/
theorem nearestOn_of_spacing {i : Interval} {unit : Nat} (hunit : 0 < unit)
    (hl : 2 * i.lower + unit < 2 * i.value) (hu : 2 * i.value + unit < 2 * i.upper) :
    i.nearestOn unit ≠ none := by
  have hdiv : i.value / unit * unit + i.value % unit = i.value := Nat.div_add_mod' _ _
  have hmod : i.value % unit < unit := Nat.mod_lt _ hunit
  refine nearestOn_ne_none ?_
  rw [Nat.add_mul, Nat.one_mul]
  rcases Nat.lt_or_ge unit (2 * (i.value % unit)) with hr | hr
  · exact .inr (contains_of_lt (by omega) (by omega))
  · exact .inl (contains_of_lt (by omega) (by omega))

theorem value_ofDouble (m : Nat) (e : Int) : (ofDouble m e).value = 4 * m * quarter e := rfl

/-- The upper end lies half a last place above the value. -/
theorem upper_ofDouble (m : Nat) (e : Int) :
    (ofDouble m e).upper = (ofDouble m e).value + 2 * quarter e := by
  rw [value_ofDouble, ← Nat.add_mul]
  rfl

/-- The lower end lies half a last place below the value, or a quarter where the places become
narrower. -/
theorem lower_ofDouble {m : Nat} (hm : 0 < m) (e : Int) :
    (ofDouble m e).lower + (if m = Double.leadingBit then 1 else 2) * quarter e =
      (ofDouble m e).value := by
  rw [value_ofDouble, ofDouble, quarter]
  dsimp only
  rw [← Nat.add_mul]
  congr 1
  split <;> omega

end Interval

open Decimal.Interval

/-! ## Seventeen digits -/

/-- The value of a double other than zero has more than seventeen digits, counted in units. -/
theorem seventeen_lt_digitCount {m : Nat} (hm : 0 < m) (e : Int) :
    17 < digitCount (ofDouble m e).value := by
  rw [lt_digitCount_iff (by decide), value_ofDouble]
  exact (quarter_ge e).trans (Nat.le_mul_of_pos_left _ (by omega))

/-- The grid with seventeen digits has a point in the interval of every double. -/
theorem seventeen_digits {m : Nat} (hm : 0 < m) (hlt : m < 2 * Double.leadingBit) (e : Int) :
    (ofDouble m e).nearestOn (10 ^ (digitCount (ofDouble m e).value - 17)) ≠ none := by
  have hcount := seventeen_lt_digitCount hm e
  have hlower := lower_ofDouble hm e
  have hupper := upper_ofDouble m e
  have hvalue := value_ofDouble m e
  -- The value has sixteen more digits than the spacing, and the mantissa has 53 binary digits.
  have hpow : 10 ^ 16 * 10 ^ (digitCount (ofDouble m e).value - 17) ≤ (ofDouble m e).value := by
    rw [← Nat.pow_add]
    exact (lt_digitCount_iff (by omega)).mp (by omega)
  have hspacing : 0 < 10 ^ (digitCount (ofDouble m e).value - 17) := Nat.pow_pos (by decide)
  generalize 10 ^ (digitCount (ofDouble m e).value - 17) = g at hpow hspacing ⊢
  have hwidth : 2 ^ 53 * g < (ofDouble m e).value := by
    refine Nat.lt_of_lt_of_le ?_ hpow
    exact Nat.mul_lt_mul_of_pos_right (by decide) hspacing
  unfold Double.leadingBit at hlt hlower
  split at hlower
  · next hbinade =>
    subst hbinade
    exact nearestOn_of_spacing hspacing (by omega) (by omega)
  · have hbound : (ofDouble m e).value ≤ 2 ^ 55 * quarter e := by
      rw [hvalue]
      exact Nat.mul_le_mul_right _ (by omega)
    exact nearestOn_of_spacing hspacing (by omega) (by omega)

/-! ## The search -/

/-- A search that reaches a grid with a point in the interval ends there or before. -/
theorem search_eq {i : Interval} {size c : Nat} (fuel count : Nat) (hc : count ≤ c)
    (hfuel : c < count + fuel) (h : i.nearestOn (Nat.pow 10 (size - c)) ≠ none) :
    ∃ k ≤ c, ∃ q, i.nearestOn (Nat.pow 10 (size - k)) = some q ∧
      search i size fuel count = ⟨q, (size - k : Nat) - 1076⟩ := by
  induction fuel generalizing count with
  | zero => omega
  | succ fuel ih =>
    rw [search]
    split
    · next q hq => exact ⟨count, hc, q, hq, rfl⟩
    · next hnone =>
      have hne : count ≠ c := by
        rintro rfl
        exact h hnone
      exact ih _ (by omega) (by omega)

/-- The shortest decimal of a double is a point of a grid with at most seventeen digits. -/
theorem shortest_eq {m : Nat} (hm : 0 < m) (hlt : m < 2 * Double.leadingBit) (e : Int) :
    ∃ k ≤ 17, ∃ q,
      (ofDouble m e).contains (q * 10 ^ (digitCount (ofDouble m e).value - k)) = true ∧
        shortest m e = ⟨q, (digitCount (ofDouble m e).value - k : Nat) - 1076⟩ := by
  obtain ⟨k, hk, q, hq, heq⟩ := search_eq 17 1 (c := 17) (by decide) (by decide)
    (seventeen_digits hm hlt e)
  exact ⟨k, hk, q, contains_of_nearestOn hq, heq⟩

/-! ## Zeros at the end -/

/-- Dropping zeros never lowers the exponent. -/
theorem exponent_le_trimmed (fuel : Nat) (d : Decimal) :
    d.exponent ≤ (d.trimmed fuel).exponent := by
  induction fuel generalizing d with
  | zero => exact le_rfl
  | succ fuel ih =>
    rw [trimmed]
    split
    · exact (Int.le_add_of_nonneg_right (by decide)).trans (ih _)
    · exact le_rfl

/-- Dropping zeros does not change the number: what is gained in the exponent is lost in the
digits. -/
theorem digits_eq_trimmed (fuel : Nat) (d : Decimal) :
    d.digits = (d.trimmed fuel).digits * 10 ^ ((d.trimmed fuel).exponent - d.exponent).toNat := by
  induction fuel generalizing d with
  | zero => simp [trimmed]
  | succ fuel ih =>
    rw [trimmed]
    split
    · next hzero =>
      have hrest := ih ⟨d.digits / 10, d.exponent + 1⟩
      have hle := exponent_le_trimmed fuel ⟨d.digits / 10, d.exponent + 1⟩
      generalize trimmed fuel ⟨d.digits / 10, d.exponent + 1⟩ = t at hrest hle ⊢
      dsimp only at hle hrest
      have hexp : (t.exponent - d.exponent).toNat = (t.exponent - (d.exponent + 1)).toNat + 1 := by
        omega
      rw [hexp, Nat.pow_succ, ← Nat.mul_assoc, ← hrest]
      omega
    · simp

/-! ## Whole numbers -/

theorem scale_eq {a b c n : Nat} (h : 2 + b + c = a + n) :
    4 * 2 ^ c * (2 ^ b * 5 ^ n) = 2 ^ a * 10 ^ n := by
  have hten : 10 ^ n = 2 ^ n * 5 ^ n := by rw [← Nat.mul_pow]
  calc 4 * 2 ^ c * (2 ^ b * 5 ^ n) = 2 ^ (2 + b + c) * 5 ^ n := by
        rw [Nat.pow_add, Nat.pow_add]
        ring
    _ = 2 ^ a * 10 ^ n := by rw [h, Nat.pow_add, hten, Nat.mul_assoc]

/-- With a negative exponent, as many last places as the power of two says make one. -/
theorem quarter_of_neg {e : Int} (hlow : -1074 ≤ e) (hneg : e < 0) :
    4 * 2 ^ (-e).toNat * quarter e = 10 ^ places := by
  have h := scale_eq (a := 0) (b := (e + 1074).toNat) (c := (-e).toNat) (n := places)
    (by rw [places_eq]; omega)
  rwa [Nat.pow_zero, Nat.one_mul, ← quarter_eq] at h

/-- With any other exponent, the last place is that power of two. -/
theorem quarter_of_nonneg {e : Int} (h : 0 ≤ e) : 4 * quarter e = 2 ^ e.toNat * 10 ^ places := by
  have h := scale_eq (a := e.toNat) (b := (e + 1074).toNat) (c := 0) (n := places)
    (by rw [places_eq]; omega)
  rwa [Nat.pow_zero, Nat.mul_one, ← quarter_eq] at h

theorem whole?_eq_some {negative : Bool} {m n : Nat} {e : Int}
    (h : (Double.finite negative m e).whole? = some n) :
    0 ≤ e ∧ n = m * 2 ^ e.toNat ∨ e < 0 ∧ m = n * 2 ^ (-e).toNat := by
  simp only [Double.whole?, Nat.pow_eq] at h
  split at h
  · next he => exact .inl ⟨he, (Option.some.inj h).symm⟩
  · next he =>
    split at h
    · next hmod =>
      obtain rfl := Option.some.inj h
      exact .inr ⟨by omega, (Nat.div_mul_cancel (Nat.dvd_of_mod_eq_zero hmod)).symm⟩
    · cases h

/-- In units, a whole number is followed by as many zeros as there are places. -/
theorem value_of_whole {negative : Bool} {m n : Nat} {e : Int} (hlow : -1074 ≤ e)
    (h : (Double.finite negative m e).whole? = some n) :
    (ofDouble m e).value = n * 10 ^ places := by
  rw [value_ofDouble, Nat.mul_comm 4 m, Nat.mul_assoc]
  rcases whole?_eq_some h with ⟨he, rfl⟩ | ⟨he, rfl⟩
  · rw [quarter_of_nonneg he, Nat.mul_assoc]
  · rw [Nat.mul_assoc, ← Nat.mul_assoc (2 ^ _), Nat.mul_comm (2 ^ _) 4, quarter_of_neg hlow he]

/-- A double that is no whole number has a negative exponent, by which its mantissa is not
divisible. -/
theorem whole?_eq_none {negative : Bool} {m : Nat} {e : Int}
    (h : (Double.finite negative m e).whole? = none) : e < 0 ∧ ¬2 ^ (-e).toNat ∣ m := by
  simp only [Double.whole?, Nat.pow_eq] at h
  split at h
  · cases h
  · next he =>
    split at h
    · cases h
    · next hmod => exact ⟨by omega, fun hdvd => hmod (Nat.mod_eq_zero_of_dvd hdvd)⟩

/-- The only whole number that rounds to a double with a unit below one is the double itself: two
numbers of its grid are at least a whole unit apart. -/
theorem eq_of_contains_whole {m k : Nat} {e : Int} (hm : 0 < m) (hlow : -1074 ≤ e) (hneg : e < 0)
    (h : (ofDouble m e).contains (k * 10 ^ places) = true) : m = k * 2 ^ (-e).toNat := by
  obtain ⟨hl, hu⟩ := le_of_contains h
  have hlower := lower_ofDouble hm e
  have hpos : 0 < quarter e := Nat.lt_of_lt_of_le (by decide) (quarter_ge e)
  rw [upper_ofDouble] at hu
  rw [value_ofDouble] at hlower hu
  rw [← quarter_of_neg hlow hneg, ← Nat.mul_assoc] at hl hu
  have hle : 4 * m * quarter e ≤ (k * (4 * 2 ^ (-e).toNat) + 2) * quarter e := by
    rw [Nat.add_mul]
    split at hlower <;> omega
  have hge : k * (4 * 2 ^ (-e).toNat) * quarter e ≤ (4 * m + 2) * quarter e := by
    rw [Nat.add_mul]
    exact hu
  have hle := Nat.le_of_mul_le_mul_right hle hpos
  have hge := Nat.le_of_mul_le_mul_right hge hpos
  rw [Nat.mul_left_comm] at hle hge
  omega

/-- The decimal of a double that is no whole number has digits behind the point. -/
theorem exponent_neg_of_not_whole {negative : Bool} {m : Nat} {e : Int}
    (hlt : m < 2 * Double.leadingBit) (hlow : -1074 ≤ e)
    (h : (Double.finite negative m e).whole? = none) :
    ((shortest m e).trimmed 17).exponent < 0 := by
  obtain ⟨hneg, hdvd⟩ := whole?_eq_none h
  have hm : 0 < m := Nat.pos_of_ne_zero fun h0 => hdvd (h0 ▸ Nat.dvd_zero _)
  obtain ⟨k, -, q, hq, heq⟩ := shortest_eq hm hlt e
  have hdigits := digits_eq_trimmed 17 (shortest m e)
  have hexponent := exponent_le_trimmed 17 (shortest m e)
  by_contra hnonneg
  generalize (shortest m e).trimmed 17 = t at hdigits hexponent hnonneg
  rw [heq] at hdigits hexponent
  dsimp only at hdigits hexponent
  refine hdvd ⟨t.digits * 10 ^ t.exponent.toNat, ?_⟩
  rw [Nat.mul_comm]
  refine eq_of_contains_whole hm hlow hneg ?_
  rw [hdigits, Nat.mul_assoc, ← Nat.pow_add] at hq
  rw [Nat.mul_assoc, ← Nat.pow_add]
  convert hq using 4
  rw [places_eq]
  omega

/-- The decimal of a whole number with at least seventeen digits has none behind the point. -/
theorem exponent_nonneg_of_large {negative : Bool} {m n : Nat} {e : Int}
    (hlt : m < 2 * Double.leadingBit) (hlow : -1074 ≤ e)
    (h : (Double.finite negative m e).whole? = some n) (hn : 10 ^ 16 ≤ n) :
    0 ≤ ((shortest m e).trimmed 17).exponent := by
  have hvalue := value_of_whole hlow h
  have hm : 0 < m := by
    refine Nat.pos_of_ne_zero ?_
    rintro rfl
    rcases whole?_eq_some h with ⟨-, rfl⟩ | ⟨-, hzero⟩
    · simp at hn
    · have := Nat.two_pow_pos (-e).toNat
      simp_all
  obtain ⟨k, hk, q, -, heq⟩ := shortest_eq hm hlt e
  have hsize : 16 + places < digitCount (ofDouble m e).value := by
    rw [lt_digitCount_iff (by omega), hvalue, Nat.pow_add]
    exact Nat.mul_le_mul_right _ hn
  refine le_trans ?_ (exponent_le_trimmed 17 _)
  rw [places_eq] at hsize
  rw [heq]
  dsimp only
  omega

end Scheme.Decimal
