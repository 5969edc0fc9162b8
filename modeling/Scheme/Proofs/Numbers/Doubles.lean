import Mathlib
import Scheme.Builtin.Number

/-!
# Doubles that are zero

A double is compared with zero through what its bits stand for: only the bits of the two zeros are
equal to it (`toBits_of_beq_zero`). A rounded double has, under its sign, the bits that the rounding
found, since these never go beyond infinity into those of a NaN (`toBits_nearest`), and a whole
number other than zero, however large, never goes below the leading bit
(`leadingBit_le_nearestBits`). So a whole number is zero if and only if its double is
(`ofInt_beq_zero`), and the test for a zero divisor may be made on either (`isZero_eq`).

The facts on the bits and on the comparison of doubles come with Mathlib as a whole and with no
part of it, so it is imported whole here, and nowhere else.
-/

namespace Scheme

namespace Double

open Float.Model

/-! ## Bits of a double -/

/-- The exponent of a double is in the bits behind the sign. -/
theorem toNat_unpackExponent (b : BitVec Format.binary64.numBits) :
    (UnpackedFloat.unpackExponent b).toNat = b.toNat / leadingBit % 2048 := by
  rw [UnpackedFloat.unpackExponent_def, BitVec.extractLsb'_toNat, Nat.shiftRight_eq_div_pow]
  rfl

/-- The mantissa of a double is in its last bits. -/
theorem toNat_unpackMantissa (b : BitVec Format.binary64.numBits) :
    (UnpackedFloat.unpackMantissa b).toNat = b.toNat % leadingBit := by
  rw [UnpackedFloat.unpackMantissa_def, BitVec.extractLsb'_toNat, Nat.shiftRight_zero]
  rfl

/-- The bits up to those of infinity, under either sign, are those of a number. -/
theorem isNaNBits_eq_false {b : BitVec Format.binary64.numBits}
    (h : b.toNat % signBit ≤ infinityBits) : UnpackedFloat.isNaNBits b = false := by
  rw [UnpackedFloat.isNaNBits, decide_eq_false_iff_not]
  rintro ⟨hexponent, hmantissa⟩
  have hones : b.toNat / leadingBit % 2048 = 2047 := by
    rw [← toNat_unpackExponent, hexponent]
    rfl
  refine hmantissa (BitVec.eq_of_toNat_eq ?_)
  rw [toNat_unpackMantissa]
  unfold infinityBits signBit leadingBit at *
  change _ = 0
  omega

/-- Bits that are not those of a NaN come back from the double they make. -/
theorem toBits_ofBits {b : UInt64} (h : b.toNat % signBit ≤ infinityBits) :
    (Float.ofBits b).toBits = b := by
  have hpacked := @UnpackedFloat.pack_unpack Format.binary64 b.toBitVec (by decide)
  rw [isNaNBits_eq_false h] at hpacked
  exact UInt64.toBitVec_inj.mp hpacked

/-- A double that is equal to zero has the bits of a zero, under either sign. -/
theorem toBits_of_beq_zero {f : Float} (h : f == 0) : f.toBits.toNat % signBit = 0 := by
  obtain ⟨-, -, rfl | ⟨rfl, -⟩ | ⟨rfl, -⟩⟩ := Float.beq_iff_ne_nan_and_eq.mp h <;> rfl

/-! ## Whole numbers -/

theorem nearestBits_le (n d : Nat) : nearestBits n d ≤ infinityBits := by
  unfold nearestBits
  split
  · exact Nat.zero_le _
  · exact Nat.min_le_right _ _

/-- A whole number other than zero is rounded to a double with 53 digits: the unit of its last place
is `2^-53` or more, which is far above the least one. -/
theorem leadingBit_le_nearestBits {n : Nat} (hn : 0 < n) : leadingBit ≤ nearestBits n 1 := by
  rw [nearestBits, if_neg hn.ne']
  have hlog : (1 : Nat).log2 = 0 := by decide
  refine Nat.le_min.mpr ⟨?_, by decide⟩
  refine (Nat.le_mul_of_pos_left _ ?_).trans (Nat.le_add_right _ _)
  split_ifs <;> omega

/-- Under its sign, the rounded double has the bits that the rounding found. -/
theorem toBits_nearest (negative : Bool) (n d : Nat) :
    (nearest negative n d).toBits.toNat % signBit = nearestBits n d := by
  have hle : nearestBits n d ≤ infinityBits := nearestBits_le n d
  have hbits : (UInt64.ofNat (if negative then signBit + nearestBits n d
      else nearestBits n d)).toNat % signBit = nearestBits n d := by
    rw [UInt64.toNat_ofNat']
    unfold infinityBits leadingBit signBit at *
    split <;> omega
  rw [nearest, toBits_ofBits (hbits.trans_le hle), hbits]

theorem cutToWord_pos {n : Nat} (hn : 0 < n) : 0 < cutToWord n := by
  unfold cutToWord
  dsimp only
  split
  · exact hn
  · have hunit : Nat.pow 2 (n.log2 + 1 - 64) ≤ n :=
      (Nat.pow_le_pow_right (by decide) (by omega)).trans (Nat.log2_self_le hn.ne')
    have hlead : 0 < n / Nat.pow 2 (n.log2 + 1 - 64) := Nat.div_pos hunit (Nat.two_pow_pos _)
    refine Nat.mul_pos ?_ (Nat.two_pow_pos _)
    split <;> omega

/-- A whole number is zero if and only if it is as a double. -/
theorem ofInt_beq_zero (i : Int) : (ofInt i == 0) = (i == 0) := by
  by_cases hi : i = 0
  · subst hi
    rfl
  · rw [beq_false_of_ne hi, Bool.eq_false_iff]
    intro hzero
    have hbits : nearestBits (cutToWord i.natAbs) 1 = 0 :=
      (toBits_nearest _ _ _).symm.trans (toBits_of_beq_zero hzero)
    have hlow : leadingBit ≤ nearestBits (cutToWord i.natAbs) 1 :=
      leadingBit_le_nearestBits (cutToWord_pos (Int.natAbs_pos.mpr hi))
    rw [hbits] at hlow
    exact absurd hlow (by decide)

end Double

/-- The test for zero, made on the double. -/
theorem Number.isZero_eq (v : Value) :
    isZero v = do return (← Arguments.number v) == 0 := by
  cases v with
  | int i => exact congrArg Except.ok (Double.ofInt_beq_zero i).symm
  | _ => rfl

end Scheme
