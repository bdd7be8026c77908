/-
Module: MonoRuntime.Lib.WordDivision
Purpose: Divisions of words by powers of two as shifts and masks. A signed dividend takes a bias first, so that the shift
  rounds towards zero.
Trusted boundary: none
Main exports: umod_twoPow
-/
import Mathlib.Algebra.Order.Ring.Int

namespace MonoRuntime.WordDivision

open BitVec

variable {w p : Nat} {x bias : BitVec w}

/-- The remainder of a division by a power of two is what the bits below it hold. -/
theorem umod_twoPow (small : p < w) : x % BitVec.twoPow w p = x &&& (BitVec.twoPow w p - 1#w) := by
  have fits : 2 ^ p < 2 ^ w := Nat.pow_lt_pow_right (by decide) small
  have positive := Nat.two_pow_pos p
  have mask : (BitVec.twoPow w p - 1#w).toNat = 2 ^ p - 1 := by
    rw [toNat_sub, toNat_twoPow_of_lt small, BitVec.toNat_ofNat, Nat.mod_eq_of_lt (by omega : 1 < 2 ^ w)]
    rw [show 2 ^ w - 1 + 2 ^ p = 2 ^ p - 1 + 2 ^ w by omega, Nat.add_mod_right, Nat.mod_eq_of_lt (by omega)]
  apply eq_of_toNat_eq
  rw [toNat_umod, toNat_twoPow_of_lt small, toNat_and, mask, Nat.and_two_pow_sub_one_eq_mod]

/-- What a dividend takes before it is shifted: one less than the divisor where it is negative. -/
def IsBias (x bias : BitVec w) (p : Nat) : Prop :=
  bias.toNat = if x.toInt < 0 then 2 ^ p - 1 else 0

theorem isBias_signs (positive : 0 < p) (le : p ≤ w) : IsBias x (x.sshiftRight (w - 1) >>> (w - p)) p := by
  have split : 2 ^ w = 2 ^ (w - p) * 2 ^ p := by
    rw [← Nat.pow_add]
    congr 1
    omega
  unfold IsBias
  rw [toNat_ushiftRight, Nat.shiftRight_eq_div_pow]
  by_cases negative : x.toInt < 0
  · have signs : (x.sshiftRight (w - 1)).toInt = -1 := by
      have lower := x.le_toInt
      have power : (0 : Int) < 2 ^ (w - 1) := Int.pow_pos (by decide)
      rw [toInt_sshiftRight, Int.shiftRight_eq_div_pow, Nat.cast_pow, Nat.cast_ofNat]
      refine le_antisymm (Int.lt_add_one_iff.mp (Int.ediv_neg_of_neg_of_pos negative power)) ?_
      rw [Int.le_ediv_iff_mul_le power]
      omega
    have all : x.sshiftRight (w - 1) = BitVec.allOnes w := by
      apply eq_of_toInt_eq
      rw [signs, toInt_allOnes, if_pos (by omega)]
    rw [if_pos negative, all, toNat_allOnes]
    refine Nat.div_eq_of_lt_le ?_ ?_
    · rw [split, Nat.mul_comm (2 ^ (w - p)), Nat.sub_one_mul]
      have fits := Nat.two_pow_pos (w - p)
      omega
    · have fits := Nat.two_pow_pos w
      rw [Nat.sub_add_cancel (Nat.two_pow_pos p), Nat.mul_comm, ← split]
      omega
  · have signs : (x.sshiftRight (w - 1)).toInt = 0 := by
      have upper : x.toInt < 2 ^ (w - 1) := x.toInt_lt
      rw [toInt_sshiftRight, Int.shiftRight_eq_div_pow, Nat.cast_pow, Nat.cast_ofNat]
      exact Int.ediv_eq_zero_of_lt (by omega) upper
    have none : x.sshiftRight (w - 1) = 0#w := eq_of_toInt_eq (by rw [signs, toInt_zero])
    rw [if_neg negative, none, BitVec.toNat_ofNat, Nat.zero_mod, Nat.zero_div]

theorem isBias_sign (bits : 0 < w) : IsBias x (x >>> (w - 1)) 1 := by
  have half : 2 ^ w = 2 * 2 ^ (w - 1) := by
    rw [← Nat.pow_succ']
    congr 1
    omega
  unfold IsBias
  rw [toNat_ushiftRight, Nat.shiftRight_eq_div_pow, toInt_eq_toNat_cond]
  by_cases small : 2 * x.toNat < 2 ^ w
  · rw [if_pos small, if_neg (by omega), Nat.div_eq_of_lt (by omega)]
  · rw [if_neg small, if_pos (by omega)]
    exact Nat.div_eq_of_lt_le (by omega) (by omega)

theorem toInt_biased (small : p < w) (isBias : IsBias x bias p) :
    ((bias + x).sshiftRight p).toInt = x.toInt.tdiv (2 ^ p) := by
  have positive : (0 : Int) < 2 ^ p := Int.pow_pos (by decide)
  have places : 2 ^ p ≤ 2 ^ (w - 1) := Nat.pow_le_pow_right (by decide) (by omega)
  have cast : ((2 ^ p : Nat) : Int) = 2 ^ p := Nat.cast_pow 2 p
  have half : 2 ^ w = 2 * 2 ^ (w - 1) := by
    rw [← Nat.pow_succ']
    congr 1
    omega
  have lower := x.le_toInt
  have upper : x.toInt < 2 ^ (w - 1) := x.toInt_lt
  have castHalf : ((2 ^ (w - 1) : Nat) : Int) = 2 ^ (w - 1) := Nat.cast_pow 2 (w - 1)
  have unsigned : bias.toInt = bias.toNat := by
    apply toInt_eq_toNat_of_lt
    rw [isBias]
    split
    all_goals omega
  have sum : (bias + x).toInt = x.toInt + if x.toInt < 0 then 2 ^ p - 1 else 0 := by
    rw [toInt_add, unsigned, isBias]
    split
    · rw [Int.bmod_eq_of_le (by omega) (by omega)]
      omega
    · rw [Int.bmod_eq_of_le (by omega) (by omega)]
      omega
  rw [toInt_sshiftRight, Int.shiftRight_eq_div_pow, sum, cast]
  by_cases negative : x.toInt < 0
  · -- The remainder is not positive, so that the bias does not reach the next multiple.
    have rest : -2 ^ p < x.toInt.tmod (2 ^ p) := Int.lt_tmod_of_pos _ positive
    have rest' : 0 ≤ (-x.toInt).tmod (2 ^ p) := Int.tmod_nonneg _ (by omega)
    rw [Int.neg_tmod] at rest'
    have division := Int.mul_tdiv_add_tmod x.toInt (2 ^ p)
    rw [if_pos negative]
    calc (x.toInt + (2 ^ p - 1)) / 2 ^ p
        = (x.toInt.tmod (2 ^ p) + (2 ^ p - 1) + 2 ^ p * x.toInt.tdiv (2 ^ p)) / 2 ^ p := by
          congr 1
          omega
      _ = x.toInt.tdiv (2 ^ p) := by
          rw [Int.add_mul_ediv_left _ _ positive.ne', Int.ediv_eq_zero_of_lt (by omega) (by omega), Int.zero_add]
  · rw [if_neg negative, Int.add_zero, Int.tdiv_eq_ediv_of_nonneg (by omega)]

theorem sdiv_twoPow (small : p + 1 < w) (isBias : IsBias x bias p) :
    x.sdiv (BitVec.twoPow w p) = (bias + x).sshiftRight p := by
  have power : (BitVec.twoPow w p).toInt = 2 ^ p := by
    rw [BitVec.toInt_twoPow, if_neg (by omega), if_neg (by omega)]
  have other : BitVec.twoPow w p ≠ -1#w := by
    intro same
    have value := congrArg BitVec.toInt same
    rw [power, toInt_neg, toInt_one (by omega)] at value
    have positive : (0 : Int) < 2 ^ p := Int.pow_pos (by decide)
    have cast : ((2 ^ w : Nat) : Int) = 2 ^ w := Nat.cast_pow 2 w
    have wide : 2 ^ 2 ≤ 2 ^ w := Nat.pow_le_pow_right (by decide) (by omega)
    rw [Int.bmod_eq_of_le (by omega) (by omega)] at value
    omega
  apply eq_of_toInt_eq
  rw [toInt_biased (by omega) isBias, toInt_sdiv_of_ne_or_ne _ _ (Or.inr other), power]

/-- The highest power of two is a negative divisor: the shift by its places is right but for the least dividend. -/
theorem sdiv_twoPow_last_iff (bits : 1 < w) (isBias : IsBias x bias (w - 1)) :
    x.sdiv (BitVec.twoPow w (w - 1)) = (bias + x).sshiftRight (w - 1) ↔ x ≠ BitVec.twoPow w (w - 1) := by
  have power : (BitVec.twoPow w (w - 1)).toInt = -2 ^ (w - 1) := by
    rw [BitVec.toInt_twoPow, if_neg (by omega), if_pos (by omega), Nat.cast_pow, Nat.cast_ofNat]
  have positive : (0 : Int) < 2 ^ (w - 1) := Int.pow_pos (by decide)
  have cast : ((2 ^ w : Nat) : Int) = 2 ^ w := Nat.cast_pow 2 w
  have wide : 2 ^ 2 ≤ 2 ^ w := Nat.pow_le_pow_right (by decide) (by omega)
  have lower := x.le_toInt
  have upper : x.toInt < 2 ^ (w - 1) := x.toInt_lt
  rw [Ne, ← toInt_inj, ← toInt_inj, toInt_biased (by omega) isBias, toInt_sdiv, power, Int.tdiv_neg]
  by_cases least : x.toInt = -2 ^ (w - 1)
  · rw [least, Int.neg_tdiv, Int.tdiv_self positive.ne', Int.bmod_eq_of_le (by omega) (by omega)]
    omega
  · have none : x.toInt.tdiv (2 ^ (w - 1)) = 0 := by
      rcases lt_or_ge x.toInt 0 with negative | nonneg
      · rw [← Int.neg_neg x.toInt, Int.neg_tdiv, Int.tdiv_eq_zero_of_lt (by omega) (by omega), Int.neg_zero]
      · exact Int.tdiv_eq_zero_of_lt nonneg upper
    rw [none, Int.neg_zero, Int.zero_bmod]
    omega

end MonoRuntime.WordDivision
