/-
Module: MonoRuntime.Lib.DoubleWord
Purpose: Words of twice the width as pairs of words: their values, their orders, and their sums and differences by way of a
  carry.
Trusted boundary: none
Main exports: toNat_pair
-/
import MonoRuntime.Lib.WordMachine

namespace MonoRuntime.WordMachine

variable {w : Nat} {hi lo hi' lo' : BitVec w}

/-! ### Places -/

section Places

variable {high high' low low' radix : Int}

theorem digits_lt (lower : 0 ≤ low) (upper : low < radix) (lower' : 0 ≤ low') (upper' : low' < radix) :
    high * radix + low < high' * radix + low' ↔ high < high' ∨ high = high' ∧ low < low' := by
  have positive : 0 < radix := by omega
  obtain below | same | above := lt_trichotomy high high'
  · have step : (high + 1) * radix ≤ high' * radix := Int.mul_le_mul_of_nonneg_right below positive.le
    rw [Int.add_mul, Int.one_mul] at step
    omega
  · subst same
    omega
  · have step : (high' + 1) * radix ≤ high * radix := Int.mul_le_mul_of_nonneg_right above positive.le
    rw [Int.add_mul, Int.one_mul] at step
    omega

theorem digits_lt_mul (lower : 0 ≤ low) (upper : low < radix) : high * radix + low < high' * radix ↔ high < high' := by
  have digits := @digits_lt high high' low 0 radix lower upper le_rfl (by omega)
  rw [Int.add_zero] at digits
  omega

end Places

/-! ### Values -/

theorem toNat_pair : (hi ++ lo).toNat = hi.toNat * 2 ^ w + lo.toNat := by
  rw [BitVec.toNat_append, ← Nat.shiftLeft_add_eq_or_of_lt lo.isLt, Nat.shiftLeft_eq]

theorem toInt_pair (bits : 0 < w) : (hi ++ lo).toInt = hi.toInt * 2 ^ w + lo.toNat := by
  have some_ : (w == 0) = false := beq_eq_false_iff_ne.mpr bits.ne'
  rw [BitVec.toInt_append, some_, if_neg (by decide), Int.mul_comm]

theorem pair_inj : hi ++ lo = hi' ++ lo' ↔ hi = hi' ∧ lo = lo' := by
  constructor
  · intro same
    have high := congrArg (BitVec.extractLsb' w w) same
    have low := congrArg (BitVec.extractLsb' 0 w) same
    rw [BitVec.extractLsb'_append_eq_left, BitVec.extractLsb'_append_eq_left] at high
    rw [BitVec.extractLsb'_append_eq_right, BitVec.extractLsb'_append_eq_right] at low
    exact ⟨high, low⟩
  · rintro ⟨rfl, rfl⟩
    rfl

theorem lo_bounds : 0 ≤ (lo.toNat : Int) ∧ (lo.toNat : Int) < 2 ^ w := by
  have cast : ((2 ^ w : Nat) : Int) = 2 ^ w := Nat.cast_pow 2 w
  omega

theorem toNat_pair_lt :
    (hi ++ lo).toNat < (hi' ++ lo').toNat ↔ hi.toNat < hi'.toNat ∨ hi = hi' ∧ lo.toNat < lo'.toNat := by
  rw [toNat_pair, toNat_pair, ← BitVec.toNat_inj]
  exact_mod_cast @digits_lt hi.toNat hi'.toNat lo.toNat lo'.toNat (2 ^ w) lo_bounds.1 lo_bounds.2 lo_bounds.1 lo_bounds.2

/-- Signed pairs are ordered by their first words as signed ones, then by the second as unsigned ones. -/
theorem toInt_pair_lt (bits : 0 < w) :
    (hi ++ lo).toInt < (hi' ++ lo').toInt ↔ hi.toInt < hi'.toInt ∨ hi = hi' ∧ lo.toNat < lo'.toNat := by
  rw [toInt_pair bits, toInt_pair bits, digits_lt lo_bounds.1 lo_bounds.2 lo_bounds.1 lo_bounds.2, BitVec.toInt_inj,
    Nat.cast_lt]

theorem toNat_pair_le :
    (hi ++ lo).toNat ≤ (hi' ++ lo').toNat ↔ hi.toNat < hi'.toNat ∨ hi = hi' ∧ lo.toNat ≤ lo'.toNat := by
  rw [← Nat.not_lt, toNat_pair_lt, ← BitVec.toNat_inj, ← BitVec.toNat_inj]
  omega

theorem toInt_pair_le (bits : 0 < w) :
    (hi ++ lo).toInt ≤ (hi' ++ lo').toInt ↔ hi.toInt < hi'.toInt ∨ hi = hi' ∧ lo.toNat ≤ lo'.toNat := by
  rw [← Int.not_lt, toInt_pair_lt bits, ← BitVec.toInt_inj, ← BitVec.toInt_inj]
  omega

/-! ### Shifts by a word -/

theorem pair_ushiftRight : (hi ++ lo) >>> w = 0#w ++ hi := by
  apply BitVec.eq_of_toNat_eq
  rw [BitVec.toNat_ushiftRight, Nat.shiftRight_eq_div_pow, toNat_pair, toNat_pair, BitVec.toNat_ofNat, Nat.zero_mod,
    Nat.zero_mul, Nat.zero_add, Nat.add_comm, Nat.add_mul_div_right _ _ (Nat.two_pow_pos w), Nat.div_eq_of_lt lo.isLt,
    Nat.zero_add]

theorem pair_shiftLeft : (hi ++ lo) <<< w = lo ++ 0#w := by
  apply BitVec.eq_of_toNat_eq
  rw [BitVec.toNat_shiftLeft, Nat.shiftLeft_eq, toNat_pair, toNat_pair, BitVec.toNat_ofNat, Nat.zero_mod, Nat.add_zero,
    Nat.pow_add, Nat.mul_mod_mul_right, Nat.add_comm, Nat.add_mul_mod_self_right, Nat.mod_eq_of_lt lo.isLt]

/-! ### Sums and differences -/

theorem sum_eq : (lo.toNat : Int) + lo'.toNat = (adcFlags lo lo' false).carry.toNat * 2 ^ w + (lo + lo').toNat := by
  have cast : ((2 ^ w : Nat) : Int) = 2 ^ w := Nat.cast_pow 2 w
  rw [BitVec.toNat_add, ← cast]
  by_cases carry : 2 ^ w ≤ lo.toNat + lo'.toNat + false.toNat
  · have is : (adcFlags lo lo' false).carry = true := decide_eq_true carry
    rw [Bool.toNat_false] at carry
    rw [is, Bool.toNat_true, Nat.mod_eq_sub_mod (by omega), Nat.mod_eq_of_lt (by omega)]
    omega
  · have is : (adcFlags lo lo' false).carry = false := decide_eq_false carry
    rw [Bool.toNat_false] at carry
    rw [is, Bool.toNat_false, Nat.mod_eq_of_lt (by omega)]
    omega

theorem difference_eq : (lo.toNat : Int) - lo'.toNat = (lo - lo').toNat - (sbbFlags lo lo' false).carry.toNat * 2 ^ w := by
  have cast : ((2 ^ w : Nat) : Int) = 2 ^ w := Nat.cast_pow 2 w
  rw [BitVec.toNat_sub, ← cast]
  by_cases borrow : lo.toNat < lo'.toNat + false.toNat
  · have is : (sbbFlags lo lo' false).carry = true := decide_eq_true borrow
    rw [Bool.toNat_false] at borrow
    rw [is, Bool.toNat_true, Nat.mod_eq_of_lt (by omega)]
    omega
  · have is : (sbbFlags lo lo' false).carry = false := decide_eq_false borrow
    rw [Bool.toNat_false] at borrow
    rw [is, Bool.toNat_false, Nat.mod_eq_sub_mod (by omega), Nat.mod_eq_of_lt (by omega)]
    omega

theorem ofInt_pair {high : Int} : BitVec.ofInt (w + w) (high * 2 ^ w + lo.toNat) = BitVec.ofInt w high ++ lo := by
  apply BitVec.eq_of_toNat_eq
  have cast : ((2 ^ w : Nat) : Int) = 2 ^ w := Nat.cast_pow 2 w
  have square : ((2 ^ (w + w) : Nat) : Int) = 2 ^ w * 2 ^ w := by rw [pow_add, Nat.cast_mul, cast]
  have positive : (0 : Int) < 2 ^ w := Int.pow_pos (by decide)
  have digit := Int.emod_nonneg high positive.ne'
  have digit' := Int.emod_lt_of_pos high positive
  have least : 0 ≤ high % 2 ^ w * 2 ^ w + lo.toNat :=
    Int.add_nonneg (Int.mul_nonneg digit positive.le) lo_bounds.1
  have most : high % 2 ^ w * 2 ^ w + lo.toNat < 2 ^ w * 2 ^ w :=
    (digits_lt_mul lo_bounds.1 lo_bounds.2).mpr digit'
  have turns : high * 2 ^ w + lo.toNat = high % 2 ^ w * 2 ^ w + lo.toNat + 2 ^ w * 2 ^ w * (high / 2 ^ w) := by
    conv_lhs => rw [← Int.emod_add_mul_ediv high (2 ^ w)]
    rw [Int.add_mul, Int.mul_right_comm]
    omega
  rw [BitVec.toNat_ofInt, toNat_pair, BitVec.toNat_ofInt, square, turns, Int.add_mul_emod_self_left,
    Int.emod_eq_of_lt least most, cast]
  obtain ⟨place, is⟩ := Int.eq_ofNat_of_zero_le digit
  rw [is, ← cast, Int.toNat_natCast, ← Nat.cast_mul, ← Nat.cast_add, Int.toNat_natCast]

/-- The sum of pairs: the carry of the second words goes into the sum of the first. -/
theorem pair_add : (hi ++ lo) + (hi' ++ lo') = adc hi hi' (adcFlags lo lo' false).carry ++ (lo + lo') := by
  have sum := @sum_eq w lo lo'
  calc (hi ++ lo) + (hi' ++ lo')
      = BitVec.ofInt (w + w) ((hi ++ lo).toNat + (hi' ++ lo').toNat : Int) := by
        rw [BitVec.ofInt_add, ofInt_toNat, ofInt_toNat, BitVec.setWidth_eq, BitVec.setWidth_eq]
    _ = BitVec.ofInt (w + w)
          ((hi.toNat + hi'.toNat + (adcFlags lo lo' false).carry.toNat : Int) * 2 ^ w + (lo + lo').toNat) := by
        rw [toNat_pair, toNat_pair, Int.add_mul, Int.add_mul]
        push_cast
        congr 1
        omega
    _ = adc hi hi' (adcFlags lo lo' false).carry ++ (lo + lo') := by rw [ofInt_pair, ← adc_eq_ofNat]

theorem pair_sub : (hi ++ lo) - (hi' ++ lo') = sbb hi hi' (sbbFlags lo lo' false).carry ++ (lo - lo') := by
  have difference := @difference_eq w lo lo'
  calc (hi ++ lo) - (hi' ++ lo')
      = BitVec.ofInt (w + w) ((hi ++ lo).toNat - (hi' ++ lo').toNat : Int) := by
        rw [ofInt_sub, ofInt_toNat, ofInt_toNat, BitVec.setWidth_eq, BitVec.setWidth_eq]
    _ = BitVec.ofInt (w + w)
          ((hi.toNat - hi'.toNat - (sbbFlags lo lo' false).carry.toNat : Int) * 2 ^ w + (lo - lo').toNat) := by
        rw [toNat_pair, toNat_pair, Int.sub_mul, Int.sub_mul]
        push_cast
        congr 1
        omega
    _ = sbb hi hi' (sbbFlags lo lo' false).carry ++ (lo - lo') := by rw [ofInt_pair, ← sbb_eq_ofNat]

/-- A number with two digits is a signed pair where its first digit is a signed word. -/
theorem pair_range {high : Int} (bits : 0 < w) :
    (-2 ^ (w + w - 1) ≤ high * 2 ^ w + lo.toNat ∧ high * 2 ^ w + lo.toNat < 2 ^ (w + w - 1)) ↔
      -2 ^ (w - 1) ≤ high ∧ high < 2 ^ (w - 1) := by
  have half : (2 : Int) ^ (w + w - 1) = 2 ^ (w - 1) * 2 ^ w := by
    rw [← pow_add]
    congr 1
    omega
  rw [half, ← Int.neg_mul, ← Int.not_lt, ← Int.not_lt]
  rw [digits_lt_mul lo_bounds.1 lo_bounds.2, digits_lt_mul lo_bounds.1 lo_bounds.2]

/-- A sum of pairs overflows where that of the first words does, with the carry of the second. -/
theorem holds_pair_ov_adc (bits : 0 < w) : Cond.ov.holds (adcFlags hi hi' (adcFlags lo lo' false).carry) = true ↔
      ¬ (-2 ^ (w + w - 1) ≤ (hi ++ lo).toInt + (hi' ++ lo').toInt ∧
        (hi ++ lo).toInt + (hi' ++ lo').toInt < 2 ^ (w + w - 1)) := by
  have sum := @sum_eq w lo lo'
  have total : (hi ++ lo).toInt + (hi' ++ lo').toInt =
      (hi.toInt + hi'.toInt + (adcFlags lo lo' false).carry.toNat) * 2 ^ w + (lo + lo').toNat := by
    rw [toInt_pair bits, toInt_pair bits, Int.add_mul, Int.add_mul]
    omega
  rw [holds_ov_adc bits, total, pair_range bits]

/-- A difference of pairs overflows where that of the first words does, with the borrow of the second. -/
theorem holds_pair_ov_sbb (bits : 0 < w) : Cond.ov.holds (sbbFlags hi hi' (sbbFlags lo lo' false).carry) = true ↔
      ¬ (-2 ^ (w + w - 1) ≤ (hi ++ lo).toInt - (hi' ++ lo').toInt ∧
        (hi ++ lo).toInt - (hi' ++ lo').toInt < 2 ^ (w + w - 1)) := by
  have difference := @difference_eq w lo lo'
  have total : (hi ++ lo).toInt - (hi' ++ lo').toInt =
      (hi.toInt - hi'.toInt - (sbbFlags lo lo' false).carry.toNat) * 2 ^ w + (lo - lo').toNat := by
    rw [toInt_pair bits, toInt_pair bits, Int.sub_mul, Int.sub_mul]
    omega
  rw [holds_ov_sbb bits, total, pair_range bits]

theorem holds_pair_c_adc : Cond.c.holds (adcFlags hi hi' (adcFlags lo lo' false).carry) = true ↔
      2 ^ (w + w) ≤ (hi ++ lo).toNat + (hi' ++ lo').toNat := by
  have sum := @sum_eq w lo lo'
  have cast : ((2 ^ w : Nat) : Int) = 2 ^ w := Nat.cast_pow 2 w
  have square : ((2 ^ (w + w) : Nat) : Int) = 2 ^ w * 2 ^ w := by rw [pow_add, Nat.cast_mul, cast]
  have total : ((hi ++ lo).toNat + (hi' ++ lo').toNat : Int) =
      (hi.toNat + hi'.toNat + (adcFlags lo lo' false).carry.toNat : Int) * 2 ^ w + (lo + lo').toNat := by
    rw [toNat_pair, toNat_pair, Int.add_mul, Int.add_mul]
    push_cast
    omega
  have digit := @digits_lt_mul (hi.toNat + hi'.toNat + (adcFlags lo lo' false).carry.toNat) (2 ^ w) (lo + lo').toNat (2 ^ w)
    lo_bounds.1 lo_bounds.2
  rw [holds_c_adc]
  omega

theorem holds_pair_c_sbb :
    Cond.c.holds (sbbFlags hi hi' (sbbFlags lo lo' false).carry) = true ↔ (hi ++ lo).toNat < (hi' ++ lo').toNat := by
  have difference := @difference_eq w lo lo'
  have total : ((hi ++ lo).toNat - (hi' ++ lo').toNat : Int) =
      (hi.toNat - hi'.toNat - (sbbFlags lo lo' false).carry.toNat : Int) * 2 ^ w + (lo - lo').toNat := by
    rw [toNat_pair, toNat_pair, Int.sub_mul, Int.sub_mul]
    push_cast
    omega
  have digit := @digits_lt_mul (hi.toNat - hi'.toNat - (sbbFlags lo lo' false).carry.toNat) 0 (lo - lo').toNat (2 ^ w)
    lo_bounds.1 lo_bounds.2
  rw [holds_c_sbb]
  omega

end MonoRuntime.WordMachine
