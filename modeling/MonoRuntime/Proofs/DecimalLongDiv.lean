/-
Module: MonoRuntime.Proofs.DecimalLongDiv
Purpose: The long division of `metadata/decimal.c`: its digits are exact but for the last, which is estimated.
Trusted boundary: none
Main exports: div192by96to32withRest_spec
-/
import MonoRuntime.Metadata.DecimalDiv
import MonoRuntime.Proofs.DecimalMult
import MonoRuntime.Lib.LongDivision

namespace MonoRuntime.Decimal

open LongDivision BitVec

/-! ### 192-bit arithmetic -/

/-- The number of 96 bits. -/
def Dec96.toNat (b : Dec96) : Nat :=
  b.lo.toNat + 2 ^ 32 * b.mid.toNat + 2 ^ 64 * b.hi.toNat

theorem Dec192.toNat_lt (a : Dec192) : a.toNat < 2 ^ 192 := by
  unfold Dec192.toNat
  omega

theorem Dec96.toNat_lt (b : Dec96) : b.toNat < 2 ^ 96 := by
  unfold Dec96.toNat
  omega

theorem sub192_toNat (a b : Dec192) : (sub192 a b).toNat = (a.toNat + 2 ^ 192 - b.toNat) % 2 ^ 192 := by
  have one : (1 : BitVec 64).toNat = 1 := rfl
  have zero : (0 : BitVec 64).toNat = 0 := rfl
  unfold Dec192.toNat sub192
  simp only [lt_def, toNat_eq, zero]
  by_cases low : a.low.toNat < b.low.toNat
  · by_cases mid : a.mid.toNat < b.mid.toNat
    · simp only [low, mid, true_and, if_true]
      split <;> simp only [toNat_sub, one] at * <;> omega
    · simp only [low, mid, true_and, if_true, if_false]
      split <;> simp only [toNat_sub, one] at * <;> omega
  · by_cases mid : a.mid.toNat < b.mid.toNat
    · simp only [low, mid, false_and, if_true, if_false, toNat_sub, one]
      omega
    · simp only [low, mid, false_and, if_false, toNat_sub]
      omega

theorem add192_toNat (a b : Dec192) : (add192 a b).toNat = (a.toNat + b.toNat) % 2 ^ 192 := by
  have one : (1 : BitVec 64).toNat = 1 := rfl
  have zero : (0 : BitVec 64).toNat = 0 := rfl
  unfold Dec192.toNat add192
  simp only [lt_def, toNat_eq, zero]
  by_cases low : (a.low + b.low).toNat < b.low.toNat
  · simp only [low, true_and, if_true]
    split <;> split <;> simp only [toNat_add, one] at * <;> omega
  · simp only [low, false_and, if_false]
    split <;> simp only [toNat_add, one] at * <;> omega

theorem mult96by32to128_toNat (b : Dec96) (factor : BitVec 32) :
    (mult96by32to128 b factor).toNat = b.toNat * factor.toNat := by
  have lo := mulWords_toNat b.lo factor
  have mid := mulWords_toNat b.mid factor
  have hi := mulWords_toNat b.hi factor
  have product : ∀ w : BitVec 32, w.toNat * factor.toNat ≤ (2 ^ 32 - 1) * (2 ^ 32 - 1) := fun w =>
    Nat.mul_le_mul (by omega) (by omega)
  have midLe := product b.mid
  have hiLe := product b.hi
  have whole : b.toNat * factor.toNat =
      b.lo.toNat * factor.toNat + 2 ^ 32 * (b.mid.toNat * factor.toNat) + 2 ^ 64 * (b.hi.toNat * factor.toNat) := by
    unfold Dec96.toNat
    ring
  unfold Dec128.toNat mult96by32to128
  simp only [joinWords_toNat, toNat_setWidth, toNat_add, toNat_ushiftRight,
    Nat.shiftRight_eq_div_pow, lo, mid, hi]
  generalize b.lo.toNat * factor.toNat = x at *
  generalize b.mid.toNat * factor.toNat = y at *
  generalize b.hi.toNat * factor.toNat = z at *
  omega

/-! ### Digits -/

theorem term_toNat (b : Dec96) : b.term.toNat = b.toNat * 2 ^ 64 := by
  unfold Dec96.term Dec192.toNat Dec96.toNat
  have zero : (0 : BitVec 64).toNat = 0 := rfl
  simp only [joinWords_toNat, toNat_setWidth, zero]
  omega

theorem negative_iff (r : Dec192) : r.high.toInt < 0 ↔ 2 ^ 191 ≤ r.toNat := by
  rw [← decide_eq_true_iff (p := r.high.toInt < 0), ← msb_eq_toInt, msb_eq_decide, decide_eq_true_iff]
  unfold Dec192.toNat
  omega

variable {b : Dec96} {a : Dec192} {w : Nat}

/-- The estimate that is `excess` too high is lowered to the digit: the remainder lacks as many divisors. -/
theorem lowerDigit_spec {digit rest : Nat} (isRest : rest < b.toNat * 2 ^ 64) :
    ∀ (excess fuel : Nat) (c : BitVec 32) (r : Dec192), excess < fuel → excess ≤ 2 → c.toNat = digit + excess →
      r.toNat + excess * (b.toNat * 2 ^ 64) = rest + (if excess = 0 then 0 else 2 ^ 192) →
      ∃ c' r', lowerDigit b fuel c r = some (c', r') ∧ c'.toNat = digit ∧ r'.toNat = rest := by
  have isDivisor := b.toNat_lt
  intro excess
  induction excess with
  | zero =>
    intro fuel c r enough _ isC isR
    obtain ⟨fuel, rfl⟩ := Nat.exists_eq_succ_of_ne_zero (show fuel ≠ 0 by omega)
    rw [if_pos rfl] at isR
    have notNegative : ¬ r.high.toInt < 0 := by
      rw [negative_iff]
      omega
    rw [lowerDigit, if_neg notNegative]
    exact ⟨c, r, rfl, by omega, by omega⟩
  | succ excess previous =>
    intro fuel c r enough small isC isR
    obtain ⟨fuel, rfl⟩ := Nat.exists_eq_succ_of_ne_zero (show fuel ≠ 0 by omega)
    rw [if_neg (by omega)] at isR
    have excessLe : excess ≤ 1 := by omega
    have isNegative : r.high.toInt < 0 := by
      rw [negative_iff]
      interval_cases excess <;> omega
    have next := add192_toNat r b.term
    rw [term_toNat] at next
    rw [lowerDigit, if_pos isNegative]
    apply previous fuel (c - 1) (add192 r b.term) (by omega) (by omega)
    · rw [toNat_sub, show (1 : BitVec 32).toNat = 1 from rfl]
      omega
    · have notAbove := r.toNat_lt
      interval_cases excess
      · rw [if_pos rfl]
        omega
      · rw [if_neg (by decide)]
        omega

theorem sub192_estimated {t : Dec192} {divisor quotient rest excess : Nat} (small : divisor < 2 ^ 160)
    (excessLe : excess ≤ 2) (isDividend : a.toNat = quotient * divisor + rest) (isRest : rest < divisor)
    (isTerm : t.toNat = (quotient + excess) * divisor) :
    (sub192 a t).toNat + excess * divisor = rest + (if excess = 0 then 0 else 2 ^ 192) := by
  have difference := sub192_toNat a t
  rw [Nat.add_mul] at isTerm
  interval_cases excess
  · rw [if_pos rfl]
    omega
  · rw [if_neg (by decide)]
    omega
  · rw [if_neg (by decide)]
    omega

/-- A divisor that is normalized: its highest bit is set. -/
def Dec96.Normal (b : Dec96) : Prop :=
  2 ^ 31 ≤ b.hi.toNat

theorem isLead_hi (b : Dec96) : IsLead b.hi.toNat (2 ^ 128) (b.toNat * 2 ^ 64) := by
  unfold Dec96.toNat
  constructor <;> omega

theorem isLead_high (a : Dec192) : IsLead a.high.toNat (2 ^ 128) a.toNat := by
  unfold Dec192.toNat
  constructor <;> omega

theorem estimate_toNat {high : BitVec 64} {hi : BitVec 32} (normal : 2 ^ 31 ≤ hi.toNat) :
    (if high ≥ hi.setWidth 64 <<< 32 then BitVec.allOnes 32 else (high / hi.setWidth 64).setWidth 32).toNat =
      estimate (2 ^ 32) high.toNat hi.toNat := by
  have lead : (hi.setWidth 64).toNat = hi.toNat := by
    rw [toNat_setWidth]
    omega
  have shifted : (hi.setWidth 64 <<< 32).toNat = 2 ^ 32 * hi.toNat := by
    rw [toNat_shiftLeft, lead, Nat.shiftLeft_eq]
    omega
  unfold estimate
  simp only [ge_iff_le, le_def, shifted]
  split
  next => rfl
  next below =>
    have small : high.toNat / hi.toNat < 2 ^ 32 := Nat.div_lt_of_lt_mul (by rw [Nat.mul_comm]; omega)
    rw [toNat_setWidth, toNat_udiv, lead, Nat.mod_eq_of_lt small]

theorem div192by96to32withRest_spec (normal : b.Normal) (isDigit : a.toNat < 2 ^ 32 * (b.toNat * 2 ^ 64)) :
    ∃ c r, div192by96to32withRest a b = some (c, r) ∧ a.toNat = c.toNat * (b.toNat * 2 ^ 64) + r.toNat ∧
      r.toNat < b.toNat * 2 ^ 64 := by
  have some_ : 0 < b.hi.toNat := by
    unfold Dec96.Normal at normal
    omega
  have divisorPos : 0 < b.toNat * 2 ^ 64 := by
    omega
  have isEstimate := @estimate_toNat a.high _ normal
  have low := le_estimate some_ (isLead_hi b) (isLead_high a) isDigit
  have high := @estimate_le (2 ^ 32) _ _ _ _ _ (by decide) (by unfold Dec96.Normal at normal; omega) (isLead_hi b)
    (isLead_high a)
  have product := mult96by32to128_toNat b
    (if a.high ≥ b.hi.setWidth 64 <<< 32 then BitVec.allOnes 32 else (a.high / b.hi.setWidth 64).setWidth 32)
  rw [isEstimate] at product
  unfold div192by96to32withRest
  simp only
  generalize (if a.high ≥ b.hi.setWidth 64 <<< 32 then BitVec.allOnes 32
    else (a.high / b.hi.setWidth 64).setWidth 32) = c at *
  obtain ⟨excess, isOver⟩ := Nat.exists_eq_add_of_le low
  rw [isOver] at isEstimate high product
  have isRest := Nat.mod_lt a.toNat divisorPos
  have isDividend := Nat.div_add_mod' a.toNat (b.toNat * 2 ^ 64)
  have isTerm : Dec192.toNat { low := 0, mid := (mult96by32to128 b c).lo, high := (mult96by32to128 b c).hi }
      = (a.toNat / (b.toNat * 2 ^ 64) + excess) * (b.toNat * 2 ^ 64) := by
    rw [← Nat.mul_assoc, Nat.mul_comm _ b.toNat, ← product]
    unfold Dec192.toNat Dec128.toNat
    have zero : (0 : BitVec 64).toNat = 0 := rfl
    simp only [zero]
    omega
  have divisorLt := b.toNat_lt
  have first := sub192_estimated (by omega) (by omega) isDividend.symm isRest isTerm
  obtain ⟨c', r', isLowered, isC, isR⟩ := lowerDigit_spec isRest excess 3 c _ (by omega) (by omega) isEstimate first
  rw [← isC, ← isR] at isDividend
  exact ⟨c', r', isLowered, isDividend.symm, by rwa [isR]⟩

theorem shiftLeft_or_toNat {high low : BitVec 64} (lowLess : low.toNat < 2 ^ 32) :
    (high <<< 32 ||| low).toNat = 2 ^ 32 * (high.toNat % 2 ^ 32) + low.toNat := by
  have shifted : (high <<< 32).toNat = 2 ^ 32 * (high.toNat % 2 ^ 32) := by
    rw [toNat_shiftLeft, Nat.shiftLeft_eq]
    omega
  rw [toNat_or, shifted, ← Nat.two_pow_add_eq_or_of_lt lowLess]

theorem nextDigit_toNat {r : Dec192} (small : r.toNat < 2 ^ 160) : r.nextDigit.toNat = r.toNat * 2 ^ 32 := by
  have upper : ∀ w : BitVec 64, (w >>> 32).toNat = w.toNat / 2 ^ 32 := fun w => by
    rw [toNat_ushiftRight, Nat.shiftRight_eq_div_pow]
  have upperLess : ∀ w : BitVec 64, (w >>> 32).toNat < 2 ^ 32 := fun w => by
    rw [upper]
    omega
  unfold Dec192.toNat at small ⊢
  unfold Dec192.nextDigit
  rw [shiftLeft_or_toNat (upperLess r.low), shiftLeft_or_toNat (upperLess r.mid), upper, upper, toNat_shiftLeft,
    Nat.shiftLeft_eq]
  omega

theorem div192by96to128_returns (normal : b.Normal) (small : a.toNat < 2 ^ 96 * b.toNat) :
    ∃ c, div192by96to128 a b = some c := by
  have divisorLt := b.toNat_lt
  obtain ⟨high, r, isHigh, _, highRest⟩ := div192by96to32withRest_spec (a := a) normal (by omega)
  have next := nextDigit_toNat (show r.toNat < 2 ^ 160 by omega)
  obtain ⟨mid, r', isMid, _, midRest⟩ := div192by96to32withRest_spec (a := r.nextDigit) normal (by omega)
  have next' := nextDigit_toNat (show r'.toNat < 2 ^ 160 by omega)
  obtain ⟨low, r'', isLow, _⟩ := div192by96to32withRest_spec (a := r'.nextDigit) normal (by omega)
  unfold div192by96to128
  simp only [isHigh, isMid, isLow]
  exact ⟨_, rfl⟩

/-! ### Normalized operands -/

/-- A shift that doubles reaches the highest bit within the places that are left. -/
theorem shiftToTop_spec {α : Type} {shift : α → α} {isTop : α → Bool} (size : α → Nat) (top : Nat)
    (isTop_iff : ∀ x, isTop x = true ↔ 2 ^ top ≤ size x) (doubles : ∀ x, isTop x = false → size (shift x) = 2 * size x) :
    ∀ (fuel : Nat) (x : α) (count : Nat), 2 ^ top ≤ size x * 2 ^ fuel →
      ∃ y k, shiftToTop shift isTop (fuel + 1) x count = some (y, count + k) ∧ k ≤ fuel ∧
        size y = size x * 2 ^ k ∧ 2 ^ top ≤ size y := by
  intro fuel
  induction fuel with
  | zero =>
    intro x count reached
    have atTop : isTop x = true := by
      rwa [isTop_iff, ← Nat.mul_one (size x), ← Nat.pow_zero 2]
    rw [shiftToTop, if_pos atTop]
    exact ⟨x, 0, rfl, Nat.le_refl 0, by rw [Nat.pow_zero, Nat.mul_one], (isTop_iff x).1 atTop⟩
  | succ fuel next =>
    intro x count reached
    by_cases atTop : isTop x = true
    · rw [shiftToTop, if_pos atTop]
      exact ⟨x, 0, rfl, Nat.zero_le _, by rw [Nat.pow_zero, Nat.mul_one], (isTop_iff x).1 atTop⟩
    · have doubled := doubles x (Bool.eq_false_iff.2 atTop)
      obtain ⟨y, k, isShifted, small, isSize, high⟩ := next (shift x) (count + 1) (by
        rw [doubled, Nat.mul_comm 2, Nat.mul_assoc, ← Nat.pow_succ']
        exact reached)
      rw [shiftToTop, if_neg atTop, isShifted]
      refine ⟨y, k + 1, by rw [Nat.add_assoc, Nat.add_comm 1], by omega, ?_, high⟩
      rw [isSize, doubled, Nat.pow_succ]
      ring

theorem msb_iff_toNat (x : BitVec (w + 1)) : x.msb = true ↔ 2 ^ w ≤ x.toNat := by
  rw [msb_eq_decide, decide_eq_true_iff, Nat.add_sub_cancel]

theorem carriedBit_toNat (x : BitVec (w + 1)) : ((x &&& BitVec.twoPow (w + 1) w) >>> w).toNat = x.toNat / 2 ^ w := by
  have small : x.toNat / 2 ^ w < 2 := Nat.div_lt_of_lt_mul (by rw [← Nat.pow_succ]; exact x.isLt)
  rw [toNat_ushiftRight, toNat_and, toNat_twoPow_of_lt (Nat.lt_succ_self w),
    Nat.shiftRight_and_distrib, Nat.shiftRight_eq_div_pow, Nat.shiftRight_eq_div_pow, Nat.div_self (Nat.two_pow_pos w),
    Nat.and_one_is_mod, Nat.mod_eq_of_lt small]

/-- A word that takes the highest bit of the word below it into its lowest place. -/
theorem carryInto_toNat (high low : BitVec (w + 1)) :
    (high <<< 1 ||| (low &&& BitVec.twoPow (w + 1) w) >>> w).toNat =
      2 * high.toNat % 2 ^ (w + 1) + low.toNat / 2 ^ w := by
  have small : low.toNat / 2 ^ w < 2 ^ 1 := Nat.div_lt_of_lt_mul (by rw [← Nat.pow_add]; exact low.isLt)
  have shifted : 2 * high.toNat % 2 ^ (w + 1) = 2 ^ 1 * (high.toNat % 2 ^ w) := by
    rw [Nat.pow_succ', Nat.mul_mod_mul_left, Nat.pow_one]
  rw [toNat_or, toNat_shiftLeft, Nat.shiftLeft_eq, Nat.pow_one, carriedBit_toNat, Nat.mul_comm _ 2,
    shifted, Nat.two_pow_add_eq_or_of_lt small]

theorem lshift96_toNat {c : Dec96} (fits : c.toNat < 2 ^ 95) : (lshift96 c).toNat = 2 * c.toNat := by
  have mid := carryInto_toNat c.mid c.lo
  have hi := carryInto_toNat c.hi c.mid
  have lo : (c.lo <<< 1).toNat = 2 * c.lo.toNat % 2 ^ 32 := by
    rw [toNat_shiftLeft, Nat.shiftLeft_eq, Nat.pow_one, Nat.mul_comm]
  rw [show BitVec.twoPow (31 + 1) 31 = 0x80000000 from rfl] at mid hi
  unfold Dec96.toNat at *
  unfold lshift96
  simp only
  omega

theorem lshift128_toNat {c : Dec128} (fits : c.toNat < 2 ^ 127) : (lshift128 c).toNat = 2 * c.toNat := by
  have hi := carryInto_toNat c.hi c.lo
  have lo : (c.lo <<< 1).toNat = 2 * c.lo.toNat % 2 ^ 64 := by
    rw [toNat_shiftLeft, Nat.shiftLeft_eq, Nat.pow_one, Nat.mul_comm]
  rw [show BitVec.twoPow (63 + 1) 63 = 0x8000000000000000 from rfl] at hi
  unfold Dec128.toNat at *
  unfold lshift128
  simp only
  omega

theorem enlargeDividend_returns {a : Dec128} (nonzero : a.toNat ≠ 0) : ∃ a' k, enlargeDividend a = some (a', k) := by
  have zero : (0 : BitVec 64).toNat = 0 := rfl
  unfold enlargeDividend
  by_cases high : a.hi = 0
  · have noHigh : a.hi.toNat = 0 := by rw [high, zero]
    have someLow : a.lo.toNat ≠ 0 := by
      unfold Dec128.toNat at nonzero
      omega
    have doubles : ∀ x : BitVec 64, x.msb = false → (x <<< 1).toNat = 2 * x.toNat := fun x notTop => by
      have below := (msb_iff_toNat (w := 63) x).not.1 (Bool.eq_false_iff.1 notTop)
      rw [toNat_shiftLeft, Nat.shiftLeft_eq]
      omega
    obtain ⟨hi, k, isShifted, _⟩ := shiftToTop_spec BitVec.toNat 63 (msb_iff_toNat (w := 63)) doubles 63 a.lo 64
      (by omega)
    rw [if_pos high, isShifted]
    exact ⟨_, _, rfl⟩
  · have someHigh : a.hi.toNat ≠ 0 := fun isZero => high (eq_of_toNat_eq isZero)
    have isTop : ∀ x : Dec128, x.hi.msb = true ↔ 2 ^ 127 ≤ x.toNat := fun x => by
      rw [msb_iff_toNat (w := 63)]
      unfold Dec128.toNat
      omega
    have doubles : ∀ x : Dec128, x.hi.msb = false → (lshift128 x).toNat = 2 * x.toNat := fun x notTop =>
      lshift128_toNat (Nat.not_le.1 ((isTop x).not.1 (Bool.eq_false_iff.1 notTop)))
    obtain ⟨a', k, isShifted, _⟩ := shiftToTop_spec Dec128.toNat 127 isTop doubles 63 a 0 (by
      unfold Dec128.toNat
      omega)
    rw [if_neg high, isShifted]
    exact ⟨_, _, rfl⟩

theorem shiftByMsf_toNat {x : BitVec 32} (nonzero : x.toNat ≠ 0) :
    2 ^ 31 ≤ (x <<< (31 - myGBitNthMsf (x.setWidth 64)).toNat).toNat := by
  have same : (x.setWidth 64).toNat = x.toNat := by
    rw [toNat_setWidth, Nat.mod_eq_of_lt (by omega)]
  have isNonzero : x.setWidth 64 ≠ 0 := fun isZero => nonzero (by rw [← same, isZero]; rfl)
  have place : x.toNat.log2 ≤ 31 := by
    have := (Nat.log2_lt nonzero).2 x.isLt
    omega
  have isShift : (31 - myGBitNthMsf (x.setWidth 64)).toNat = 31 - x.toNat.log2 := by
    rw [myGBitNthMsf, if_neg isNonzero, same]
    omega
  obtain ⟨low, high⟩ := (Nat.log2_eq_iff nonzero).1 rfl
  have whole : (2 : Nat) ^ 31 = 2 ^ x.toNat.log2 * 2 ^ (31 - x.toNat.log2) := by
    rw [← Nat.pow_add, Nat.add_sub_cancel' place]
  have below : x.toNat * 2 ^ (31 - x.toNat.log2) < 2 ^ 32 :=
    calc x.toNat * 2 ^ (31 - x.toNat.log2) < 2 ^ (x.toNat.log2 + 1) * 2 ^ (31 - x.toNat.log2) :=
          Nat.mul_lt_mul_of_pos_right high (Nat.two_pow_pos _)
      _ = 2 ^ 32 := by rw [Nat.pow_succ, Nat.mul_right_comm, ← whole, ← Nat.pow_succ]
  rw [isShift, toNat_shiftLeft, Nat.shiftLeft_eq, Nat.mod_eq_of_lt below, whole]
  exact Nat.mul_le_mul_right _ low

theorem enlargeDivisor_spec (nonzero : b.toNat ≠ 0) : ∃ b' k, enlargeDivisor b = some (b', k) ∧ b'.Normal := by
  have isTop : ∀ x : Dec96, x.hi.msb = true ↔ 2 ^ 95 ≤ x.toNat := fun x => by
    rw [msb_iff_toNat (w := 31)]
    unfold Dec96.toNat
    omega
  have isNormal : ∀ x : Dec96, 2 ^ 95 ≤ x.toNat → x.Normal := fun x top => by
    rw [Dec96.Normal, ← msb_iff_toNat (w := 31)]
    exact (isTop x).2 top
  have doubles : ∀ x : Dec96, x.hi.msb = false → (lshift96 x).toNat = 2 * x.toNat := fun x notTop =>
    lshift96_toNat (by
      have := (isTop x).not.1 (Bool.eq_false_iff.1 notTop)
      omega)
  -- The loops run on a number whose highest word is not zero.
  have loop : ∀ (x : Dec96) (count : Nat), x.hi.toNat ≠ 0 →
      ∃ b' k, shiftToTop lshift96 (·.hi.msb) 32 x count = some (b', k) ∧ b'.Normal := fun x count some_ => by
    obtain ⟨b', k, isShifted, _, _, top⟩ := shiftToTop_spec Dec96.toNat 95 isTop doubles 31 x count (by
      unfold Dec96.toNat
      omega)
    exact ⟨b', _, isShifted, isNormal b' top⟩
  have nonzeroWord : ∀ w : BitVec 32, w ≠ 0 → w.toNat ≠ 0 := fun w some_ isZero => some_ (eq_of_toNat_eq isZero)
  unfold enlargeDivisor
  by_cases hi : b.hi = 0
  · rw [if_pos hi]
    by_cases mid : b.mid = 0
    · have zero : (0 : BitVec 32).toNat = 0 := rfl
      rw [if_pos mid]
      refine ⟨_, _, rfl, shiftByMsf_toNat fun noLow => nonzero ?_⟩
      simp only [Dec96.toNat, hi, mid, noLow, zero, Nat.mul_zero]
    · rw [if_neg mid]
      exact loop { lo := 0, mid := b.lo, hi := b.mid } 32 (nonzeroWord b.mid mid)
  · rw [if_neg hi]
    exact loop b 0 (nonzeroWord b.hi hi)

theorem binaryQuotient_returns (a : Dec128) (ashift : Nat) (bshift : Nat) (normal : b.Normal) :
    ∃ c texp, binaryQuotient a ashift b bshift = some (c, texp) := by
  have zero : (0 : BitVec 64).toNat = 0 := rfl
  have aLess := a.toNat_lt
  have highest : 2 ^ 95 ≤ b.toNat := by
    unfold Dec96.Normal at normal
    unfold Dec96.toNat
    omega
  have isA : Dec192.toNat { low := 0, mid := a.lo, high := a.hi } = a.toNat * 2 ^ 64 := by
    unfold Dec192.toNat Dec128.toNat
    simp only [zero]
    omega
  have isLow : (b.lo.setWidth 64 <<< 32).toNat = 2 ^ 32 * b.lo.toNat := by
    rw [toNat_shiftLeft, toNat_setWidth, Nat.shiftLeft_eq]
    omega
  have isTerm : Dec192.toNat { low := 0, mid := b.lo.setWidth 64 <<< 32, high := joinWords b.hi b.mid } =
      b.toNat * 2 ^ 96 := by
    unfold Dec192.toNat Dec96.toNat
    simp only [zero, isLow, joinWords_toNat]
    omega
  have isExtra : ((a.hi > joinWords b.hi b.mid ∨ a.hi = joinWords b.hi b.mid ∧ a.lo ≥ b.lo.setWidth 64 <<< 32)
      ↔ b.toNat * 2 ^ 96 ≤ a.toNat * 2 ^ 64) := by
    simp only [gt_iff_lt, ge_iff_le, lt_def, le_def, toNat_eq, isLow, joinWords_toNat]
    unfold Dec128.toNat Dec96.toNat
    omega
  unfold binaryQuotient
  simp only [isExtra]
  by_cases extra : b.toNat * 2 ^ 96 ≤ a.toNat * 2 ^ 64
  · have isRest := sub192_toNat { low := 0, mid := a.lo, high := a.hi }
      { low := 0, mid := b.lo.setWidth 64 <<< 32, high := joinWords b.hi b.mid }
    obtain ⟨c, isC⟩ := div192by96to128_returns (a := sub192 { low := 0, mid := a.lo, high := a.hi }
      { low := 0, mid := b.lo.setWidth 64 <<< 32, high := joinWords b.hi b.mid }) normal (by omega)
    simp only [extra, decide_true, if_true, isC]
    exact ⟨_, _, rfl⟩
  · obtain ⟨c, isC⟩ := div192by96to128_returns (a := { low := 0, mid := a.lo, high := a.hi }) normal (by omega)
    simp only [extra, decide_false, Bool.false_eq_true, if_false, isC]
    exact ⟨_, _, rfl⟩

/-! ### `decimalDivSub` -/

section DivSub

variable {a b : DecimalRepr}

theorem divisorWords_iff : b.lo32 = 0 ∧ b.mid32 = 0 ∧ b.hi32 = 0 ↔ b.mantissa = 0 := by
  have zero : (0 : BitVec 32).toNat = 0 := rfl
  unfold DecimalRepr.mantissa
  simp only [toNat_eq, zero]
  omega

theorem dividend_toNat (a : DecimalRepr) :
    Dec128.toNat { lo := a.lo32.setWidth 64 <<< 32, hi := joinWords a.hi32 a.mid32 } = a.mantissa * 2 ^ 32 := by
  have low : (a.lo32.setWidth 64 <<< 32).toNat = a.lo32.toNat * 2 ^ 32 := by
    rw [toNat_shiftLeft, toNat_setWidth, Nat.shiftLeft_eq]
    omega
  unfold Dec128.toNat DecimalRepr.mantissa
  simp only [low, joinWords_toNat]
  omega

theorem dividendWords_iff : a.lo32.setWidth 64 <<< 32 = 0 ∧ joinWords a.hi32 a.mid32 = 0 ↔ a.mantissa = 0 := by
  have zero : (0 : BitVec 64).toNat = 0 := rfl
  have whole := dividend_toNat a
  simp only [Dec128.toNat] at whole
  simp only [toNat_eq, zero]
  omega

theorem decimalDivSub_byZero (noDivisor : b.mantissa = 0) :
    ∃ c texp, decimalDivSub a b = some (decimalDivideByZero, c, texp) := by
  unfold decimalDivSub
  simp only [divisorWords_iff, if_pos noDivisor]
  exact ⟨_, _, rfl⟩

theorem decimalDivSub_ofZero (divisor : b.mantissa ≠ 0) (noDividend : a.mantissa = 0) :
    ∃ c texp, decimalDivSub a b = some (decimalFinished, c, texp) := by
  unfold decimalDivSub
  simp only [divisorWords_iff, dividendWords_iff, if_neg divisor, if_pos noDividend]
  exact ⟨_, _, rfl⟩

theorem decimalDivSub_returns (divisor : b.mantissa ≠ 0) (dividend : a.mantissa ≠ 0) :
    ∃ c texp, decimalDivSub a b = some (decimalSuccess, c, texp) := by
  obtain ⟨a', ashift, isA⟩ := enlargeDividend_returns
    (a := { lo := a.lo32.setWidth 64 <<< 32, hi := joinWords a.hi32 a.mid32 }) (by rw [dividend_toNat]; omega)
  have isDivisor : Dec96.toNat { lo := b.lo32, mid := b.mid32, hi := b.hi32 } = b.mantissa := rfl
  obtain ⟨b', bshift, isB, normal⟩ := enlargeDivisor_spec
    (b := { lo := b.lo32, mid := b.mid32, hi := b.hi32 }) (by rwa [isDivisor])
  obtain ⟨c, texp, isC⟩ := binaryQuotient_returns a' ashift bshift normal
  unfold decimalDivSub
  simp only [divisorWords_iff, dividendWords_iff, if_neg divisor, if_neg dividend, isA, isB, isC]
  exact ⟨c, texp, rfl⟩

end DivSub

end MonoRuntime.Decimal
