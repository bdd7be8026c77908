/-
Module: MonoRuntime.Proofs.DecimalArithmetic
Purpose: The 128-bit arithmetic of `metadata/decimal.c` in numbers: sums, products and long divisions by words are
  exact, and `normalize128` drops the fewest digits that bring the rounded number into 96 bits.
Trusted boundary: none
Main exports: Dec128.toNat
-/
import MonoRuntime.Metadata.DecimalMult
import MonoRuntime.Lib.HalfUp
import Mathlib.Algebra.Order.Field.Basic
import Mathlib.Tactic.IntervalCases
import Mathlib.Tactic.Linarith

namespace MonoRuntime.Decimal

open HalfUp BitVec

/-! ### Powers of ten -/

theorem ten_pow_pos (k : Nat) : 0 < 10 ^ k :=
  Nat.pow_pos (by decide)

theorem two_dvd_ten_pow {k : Nat} (some_ : k ≠ 0) : 2 ∣ 10 ^ k :=
  Dvd.dvd.trans (by decide) (dvd_pow_self 10 some_)

theorem ten_pow_split {i k : Nat} (le : i ≤ k) : 10 ^ k = 10 ^ (k - i) * 10 ^ i := by
  rw [← Nat.pow_add, Nat.sub_add_cancel le]

/-! ### Values -/

/-- The number of 128 bits. -/
def Dec128.toNat (a : Dec128) : Nat :=
  a.lo.toNat + 2 ^ 64 * a.hi.toNat

/-- The 96 bits of the mantissa. -/
def DecimalRepr.mantissa (d : DecimalRepr) : Nat :=
  d.lo32.toNat + 2 ^ 32 * d.mid32.toNat + 2 ^ 64 * d.hi32.toNat

theorem Dec128.toNat_lt (a : Dec128) : a.toNat < 2 ^ 128 := by
  unfold Dec128.toNat
  omega

variable (x : Dec128) (d : DecimalRepr)

theorem DecimalRepr.mantissa_lt : d.mantissa < 2 ^ 96 := by
  unfold DecimalRepr.mantissa
  omega

@[simp] theorem joinWords_toNat (hi lo : BitVec 32) : (joinWords hi lo).toNat = lo.toNat + 2 ^ 32 * hi.toNat := by
  have split : 2 ^ 32 * hi.toNat ||| lo.toNat = 2 ^ 32 * hi.toNat + lo.toNat :=
    (Nat.two_pow_add_eq_or_of_lt lo.isLt hi.toNat).symm
  rw [joinWords, toNat_or, toNat_shiftLeft, toNat_setWidth, toNat_setWidth,
    Nat.mod_eq_of_lt (show hi.toNat < 2 ^ 64 by omega), Nat.mod_eq_of_lt (show lo.toNat < 2 ^ 64 by omega),
    Nat.shiftLeft_eq, Nat.mul_comm, Nat.mod_eq_of_lt (by omega), split]
  omega

theorem to128_toNat : d.to128.toNat = d.mantissa := by
  unfold Dec128.toNat DecimalRepr.to128 DecimalRepr.mantissa
  simp only [joinWords_toNat, toNat_setWidth]
  omega

theorem decimalIsZero_iff : decimalIsZero d = true ↔ d.mantissa = 0 := by
  unfold decimalIsZero DecimalRepr.mantissa
  have zero : (0 : BitVec 32).toNat = 0 := rfl
  simp only [decide_eq_true_eq, toNat_eq, zero]
  omega

/-! ### 128-bit arithmetic -/

variable {a b : Dec128} (w : BitVec 64) (c : Dec128) (factor : BitVec 32) {n : Nat} (scale : Nat)

section Arithmetic

theorem sub128_toNat (a b : Dec128) : (sub128 a b).toNat = (a.toNat + 2 ^ 128 - b.toNat) % 2 ^ 128 := by
  have one : (1 : BitVec 64).toNat = 1 := rfl
  unfold Dec128.toNat sub128
  simp only [lt_def]
  split
  next borrow =>
    simp only [toNat_sub, one]
    omega
  next =>
    simp only [toNat_sub]
    omega

theorem negate128_toNat (nonzero : a.toNat ≠ 0) : (negate128 a).toNat = 2 ^ 128 - a.toNat := by
  unfold Dec128.toNat at nonzero ⊢
  have one : (1 : BitVec 64).toNat = 1 := rfl
  have zero : (0 : BitVec 64).toNat = 0 := rfl
  unfold negate128
  by_cases isZero : ~~~ (a.lo - 1) = 0
  · simp only
    rw [if_pos isZero]
    simp only [toNat_eq, zero, toNat_not, toNat_sub, one] at isZero ⊢
    omega
  · simp only
    rw [if_neg isZero]
    simp only [toNat_eq, zero, toNat_not, toNat_sub, one] at isZero ⊢
    omega

theorem add128_toNat (fits : a.toNat + b.toNat < 2 ^ 128) : (add128 a b).toNat = a.toNat + b.toNat := by
  have one : (1 : BitVec 64).toNat = 1 := rfl
  unfold Dec128.toNat at fits ⊢
  unfold add128
  simp only [lt_def]
  split
  next carry =>
    simp only [toNat_add, one] at carry ⊢
    omega
  next noCarry =>
    simp only [toNat_add] at noCarry ⊢
    omega

theorem combine128_sub (sign : Bool) (aLess : a.toNat < 2 ^ 127) (bLess : b.toNat < 2 ^ 127) :
    (combine128 true sign a b).1 = (if a.toNat < b.toNat then !sign else sign) ∧
      (combine128 true sign a b).2.toNat = (a.toNat - b.toNat) + (b.toNat - a.toNat) := by
  have difference := sub128_toNat a b
  have high : (sub128 a b).hi.msb = true ↔ a.toNat < b.toNat := by
    rw [msb_eq_decide, decide_eq_true_iff]
    unfold Dec128.toNat at *
    omega
  unfold combine128
  simp only [if_true]
  by_cases less : a.toNat < b.toNat
  · simp only [high.2 less, if_true, if_pos less, true_and]
    rw [negate128_toNat (by omega)]
    omega
  · have positive : (sub128 a b).hi.msb = false := by
      rw [← Bool.not_eq_true, high]
      exact less
    simp only [positive, Bool.false_eq_true, if_false, if_neg less, true_and]
    omega

theorem wordMul_toNat (isWord : w.toNat < 2 ^ 32) : (w * factor.setWidth 64).toNat = w.toNat * factor.toNat := by
  have product : w.toNat * factor.toNat ≤ (2 ^ 32 - 1) * (2 ^ 32 - 1) :=
    Nat.mul_le_mul (by omega) (by omega)
  rw [toNat_mul, toNat_setWidth, Nat.mod_eq_of_lt (show factor.toNat < 2 ^ 64 by omega),
    Nat.mod_eq_of_lt (by omega)]

theorem carry_toNat (a w : BitVec 64) (factor : BitVec 32) (isWord : w.toNat < 2 ^ 32) :
    ((a >>> 32) + w * factor.setWidth 64).toNat = a.toNat / 2 ^ 32 + w.toNat * factor.toNat := by
  have product : w.toNat * factor.toNat ≤ (2 ^ 32 - 1) * (2 ^ 32 - 1) :=
    Nat.mul_le_mul (by omega) (by omega)
  rw [toNat_add, wordMul_toNat w factor isWord, toNat_ushiftRight, Nat.shiftRight_eq_div_pow,
    Nat.mod_eq_of_lt (by omega)]

theorem lowHalf_toNat : ((w.setWidth 32).setWidth 64).toNat = w.toNat % 2 ^ 32 := by
  simp only [toNat_setWidth]
  omega

theorem highHalf_toNat : (w >>> 32).toNat = w.toNat / 2 ^ 32 := by
  rw [toNat_ushiftRight, Nat.shiftRight_eq_div_pow]

theorem mult128by32_carry :
    ∃ carry, (mult128by32 c factor false).1 = (if carry = 0 then decimalSuccess else decimalOverflow) ∧
      (mult128by32 c factor false).2.toNat + 2 ^ 128 * carry = c.toNat * factor.toNat := by
  have low := lowHalf_toNat c.lo
  have high := highHalf_toNat c.lo
  have low' := lowHalf_toNat c.hi
  have high' := highHalf_toNat c.hi
  -- The product, word by word.
  have whole : c.toNat * factor.toNat = c.lo.toNat % 2 ^ 32 * factor.toNat
      + 2 ^ 32 * (c.lo.toNat / 2 ^ 32 * factor.toNat) + 2 ^ 64 * (c.hi.toNat % 2 ^ 32 * factor.toNat)
      + 2 ^ 96 * (c.hi.toNat / 2 ^ 32 * factor.toNat) := by
    have loWords := Nat.mod_add_div c.lo.toNat (2 ^ 32)
    have hiWords := Nat.mod_add_div c.hi.toNat (2 ^ 32)
    calc (c.lo.toNat + 2 ^ 64 * c.hi.toNat) * factor.toNat
        = (c.lo.toNat % 2 ^ 32 + 2 ^ 32 * (c.lo.toNat / 2 ^ 32)
            + 2 ^ 64 * (c.hi.toNat % 2 ^ 32 + 2 ^ 32 * (c.hi.toNat / 2 ^ 32))) * factor.toNat := by
          rw [loWords, hiWords]
      _ = _ := by ring
  rw [whole]
  have zero : (0 : BitVec 64).toNat = 0 := rfl
  have isFirst := wordMul_toNat ((c.lo.setWidth 32).setWidth 64) factor (by omega)
  unfold mult128by32
  simp only [Bool.false_eq_true, if_false]
  unfold Dec128.toNat
  generalize (c.lo.setWidth 32).setWidth 64 * factor.setWidth 64 = a at *
  have isSecond := carry_toNat a (c.lo >>> 32) factor (by omega)
  generalize a >>> 32 + (c.lo >>> 32) * factor.setWidth 64 = b at *
  have isThird := carry_toNat b ((c.hi.setWidth 32).setWidth 64) factor (by omega)
  generalize b >>> 32 + (c.hi.setWidth 32).setWidth 64 * factor.setWidth 64 = d at *
  have isFourth := carry_toNat d (c.hi >>> 32) factor (by omega)
  generalize d >>> 32 + (c.hi >>> 32) * factor.setWidth 64 = e at *
  simp only [joinWords_toNat, toNat_eq, zero, highHalf_toNat, toNat_setWidth, low, high, low',
    high'] at *
  refine ⟨e.toNat / 2 ^ 32, rfl, ?_⟩
  omega

theorem mult128by32_spec (fits : c.toNat * factor.toNat < 2 ^ 128) : (mult128by32 c factor false).1 = decimalSuccess ∧
      (mult128by32 c factor false).2.toNat = c.toNat * factor.toNat := by
  obtain ⟨carry, rc, product⟩ := mult128by32_carry c factor
  have none : carry = 0 := by omega
  rw [none] at rc product
  exact ⟨rc, product⟩

theorem rest_toNat (a : BitVec 64) (factor : BitVec 32) :
    (a - a / factor.setWidth 64 * factor.setWidth 64).toNat = a.toNat % factor.toNat := by
  have isFactor : (factor.setWidth 64).toNat = factor.toNat := by
    rw [toNat_setWidth, Nat.mod_eq_of_lt (by omega)]
  have split := Nat.div_add_mod' a.toNat factor.toNat
  rw [toNat_sub, toNat_mul, toNat_udiv, isFactor,
    Nat.mod_eq_of_lt (show a.toNat / factor.toNat * factor.toNat < 2 ^ 64 by omega)]
  omega

theorem nextDividend_toNat {r w : BitVec 64} (isRest : r.toNat < 2 ^ 32) (isWord : w.toNat < 2 ^ 32) :
    (r <<< 32 ||| w).toNat = r.toNat * 2 ^ 32 + w.toNat := by
  rw [toNat_or, toNat_shiftLeft, Nat.shiftLeft_eq, Nat.mod_eq_of_lt (by omega), Nat.mul_comm,
    ← Nat.two_pow_add_eq_or_of_lt isWord]

theorem quotientWord_toNat {a b : BitVec 64} {factor : BitVec 32} (aLess : a.toNat < factor.toNat * 2 ^ 32)
    (bLess : b.toNat < factor.toNat * 2 ^ 32) :
    ((a / factor.setWidth 64) <<< 32 ||| ((b / factor.setWidth 64).setWidth 32).setWidth 64).toNat
      = a.toNat / factor.toNat * 2 ^ 32 + b.toNat / factor.toNat := by
  have isFactor : (factor.setWidth 64).toNat = factor.toNat := by
    rw [toNat_setWidth, Nat.mod_eq_of_lt (by omega)]
  have aDigit : a.toNat / factor.toNat < 2 ^ 32 := Nat.div_lt_of_lt_mul aLess
  have bDigit : b.toNat / factor.toNat < 2 ^ 32 := Nat.div_lt_of_lt_mul bLess
  have isB : (((b / factor.setWidth 64).setWidth 32).setWidth 64).toNat = b.toNat / factor.toNat := by
    rw [lowHalf_toNat, toNat_udiv, isFactor, Nat.mod_eq_of_lt bDigit]
  rw [nextDividend_toNat (by rwa [toNat_udiv, isFactor]) (by rwa [isB]), isB, toNat_udiv, isFactor]

theorem divWord_spec {rest h : BitVec 64} {factor : BitVec 32} (isRest : rest.toNat < factor.toNat) :
    (divWord rest h factor).1.toNat * factor.toNat + (divWord rest h factor).2.toNat
        = rest.toNat * 2 ^ 64 + h.toNat ∧ (divWord rest h factor).2.toNat < factor.toNat := by
  have positive : 0 < factor.toNat := by omega
  have bound : factor.toNat < 2 ^ 32 := factor.isLt
  have low := lowHalf_toNat h
  have high := highHalf_toNat h
  have isA := @nextDividend_toNat rest (h >>> 32) (by omega) (by omega)
  unfold divWord
  simp only
  generalize rest <<< 32 ||| h >>> 32 = a at *
  have restA := rest_toNat a factor
  have lessA := Nat.mod_lt a.toNat positive
  rw [← restA] at lessA
  have isB := nextDividend_toNat (w := (h.setWidth 32).setWidth 64) (Nat.lt_trans lessA bound) (by omega)
  generalize (a - a / factor.setWidth 64 * factor.setWidth 64) <<< 32 ||| (h.setWidth 32).setWidth 64 = b at *
  have restB := rest_toNat b factor
  have lessB := Nat.mod_lt b.toNat positive
  rw [quotientWord_toNat (by omega) (by omega), restB]
  refine ⟨?_, lessB⟩
  have divA := Nat.div_add_mod' a.toNat factor.toNat
  have divB := Nat.div_add_mod' b.toNat factor.toNat
  calc (a.toNat / factor.toNat * 2 ^ 32 + b.toNat / factor.toNat) * factor.toNat + b.toNat % factor.toNat
      = a.toNat / factor.toNat * factor.toNat * 2 ^ 32
          + (b.toNat / factor.toNat * factor.toNat + b.toNat % factor.toNat) := by ring
    _ = rest.toNat * 2 ^ 64 + h.toNat := by omega

theorem div128by32_eq : (div128by32 x factor).2.2 =
        { lo := (divWord (divWord 0 x.hi factor).2 x.lo factor).1, hi := (divWord 0 x.hi factor).1 } ∧
      ((div128by32 x factor).1 = true ↔
        factor.setWidth 64 ≤ (divWord (divWord 0 x.hi factor).2 x.lo factor).2 <<< 1) ∧
      (div128by32 x factor).2.1 = (divWord (divWord 0 x.hi factor).2 x.lo factor).2.setWidth 32 := by
  have first : (0 : BitVec 64) <<< 32 ||| x.hi >>> 32 = x.hi >>> 32 := by simp
  unfold divWord div128by32
  simp only [first, true_and, and_true, decide_eq_true_iff, ge_iff_le]
  constructor
  · rintro (le | ⟨same, _⟩)
    · exact le
    · exact BitVec.le_of_eq same.symm
  · exact Or.inl

theorem div128by32_words (nonzero : factor.toNat ≠ 0) :
    (div128by32 x factor).2.2.toNat * factor.toNat + (divWord (divWord 0 x.hi factor).2 x.lo factor).2.toNat = x.toNat ∧
      (divWord (divWord 0 x.hi factor).2 x.lo factor).2.toNat < factor.toNat := by
  have positive : 0 < factor.toNat := Nat.pos_of_ne_zero nonzero
  obtain ⟨isQuotient, _⟩ := div128by32_eq x factor
  obtain ⟨high, highRest⟩ := @divWord_spec 0 x.hi factor positive
  obtain ⟨low, lowRest⟩ := @divWord_spec _ x.lo factor highRest
  rw [isQuotient]
  generalize divWord 0 x.hi factor = first at *
  generalize divWord first.2 x.lo factor = second at *
  have zero : (0 : BitVec 64).toNat = 0 := rfl
  refine ⟨?_, lowRest⟩
  calc (second.1.toNat + 2 ^ 64 * first.1.toNat) * factor.toNat + second.2.toNat
      = second.1.toNat * factor.toNat + second.2.toNat + 2 ^ 64 * (first.1.toNat * factor.toNat) := by ring
    _ = x.lo.toNat + 2 ^ 64 * x.hi.toNat := by omega

theorem div128by32_division (nonzero : factor.toNat ≠ 0) : (div128by32 x factor).2.2.toNat = x.toNat / factor.toNat ∧
      (div128by32 x factor).1 = roundsUp x.toNat factor.toNat := by
  have isFactor : (factor.setWidth 64).toNat = factor.toNat := by
    rw [toNat_setWidth, Nat.mod_eq_of_lt (by omega)]
  obtain ⟨_, isRound, _⟩ := div128by32_eq x factor
  obtain ⟨whole, less⟩ := div128by32_words x factor nonzero
  have rest : x.toNat % factor.toNat = (divWord (divWord 0 x.hi factor).2 x.lo factor).2.toNat := by
    rw [← whole, Nat.mul_add_mod_self_right, Nat.mod_eq_of_lt less]
  constructor
  · rw [← whole]
    exact (Nat.div_eq_of_lt_le (Nat.le_add_right _ _) (by rw [Nat.succ_mul]; omega)).symm
  · rw [Bool.eq_iff_iff, isRound, roundsUp, rest, decide_eq_true_iff, le_def, isFactor,
      toNat_shiftLeft, Nat.shiftLeft_eq, Nat.mod_eq_of_lt (by omega), Nat.pow_one, Nat.mul_comm]

theorem div128by32_rest (nonzero : factor.toNat ≠ 0) : (div128by32 x factor).2.1.toNat = x.toNat % factor.toNat := by
  obtain ⟨_, _, isRest⟩ := div128by32_eq x factor
  obtain ⟨whole, less⟩ := div128by32_words x factor nonzero
  rw [isRest, toNat_setWidth, Nat.mod_eq_of_lt (by omega), ← whole, Nat.mul_add_mod_self_right,
    Nat.mod_eq_of_lt less]

theorem div128by32_spec (nonzero : factor.toNat ≠ 0) : (div128by32 x factor).2.2.toNat = x.toNat / factor.toNat :=
  (div128by32_division x factor nonzero).1

theorem roundUp128_toNat {c : Dec128} (fits : c.toNat + 1 < 2 ^ 128) : (roundUp128 c).toNat = c.toNat + 1 := by
  have one : (1 : BitVec 64).toNat = 1 := rfl
  have zero : (0 : BitVec 64).toNat = 0 := rfl
  unfold Dec128.toNat at fits ⊢
  unfold roundUp128
  simp only
  by_cases isZero : c.lo + 1 = 0
  · rw [if_pos isZero]
    simp only [toNat_eq, zero, toNat_add, one] at isZero ⊢
    omega
  · rw [if_neg isZero]
    simp only [toNat_eq, zero, toNat_add, one] at isZero ⊢
    omega

theorem overhang_toNat : c.overhang.toNat = c.toNat / 2 ^ 96 := by
  unfold Dec128.overhang Dec128.toNat
  rw [toNat_setWidth, highHalf_toNat]
  omega

theorem decadeFactor_toNat {idx : Nat} (inTable : idx ≤ 9) : (decadeFactor idx).toNat = 10 ^ idx := by
  interval_cases idx <;> rfl

/-! ### Scales -/

theorem multiplyDecades_spec : ∀ (fuel deltaScale : Nat) (a : Dec128),
    deltaScale ≤ fuel → a.toNat * 10 ^ deltaScale < 2 ^ 128 → (multiplyDecades fuel deltaScale a).1 = decimalSuccess ∧
        (multiplyDecades fuel deltaScale a).2.toNat = a.toNat * 10 ^ deltaScale
  | 0, deltaScale, a, enough, _ => by
      rw [Nat.le_zero.1 enough, Nat.pow_zero, Nat.mul_one]
      exact ⟨rfl, rfl⟩
  | fuel + 1, deltaScale, a, enough, fits => by
      rw [multiplyDecades]
      split
      next isZero =>
        rw [isZero, Nat.pow_zero, Nat.mul_one]
        exact ⟨rfl, rfl⟩
      next nonzero =>
        generalize isIdx : (if deltaScale > decimalMaxIntfactors then decimalMaxIntfactors else deltaScale) = idx
        have bounds : 1 ≤ idx ∧ idx ≤ 9 ∧ idx ≤ deltaScale := by
          rw [← isIdx, decimalMaxIntfactors]
          split <;> omega
        have split : 10 ^ deltaScale = 10 ^ idx * 10 ^ (deltaScale - idx) := by
          rw [← Nat.pow_add]
          congr 1
          omega
        rw [split, ← Nat.mul_assoc] at fits
        have first := mult128by32_spec a (decadeFactor idx) (by
          rw [decadeFactor_toNat bounds.2.1]
          exact Nat.lt_of_le_of_lt (Nat.le_mul_of_pos_right _ (Nat.pow_pos (by decide))) fits)
        rw [decadeFactor_toNat bounds.2.1] at first
        simp only [first.1, ne_eq, not_true_eq_false, if_false]
        have rest := multiplyDecades_spec fuel (deltaScale - idx) (mult128by32 a (decadeFactor idx) false).2
          (by omega) (by rwa [first.2])
        rw [split, ← Nat.mul_assoc, ← first.2]
        exact rest

theorem adjustScale128_spec (a : Dec128) (deltaScale : Nat) (inRange : deltaScale ≤ 28)
    (fits : a.toNat * 10 ^ deltaScale < 2 ^ 128) : (adjustScale128 a deltaScale).1 = decimalSuccess ∧
      (adjustScale128 a deltaScale).2.toNat = a.toNat * 10 ^ deltaScale := by
  unfold adjustScale128
  rw [if_neg (by omega)]
  split
  next =>
    rw [if_neg (by rw [decimalMaxScale]; omega)]
    exact multiplyDecades_spec deltaScale deltaScale a (Nat.le_refl _) fits
  next isZero =>
    have isZero : deltaScale = 0 := by omega
    rw [isZero, Nat.pow_zero, Nat.mul_one]
    exact ⟨rfl, rfl⟩

theorem divideDecades_spec : ∀ (fuel deltaScale : Nat) (a : Dec128), deltaScale ≤ fuel →
    (divideDecades fuel deltaScale a).toNat = a.toNat / 10 ^ deltaScale
  | 0, deltaScale, a, enough => by
      rw [Nat.le_zero.mp enough, Nat.pow_zero, Nat.div_one]
      rfl
  | fuel + 1, deltaScale, a, enough => by
      rw [divideDecades]
      split
      next isZero => rw [isZero, Nat.pow_zero, Nat.div_one]
      next nonzero =>
        generalize isIdx : (if deltaScale > decimalMaxIntfactors then decimalMaxIntfactors else deltaScale) = idx
        have bounds : 1 ≤ idx ∧ idx ≤ 9 ∧ idx ≤ deltaScale := by
          rw [← isIdx, decimalMaxIntfactors]
          split <;> omega
        have factor := decadeFactor_toNat bounds.2.1
        have split : 10 ^ deltaScale = 10 ^ idx * 10 ^ (deltaScale - idx) := by
          rw [← Nat.pow_add, Nat.add_sub_cancel' bounds.2.2]
        have quotient := div128by32_spec a (decadeFactor idx) (by rw [factor]; exact (Nat.pow_pos (by decide)).ne')
        rw [divideDecades_spec fuel (deltaScale - idx) _ (by omega), quotient, factor, Nat.div_div_eq_div_mul, ← split]

theorem adjustScale128_cut (a : Dec128) (deltaScale : Nat) (inRange : deltaScale ≤ 28) :
    (adjustScale128 a (-deltaScale)).1 = decimalSuccess ∧
      (adjustScale128 a (-deltaScale)).2.toNat = a.toNat / 10 ^ deltaScale := by
  unfold adjustScale128
  by_cases none : deltaScale = 0
  · rw [none, Nat.pow_zero, Nat.div_one]
    exact ⟨rfl, rfl⟩
  · have isDelta : (-(deltaScale : Int) * -1).toNat = deltaScale := by omega
    rw [if_pos (by omega)]
    simp only [isDelta]
    rw [if_neg (by unfold decimalMaxScale; omega)]
    exact ⟨rfl, divideDecades_spec deltaScale deltaScale a le_rfl⟩

/-! ### Normalization -/

theorem overhangDigits_spec (overhang : BitVec 32) : 1 ≤ overhangDigits overhang ∧ overhangDigits overhang ≤ 9 ∧
      (overhangDigits overhang ≠ 1 → 10 ^ (overhangDigits overhang - 1) ≤ overhang.toNat) := by
  have fewer : ∀ digits ≤ 9, ¬ overhang < decadeFactor digits → 10 ^ digits ≤ overhang.toNat := by
    intro digits inTable notLess
    rw [lt_def, decadeFactor_toNat inTable] at notLess
    omega
  unfold overhangDigits decimalMaxIntfactors
  cases found : (List.range' 1 (9 - 1)).find? fun digits => overhang < decadeFactor digits with
  | none =>
    have all := List.find?_range'_eq_none.mp found
    refine ⟨by decide, le_rfl, fun _ => fewer 8 (by decide) ?_⟩
    simpa using all 8 (by decide) (by decide)
  | some digits =>
    obtain ⟨_, inside, before⟩ := List.find?_range'_eq_some.mp found
    rw [List.mem_range'_1] at inside
    rw [Option.getD_some]
    refine ⟨inside.1, by omega, fun several => fewer _ (by omega) ?_⟩
    simpa using before (digits - 1) (by omega) (by omega)

/-- The state between two passes: some digits of a number are dropped, and the overhang tells whether the rounded
number fits. -/
structure Dropped (n digits : Nat) (c : Dec128) (roundBit : Bool) (overhang : BitVec 32) : Prop where
  quotient : c.toNat = n / 10 ^ digits
  round : overhang = 0 → roundBit = roundsUp n (10 ^ digits)
  done_iff : overhang = 0 ↔ roundDiv n (10 ^ digits) < 2 ^ 96
  above : ∀ more, more ≠ 0 → 10 ^ more ≤ overhang.toNat → 2 ^ 96 ≤ n / 10 ^ (digits + more)

/-- The overhang that is read from the number tells it where the round bit carries nothing into it. -/
theorem Dropped.intro {n digits : Nat} {c : Dec128} {roundBit : Bool} (quotient : c.toNat = n / 10 ^ digits)
    (round : c.toNat < 2 ^ 96 → roundBit = roundsUp n (10 ^ digits))
    (noCarry : c.toNat + 1 = 2 ^ 96 → roundBit = false) : Dropped n digits c roundBit c.overhang := by
  have zero : (0 : BitVec 32).toNat = 0 := rfl
  have isOverhang := overhang_toNat c
  have none_iff : c.overhang = 0 ↔ c.toNat < 2 ^ 96 := by
    rw [toNat_eq, zero, isOverhang]
    omega
  refine ⟨quotient, fun none => round (none_iff.mp none), ?_, fun more some_ large => ?_⟩
  · rw [none_iff, roundDiv_eq (Nat.pow_pos (by decide)), ← quotient]
    constructor
    · intro below
      rw [← round below]
      by_cases last : c.toNat + 1 = 2 ^ 96
      · rw [noCarry last]
        exact below
      · have bit := Bool.toNat_le roundBit
        omega
    · exact Nat.lt_of_le_of_lt (Nat.le_add_right _ _)
  · rw [Nat.pow_add, ← Nat.div_div_eq_div_mul, ← quotient, Nat.le_div_iff_mul_le (Nat.pow_pos (by decide)),
      Nat.mul_comm]
    rw [isOverhang, Nat.le_div_iff_mul_le (by decide)] at large
    exact large

theorem Dropped.step {digits : Nat} {c : Dec128} {roundBit : Bool} {overhang : BitVec 32}
    (is : Dropped n digits c roundBit overhang) (more : overhang ≠ 0) :
    2 ^ 96 ≤ roundDiv n (10 ^ (digits + overhangDigits overhang - 1)) ∧
      let divided := div128by32 c (decadeFactor (overhangDigits overhang))
      Dropped n (digits + overhangDigits overhang) divided.2.2 divided.1
        (if true ∧ divided.1 ∧ divided.2.2.lo = BitVec.allOnes 64 ∧ divided.2.2.hi.setWidth 32 = BitVec.allOnes 32 then 1
          else divided.2.2.overhang) := by
  obtain ⟨several, inTable, isLarge⟩ := overhangDigits_spec overhang
  generalize overhangDigits overhang = d at *
  constructor
  · by_cases one : d = 1
    · have above := mt is.done_iff.mpr more
      rw [one, Nat.add_sub_cancel]
      omega
    · have above := is.above (d - 1) (by omega) (isLarge one)
      rw [Nat.add_sub_assoc several]
      exact Nat.le_trans above (div_le_roundDiv (ten_pow_pos _))
  · have factor := decadeFactor_toNat inTable
    obtain ⟨isQuotient, isRound⟩ := div128by32_division c (decadeFactor d) (by rw [factor]; exact (ten_pow_pos d).ne')
    have even : 2 ∣ 10 ^ d := two_dvd_ten_pow (by omega)
    rw [factor, is.quotient] at isQuotient isRound
    rw [Nat.div_div_eq_div_mul, ← Nat.pow_add] at isQuotient
    rw [roundsUp_div (ten_pow_pos _) even, ← Nat.pow_add] at isRound
    intro divided
    have ones : ∀ {m : BitVec 32}, m = BitVec.allOnes 32 → m.toNat = 2 ^ 32 - 1 := by
      rintro _ rfl
      rfl
    have hiWord : (divided.2.2.hi.setWidth 32).toNat = divided.2.2.hi.toNat % 2 ^ 32 := toNat_setWidth ..
    split
    next carry =>
      -- The number is all ones and will be rounded up: another digit has to go.
      obtain ⟨_, up, isLo, isHi⟩ := carry
      have lo : divided.2.2.lo.toNat = 2 ^ 64 - 1 := by rw [isLo, toNat_allOnes]
      have hi := ones isHi
      have above : 2 ^ 96 ≤ roundDiv n (10 ^ (digits + d)) := by
        rw [roundDiv_eq (ten_pow_pos _), ← isQuotient, ← isRound, up, Bool.toNat_true]
        show 2 ^ 96 ≤ divided.2.2.toNat + 1
        unfold Dec128.toNat
        omega
      refine ⟨isQuotient, fun none => absurd none (by decide), ?_, fun more some_ large => ?_⟩
      · exact ⟨fun none => absurd none (by decide), fun below => by omega⟩
      · have ten : 10 ^ 1 ≤ 10 ^ more := Nat.pow_le_pow_right (by decide) (by omega)
        have one : (1 : BitVec 32).toNat = 1 := rfl
        omega
    next noCarry =>
      refine Dropped.intro isQuotient (fun _ => isRound) fun last => ?_
      rw [← Bool.not_eq_true]
      intro up
      refine noCarry ⟨rfl, up, ?_, ?_⟩
      · apply eq_of_toNat_eq
        rw [toNat_allOnes]
        unfold Dec128.toNat at last
        omega
      · apply eq_of_toNat_eq
        rw [toNat_allOnes, hiWord]
        unfold Dec128.toNat at last
        omega

theorem normalizeLoop_spec {n total : Nat} : ∀ (fuel scale digits : Nat) (c : Dec128) (roundBit : Bool)
    (overhang : BitVec 32), scale < fuel → digits + scale = total → Dropped n digits c roundBit overhang →
      match normalizeLoop true fuel c scale roundBit overhang with
      | none => 2 ^ 96 ≤ roundDiv n (10 ^ total)
      | some (c', scale', roundBit') => ∃ k, Fewest 10 (2 ^ 96) n digits k ∧ k ≤ total ∧
          scale' = (total - k : Nat) ∧ c'.toNat = n / 10 ^ k ∧ roundBit' = roundsUp n (10 ^ k)
  | 0, _, _, _, _, _, enough, _, _ => absurd enough (Nat.not_lt_zero _)
  | fuel + 1, scale, digits, c, roundBit, overhang, enough, isTotal, is => by
      rw [normalizeLoop]
      by_cases none : overhang = 0
      · rw [if_pos none]
        refine ⟨digits, ⟨le_rfl, is.done_iff.mp none, fun less => absurd less (Nat.lt_irrefl _)⟩, by omega, ?_,
          is.quotient, is.round none⟩
        rw [← isTotal, Nat.add_sub_cancel_left]
      · rw [if_neg none]
        obtain ⟨several, _, _⟩ := overhangDigits_spec overhang
        obtain ⟨above, next⟩ := is.step none
        simp only at next ⊢
        by_cases negative : (scale : Int) - overhangDigits overhang < 0
        · rw [if_pos negative]
          have last : total ≤ digits + overhangDigits overhang - 1 := by omega
          exact Nat.le_trans above (roundDiv_pow_antitone (by decide) last)
        · rw [if_neg negative]
          have isScale : (scale : Int) - overhangDigits overhang = (scale - overhangDigits overhang : Nat) := by omega
          have isTotal' : digits + overhangDigits overhang + (scale - overhangDigits overhang) = total := by omega
          have run := normalizeLoop_spec fuel (scale - overhangDigits overhang) (digits + overhangDigits overhang)
            _ _ _ (by omega) isTotal' next
          rw [isScale]
          revert run
          cases normalizeLoop true fuel _ _ _ _ with
          | none => exact id
          | some result =>
            rintro ⟨k, is', rest⟩
            refine ⟨k, ⟨by have := is'.least_le; omega, is'.below, fun _ => ?_⟩, rest⟩
            obtain less | same := Nat.lt_or_eq_of_le is'.least_le
            · exact is'.fewest less
            · rwa [← same]

/-- A number that was brought into 96 bits: the digits that it lost, of all behind its point. -/
structure Shortened (n least total : Nat) (result : Int × Dec128 × Int) (k : Nat) : Prop where
  fewest : Fewest 10 (2 ^ 96) n least k
  le_total : k ≤ total
  success : result.1 = decimalSuccess
  scale : result.2.2 = (total - k : Nat)
  mantissa : result.2.1.toNat = roundDiv n (10 ^ k)

/-- The normalization drops the fewest digits, and overflows where all digits behind the point are not enough. -/
theorem normalize128_cases {total digits scale : Nat} {c : Dec128} {roundBit : Bool}
    (isTotal : digits + scale = total) (start : Dropped n digits c roundBit c.overhang) :
    ((normalize128 c scale true roundBit).1 = decimalOverflow ∧ 2 ^ 96 ≤ roundDiv n (10 ^ total)) ∨
      ∃ k, Shortened n digits total (normalize128 c scale true roundBit) k := by
  have run := normalizeLoop_spec (scale + 1) scale digits c roundBit c.overhang (Nat.lt_succ_self _) isTotal start
  unfold normalize128
  rw [Int.toNat_natCast]
  revert run
  cases normalizeLoop true (scale + 1) c scale roundBit c.overhang with
  | none => exact fun above => Or.inl ⟨rfl, above⟩
  | some result =>
    obtain ⟨c', scale', roundBit'⟩ := result
    rintro ⟨k, fewest, le, isScale, quotient, round⟩
    refine Or.inr ⟨k, fewest, le, rfl, isScale, ?_⟩
    have rounded := roundDiv_eq (n := n) (show 0 < 10 ^ k from Nat.pow_pos (by decide))
    rw [rounded, ← quotient, ← round]
    have below := fewest.below
    simp only [true_and]
    cases up : roundBit' with
    | true =>
      rw [if_pos rfl, roundUp128_toNat (by omega), Bool.toNat_true]
    | false => rw [if_neg (by decide), Bool.toNat_false, Nat.add_zero]

theorem Dropped.start : Dropped c.toNat 0 c false c.overhang := by
  refine Dropped.intro ?_ (fun _ => ?_) fun _ => rfl
  · rw [Nat.pow_zero, Nat.div_one]
  · rw [Nat.pow_zero, roundsUp_one]

/-- The result of a normalization. -/
structure Normalized (c : Dec128) (scale : Nat) (result : Int × Dec128 × Int) : Prop where
  success : result.1 = decimalSuccess
  fits : result.2.1.toNat < 2 ^ 96
  zero_iff : result.2.1.toNat = 0 ↔ c.toNat = 0
  scale_nonneg : 0 ≤ result.2.2
  scale_le : result.2.2 ≤ scale

/-- What is a little above 96 bits is normalized at the cost of one digit, and does not become zero. -/
theorem normalize128_spec (small : c.toNat < 2 ^ 98) (spare : 2 ^ 96 ≤ c.toNat → 1 ≤ scale) :
    Normalized c scale (normalize128 c scale true false) := by
  -- One digit is enough.
  have one : roundDiv c.toNat (10 ^ 1) < 2 ^ 96 := by
    rw [roundDiv_lt_iff (by decide)]
    omega
  obtain ⟨_, above⟩ | ⟨k, shortened⟩ := normalize128_cases (Nat.zero_add scale) (Dropped.start c)
  · obtain zero | some_ := Nat.eq_zero_or_pos scale
    · rw [zero, Nat.pow_zero, roundDiv_one] at above
      have := spare above
      omega
    · have down := @roundDiv_pow_antitone 10 c.toNat 1 scale (by decide) some_
      omega
  · have le := shortened.fewest.le (by decide) (Nat.zero_le 1) one
    have below := shortened.fewest.below
    refine ⟨shortened.success, by rwa [shortened.mantissa], ?_, ?_, ?_⟩
    · rw [shortened.mantissa]
      obtain zero | more := Nat.eq_zero_or_pos k
      · rw [zero, Nat.pow_zero, roundDiv_one]
      · have isOne : k = 1 := Nat.le_antisymm le more
        have above := shortened.fewest.fewest more
        have least := @div_le_roundDiv c.toNat (10 ^ k) (Nat.pow_pos (by decide))
        rw [isOne, Nat.sub_self, Nat.pow_zero, roundDiv_one] at above
        rw [isOne] at least ⊢
        omega
    · rw [shortened.scale]
      exact Int.natCast_nonneg _
    · rw [shortened.scale]
      omega

/-- Without an exponent and with a scale in its range there is nothing to rescale. -/
theorem rescale128_eq {c : Dec128} {scale : Nat} (inRange : scale ≤ 28) :
    rescale128 c scale 0 0 decimalMaxScale true = some (normalize128 c scale true false) := by
  have above : ((scale : Int) - decimalMaxScale).toNat = 0 := by
    rw [decimalMaxScale]
    omega
  have below : (0 - (scale : Int)).toNat = 0 := by omega
  simp only [rescale128, reduceExp, shiftRest, above, dropDigits, below, addDigits, ne_eq, not_true_eq_false,
    if_false]

/-- Digits are dropped down to the greatest scale, and the last division gives the round bit. -/
theorem dropDigits_spec : ∀ (fuel scale : Nat) (s : Rescale), s.scale = scale → scale - 28 ≤ fuel →
    (dropDigits decimalMaxScale fuel s).scale = (min scale 28 : Nat) ∧
      (dropDigits decimalMaxScale fuel s).c.toNat = s.c.toNat / 10 ^ (scale - 28) ∧
      (dropDigits decimalMaxScale fuel s).roundBit =
        if 28 < scale then roundsUp s.c.toNat (10 ^ (scale - 28)) else s.roundBit
  | 0, scale, s, isScale, enough => by
      have none : scale - 28 = 0 := Nat.le_zero.mp enough
      rw [dropDigits, none, Nat.pow_zero, Nat.div_one, if_neg (by omega), isScale, Nat.min_eq_left (by omega)]
      exact ⟨rfl, rfl, rfl⟩
  | fuel + 1, scale, s, isScale, enough => by
      rw [dropDigits, isScale]
      unfold decimalMaxScale
      by_cases above : 28 < scale
      · rw [if_pos (by omega), if_pos above]
        generalize isDigits : min (scale - 28) 9 = digits
        have inTable : 1 ≤ digits ∧ digits ≤ 9 ∧ digits ≤ scale - 28 := by omega
        have isI : (if (scale : Int) - (28 : Nat) > (decimalMaxIntfactors : Nat) then (decimalMaxIntfactors : Int)
            else (scale : Int) - (28 : Nat)) = (digits : Int) := by
          unfold decimalMaxIntfactors
          split <;> omega
        simp only [isI, Int.toNat_natCast]
        have factor := decadeFactor_toNat inTable.2.1
        obtain ⟨quotient, round⟩ :=
          div128by32_division s.c (decadeFactor digits) (by rw [factor]; exact (ten_pow_pos _).ne')
        rw [factor] at quotient round
        have split : 10 ^ (scale - 28) = 10 ^ digits * 10 ^ (scale - digits - 28) := by
          rw [← Nat.pow_add]
          congr 1
          omega
        generalize div128by32 s.c (decadeFactor digits) = divided at *
        obtain ⟨scale', c', roundBit'⟩ := dropDigits_spec fuel (scale - digits)
          { s with c := divided.2.2, scale := (scale : Int) - digits, roundBit := divided.1 } (by simp only; omega)
          (by omega)
        unfold decimalMaxScale at scale' c' roundBit'
        rw [scale', c', roundBit', quotient, round, Nat.div_div_eq_div_mul, ← split]
        refine ⟨by omega, rfl, ?_⟩
        by_cases more : 28 < scale - digits
        · have even : 2 ∣ 10 ^ (scale - digits - 28) := two_dvd_ten_pow (by omega)
          rw [if_pos more, roundsUp_div (ten_pow_pos _) even, ← split]
        · rw [if_neg more]
          have all : digits = scale - 28 := by omega
          rw [all]
      · have none : scale - 28 = 0 := by omega
        rw [if_neg (by omega), if_neg above, none, Nat.pow_zero, Nat.div_one, isScale, Nat.min_eq_left (by omega)]
        exact ⟨rfl, rfl, rfl⟩

theorem addDigits_above : ∀ (fuel : Nat) (s : Rescale), s.scale ≤ 0 → (0 - s.scale).toNat ≤ fuel →
    s.roundBit = false → 2 ^ 96 ≤ s.c.toNat → (addDigits 0 true fuel s).1 = decimalOverflow ∨
        (addDigits 0 true fuel s).1 = decimalSuccess ∧ (addDigits 0 true fuel s).2.scale = 0 ∧
          (addDigits 0 true fuel s).2.roundBit = false ∧ 2 ^ 96 ≤ (addDigits 0 true fuel s).2.c.toNat
  | 0, s, nonpos, enough, noBit, above => by
      exact Or.inr ⟨rfl, by simp only [addDigits]; omega, noBit, above⟩
  | fuel + 1, s, nonpos, enough, noBit, above => by
      rw [addDigits]
      by_cases negative : s.scale < 0
      · rw [if_pos negative]
        generalize isDigits : min (0 - s.scale).toNat 9 = digits
        have inTable : 1 ≤ digits ∧ digits ≤ 9 ∧ digits ≤ (0 - s.scale).toNat := by omega
        have isI : (if (0 : Int) - s.scale > (decimalMaxIntfactors : Nat) then (decimalMaxIntfactors : Int)
            else (0 : Int) - s.scale) = (digits : Int) := by
          unfold decimalMaxIntfactors
          split <;> omega
        simp only [isI, Int.toNat_natCast, noBit, if_true]
        have factor := decadeFactor_toNat inTable.2.1
        obtain ⟨carry, rc, product⟩ := mult128by32_carry s.c (decadeFactor digits)
        have grows : s.c.toNat ≤ s.c.toNat * (decadeFactor digits).toNat := by
          rw [factor]
          exact Nat.le_mul_of_pos_right _ (Nat.pow_pos (by decide))
        by_cases none : carry = 0
        · rw [rc, if_pos none, if_neg (not_not.mpr rfl)]
          refine addDigits_above fuel _ ?_ ?_ rfl ?_
          · simp only
            omega
          · simp only
            omega
          · simp only
            omega
        · rw [rc, if_neg none, if_pos (by decide)]
          exact Or.inl rfl
      · rw [if_neg negative]
        exact Or.inr ⟨rfl, Int.le_antisymm nonpos (Int.not_lt.mp negative), noBit, above⟩

/-- What `rescale128` does without an exponent, where no digits have to be added. -/
theorem rescale128_spec : ∃ c' roundBit, rescale128 c scale 0 0 decimalMaxScale true
        = some (normalize128 c' (min scale 28 : Nat) true roundBit) ∧ c'.toNat = c.toNat / 10 ^ (scale - 28) ∧
      roundBit = if 28 < scale then roundsUp c.toNat (10 ^ (scale - 28)) else false := by
  obtain ⟨isScale, quotient, round⟩ := dropDigits_spec ((scale : Int) - decimalMaxScale).toNat scale
    { c := c, scale := scale, texp := 0, roundBit := false } rfl (by unfold decimalMaxScale; omega)
  have none : (0 - ((min scale 28 : Nat) : Int)).toNat = 0 := by omega
  simp only [rescale128, reduceExp, shiftRest, isScale, none, addDigits, ne_eq, not_true_eq_false, if_false]
  exact ⟨_, _, rfl, quotient, round⟩

theorem rescale128_negative {c : Dec128} {scale : Int} (negative : scale < 0) (above : 2 ^ 96 ≤ c.toNat) :
    ∃ c' scale', rescale128 c scale 0 0 decimalMaxScale true = some (decimalOverflow, c', scale') := by
  have none : (scale - decimalMaxScale).toNat = 0 := by omega
  simp only [rescale128, reduceExp, shiftRest, none, dropDigits]
  have run := addDigits_above (0 - scale).toNat { c := c, scale := scale, texp := 0, roundBit := false }
    (Int.le_of_lt negative) le_rfl rfl above
  generalize addDigits 0 true (0 - scale).toNat { c := c, scale := scale, texp := 0, roundBit := false } = result at *
  obtain ⟨rc, s⟩ := result
  simp only at run ⊢
  obtain rfl | ⟨rfl, isScale, noBit, above⟩ := run
  · rw [if_pos (by decide)]
    exact ⟨_, _, rfl⟩
  · rw [if_neg (not_not.mpr rfl), isScale, noBit]
    obtain ⟨overflow, _⟩ | ⟨k, shortened⟩ := @normalize128_cases s.c.toNat 0 0 0 s.c false rfl (Dropped.start s.c)
    · exact ⟨_, _, congrArg some (Prod.ext overflow rfl)⟩
    · have below := shortened.fewest.below
      rw [Nat.le_zero.mp shortened.le_total, Nat.pow_zero, roundDiv_one] at below
      omega

theorem pack128toDecimal_fits {scale : Nat} (sign : Bool) (inRange : scale ≤ 28) (fits : a.toNat < 2 ^ 96) :
    ∃ packed, pack128toDecimal d a scale sign = (decimalSuccess, packed) ∧ packed.sign = sign ∧
      packed.scale.toNat = scale ∧ packed.mantissa = a.toNat := by
  have zero : (0 : BitVec 64).toNat = 0 := rfl
  unfold Dec128.toNat at fits
  have high : a.hi >>> 32 = 0 := eq_of_toNat_eq (by rw [highHalf_toNat, zero]; omega)
  unfold pack128toDecimal
  rw [if_neg (by rw [high, decimalMaxScale]; rintro (_ | _ | wrong) <;> [omega; omega; exact wrong rfl])]
  refine ⟨_, rfl, rfl, ?_, ?_⟩
  · show (BitVec.ofInt 8 scale).toNat = scale
    rw [ofInt_natCast, BitVec.toNat_ofNat, Nat.mod_eq_of_lt (by omega)]
  · unfold DecimalRepr.mantissa Dec128.toNat
    simp only [toNat_setWidth, highHalf_toNat]
    omega

theorem pack128toDecimal_overflow (scale : Int) (sign : Bool) (above : 2 ^ 96 ≤ a.toNat) :
    pack128toDecimal d a scale sign = (decimalOverflow, d) := by
  have zero : (0 : BitVec 64).toNat = 0 := rfl
  have high : a.hi >>> 32 ≠ 0 := by
    intro none
    have none := congrArg BitVec.toNat none
    unfold Dec128.toNat at above
    rw [highHalf_toNat, zero] at none
    omega
  unfold pack128toDecimal
  rw [if_pos (Or.inr (Or.inr high))]

theorem pack128toDecimal_spec {scale : Int} (sign : Bool) (nonneg : 0 ≤ scale) (inRange : scale ≤ 28)
    (fits : a.toNat < 2 ^ 96) : ∃ packed, pack128toDecimal d a scale sign = (decimalSuccess, packed) ∧ packed.sign = sign ∧
      packed.mantissa = a.toNat := by
  obtain ⟨scale, rfl⟩ := Int.eq_ofNat_of_zero_le nonneg
  obtain ⟨packed, isPacked, isSign, _, mantissa⟩ := pack128toDecimal_fits d sign (by omega : scale ≤ 28) fits
  exact ⟨packed, isPacked, isSign, mantissa⟩

end Arithmetic

end MonoRuntime.Decimal
