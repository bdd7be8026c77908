/-
Module: MonoRuntime.Proofs.DecimalIncr
Purpose: `mono_decimalIncr` rounds the exact sum. The estimated logarithms leave room for both operands in 128 bits and
  cut digits off only far behind the 96 bits of the result. Where the operand that loses digits is subtracted, the
  difference becomes one unit too great, which is rounded away unless it leads to the middle of two results.
Trusted boundary: none
Main exports: monoDecimalIncr_meets_iff
-/
import MonoRuntime.Proofs.DecimalRounding

namespace MonoRuntime.Decimal

open HalfUp

/-! ### The common scale -/

/-- The number of bits before the point of a decimal, as the addition estimates it, and at least zero. -/
def estimatedBits (extra : Nat) (d : DecimalRepr) : Nat :=
  d.mantissa.log2 + 1 + extra - d.scale.toNat * 33219 / 10000

/-- The digits of the finer operand that are cut off, so that the sum has about 35 digits. -/
def cutDigits (extra : Nat) (coarse fine : DecimalRepr) : Nat :=
  fine.scale.toNat + (estimatedBits extra coarse * 1000 / 3322 + 1) - 35

theorem digits_of_bits : ∀ bits < 98,
    10 ^ (bits * 1000 / 3322) ≤ 2 ^ bits ∧ 2 ^ bits ≤ 2 * 10 ^ (bits * 1000 / 3322 + 1) := by
  decide

theorem mantissa_log2_lt (d : DecimalRepr) : d.mantissa.log2 < 96 := by
  by_cases zero : d.mantissa = 0
  · rw [zero]
    decide
  · exact (Nat.log2_lt zero).mpr d.mantissa_lt

/-- What is known of the operands at their common scale: the coarser one is exact there, both fit, and the coarser
one is far above 96 bits where digits of the other are cut off. -/
structure Alignment (coarse fine : DecimalRepr) (cut : Nat) : Prop where
  le : coarse.scale.toNat + cut ≤ fine.scale.toNat
  fits : coarse.mantissa * 10 ^ (fine.scale.toNat - cut - coarse.scale.toNat) < 2 ^ 120
  apart : cut ≠ 0 → 2 ^ 97 ≤ coarse.mantissa * 10 ^ (fine.scale.toNat - cut - coarse.scale.toNat)

theorem alignment_cutDigits {extra : Nat} {coarse fine : DecimalRepr} (small : extra ≤ 1) (fineValid : Valid fine)
    (le : coarse.scale.toNat ≤ fine.scale.toNat) : Alignment coarse fine (cutDigits extra coarse fine) := by
  unfold Valid decimalMaxScale at fineValid
  obtain ⟨f, _, isF, fLow, fHigh⟩ := @scaleLog2_spec coarse.scale.toNat (by omega)
  have logLess := mantissa_log2_lt coarse
  have isBits : estimatedBits extra coarse = coarse.mantissa.log2 + 1 + extra - f := by
    rw [estimatedBits, isF]
  unfold cutDigits
  generalize estimatedBits extra coarse = bits at *
  obtain ⟨low, high⟩ := digits_of_bits bits (by omega)
  obtain ⟨digits, isDigits⟩ : ∃ digits, bits * 1000 / 3322 = digits := ⟨_, rfl⟩
  rw [isDigits] at low high ⊢
  obtain ⟨cut, isCut⟩ : ∃ cut, fine.scale.toNat + (digits + 1) - 35 = cut := ⟨_, rfl⟩
  rw [isCut]
  have scaleLe : coarse.scale.toNat + cut ≤ fine.scale.toNat := by omega
  have power : ∀ {i j k : Nat}, i + j = k → 10 ^ i * 10 ^ j = 10 ^ k := by
    rintro i j _ rfl
    exact (Nat.pow_add _ _ _).symm
  refine ⟨scaleLe, ?_, fun some_ => ?_⟩
  · have top : coarse.mantissa < 2 ^ (bits + f) :=
      Nat.lt_of_lt_of_le (Nat.lt_log2_self) (Nat.pow_le_pow_right (by decide) (by omega))
    calc coarse.mantissa * 10 ^ (fine.scale.toNat - cut - coarse.scale.toNat)
        ≤ 2 ^ (bits + f) * 10 ^ (fine.scale.toNat - cut - coarse.scale.toNat) :=
          Nat.mul_le_mul_right _ (Nat.le_of_lt top)
      _ ≤ 2 * 10 ^ (digits + 1) * 10 ^ coarse.scale.toNat * 10 ^ (fine.scale.toNat - cut - coarse.scale.toNat) := by
          rw [Nat.pow_add]
          exact Nat.mul_le_mul_right _ (Nat.mul_le_mul high fLow)
      _ = 2 * 10 ^ (digits + 1 + (fine.scale.toNat - cut)) := by
          rw [Nat.mul_assoc, power (Nat.add_sub_cancel' (by omega)), Nat.mul_assoc, power rfl]
      _ ≤ 2 * 10 ^ 35 := Nat.mul_le_mul_left 2 (Nat.pow_le_pow_right (by decide) (by omega))
      _ < 2 ^ 120 := by decide
  · have nonzero : coarse.mantissa ≠ 0 := by
      intro zero
      rw [zero, Nat.log2_zero] at isBits
      omega
    have least := Nat.log2_self_le nonzero
    have exponent : digits + coarse.scale.toNat + (fine.scale.toNat - cut - coarse.scale.toNat) = 34 := by omega
    have whole : 10 ^ 34 ≤ coarse.mantissa * 10 ^ (fine.scale.toNat - cut - coarse.scale.toNat) * 8 :=
      calc 10 ^ 34 = 10 ^ digits * 10 ^ coarse.scale.toNat * 10 ^ (fine.scale.toNat - cut - coarse.scale.toNat) := by
            rw [power rfl, power exponent]
        _ ≤ 2 ^ bits * 2 ^ (f + 1) * 10 ^ (fine.scale.toNat - cut - coarse.scale.toNat) :=
            Nat.mul_le_mul_right _ (Nat.mul_le_mul low (Nat.le_of_lt fHigh))
        _ ≤ 2 ^ coarse.mantissa.log2 * 2 ^ 3 * 10 ^ (fine.scale.toNat - cut - coarse.scale.toNat) := by
            rw [← Nat.pow_add, ← Nat.pow_add]
            exact Nat.mul_le_mul_right _ (Nat.pow_le_pow_right (by decide) (by omega))
        _ ≤ coarse.mantissa * 2 ^ 3 * 10 ^ (fine.scale.toNat - cut - coarse.scale.toNat) :=
            Nat.mul_le_mul_right _ (Nat.mul_le_mul_right _ least)
        _ = coarse.mantissa * 10 ^ (fine.scale.toNat - cut - coarse.scale.toNat) * 8 := Nat.mul_right_comm _ _ _
    omega

/-- The logarithm of a decimal that is not zero, from the place of its highest bit. -/
theorem log2withScale128_to128 {d : DecimalRepr} (nonzero : d.mantissa ≠ 0) :
    log2withScale128 d.to128 d.scale.toNat = d.mantissa.log2 + 1 - scaleLog2 d.scale.toNat := by
  obtain ⟨k, top, isLog⟩ := @log2withScale128_eq d.to128 d.scale.toNat (by rwa [to128_toNat])
  rw [to128_toNat] at top
  rw [isLog, (Nat.log2_eq_iff nonzero).mpr top]

theorem log10_natCast (log2 : Nat) : ((log2 : Int) * 1000).tdiv 3322 = (log2 * 1000 / 3322 : Nat) := by
  rw [Int.tdiv_eq_ediv_of_nonneg (by omega)]
  omega

theorem log10_nonpos {log2 : Int} (nonpos : log2 ≤ 0) : (log2 * 1000).tdiv 3322 ≤ 0 :=
  Int.tdiv_le_tdiv (b := 0) (by decide) (by omega)

theorem commonScale_eq {extra : Nat} {coarse fine : DecimalRepr} (small : extra ≤ 1) (fineValid : Valid fine)
    (le : coarse.scale.toNat ≤ fine.scale.toNat) :
    (if (fine.scale.toNat : Int) + (((max (log2withScale128 coarse.to128 coarse.scale.toNat)
          (log2withScale128 fine.to128 fine.scale.toNat) + extra) * 1000).tdiv 3322 + 1) > decimalMaxScale + 7 then
        (decimalMaxScale : Int) + 7 - (((max (log2withScale128 coarse.to128 coarse.scale.toNat)
          (log2withScale128 fine.to128 fine.scale.toNat) + extra) * 1000).tdiv 3322 + 1)
      else fine.scale.toNat) = (fine.scale.toNat - cutDigits extra coarse fine : Nat) := by
  unfold Valid at fineValid
  unfold decimalMaxScale at fineValid ⊢
  obtain ⟨f, isF, fScale, _⟩ := @scaleLog2_spec coarse.scale.toNat (by omega)
  obtain ⟨g, isG, gScale, _⟩ := @scaleLog2_spec fine.scale.toNat fineValid
  have coarseLog := mantissa_log2_lt coarse
  -- The finer operand alone does not limit the scale.
  have fineLog : log2withScale128 fine.to128 fine.scale.toNat ≤ 96 - g := by
    have fineLog := mantissa_log2_lt fine
    by_cases zero : fine.mantissa = 0
    · rw [log2withScale128_zero _ (by rwa [to128_toNat]), isG]
      omega
    · rw [log2withScale128_to128 zero, isG]
      omega
  have isBits : estimatedBits extra coarse = coarse.mantissa.log2 + 1 + extra - f := by
    rw [estimatedBits, fScale]
  have coarseLog' : coarse.mantissa = 0 ∧ log2withScale128 coarse.to128 coarse.scale.toNat = -f ∨
      log2withScale128 coarse.to128 coarse.scale.toNat = coarse.mantissa.log2 + 1 - f := by
    by_cases zero : coarse.mantissa = 0
    · rw [log2withScale128_zero _ (by rwa [to128_toNat]), isF]
      exact Or.inl ⟨zero, rfl⟩
    · rw [log2withScale128_to128 zero, isF]
      exact Or.inr rfl
  have noBits : coarse.mantissa = 0 → coarse.mantissa.log2 = 0 := by
    intro zero
    rw [zero, Nat.log2_zero]
  unfold cutDigits
  generalize estimatedBits extra coarse = bits at *
  generalize coarse.mantissa.log2 = top at *
  generalize log2withScale128 coarse.to128 coarse.scale.toNat = first at *
  generalize log2withScale128 fine.to128 fine.scale.toNat = second at *
  obtain ⟨logs, isLogs⟩ : ∃ logs, max first second + extra = logs := ⟨_, rfl⟩
  rw [isLogs]
  obtain nonneg | nonpos := Int.le_total 0 logs
  · obtain ⟨log2, rfl⟩ := Int.eq_ofNat_of_zero_le nonneg
    rw [log10_natCast]
    omega
  · have nonpos := log10_nonpos nonpos
    omega

/-! ### The sum at the common scale -/

/-- The estimate allows a sum one bit more than a difference. -/
def extraBits (a b : DecimalRepr) : Nat :=
  if a.sign = b.sign then 1 else 0

/-- The scale of the exact sum. -/
def sumScale (a b : DecimalRepr) : Nat :=
  max a.scale.toNat b.scale.toNat

/-- The digits of the finer operand that the addition cuts off. -/
def sumCut (a b : DecimalRepr) : Nat :=
  if a.scale.toNat ≤ b.scale.toNat then cutDigits (extraBits a b) a b else cutDigits (extraBits a b) b a

/-- A number is a multiple of the unit and far above 96 bits, beside another one that is not. -/
structure Dominates (unit large small : Nat) : Prop where
  dvd : unit ∣ large
  above : 2 ^ 97 ≤ large / unit
  below : small / unit < 2 ^ 96

/-- What is known of both operands at the scale of the sum, of which some digits are cut off. -/
structure SumAlignment (a b : DecimalRepr) : Prop where
  cut_le : sumCut a b ≤ sumScale a b
  aFits : a.atScale (sumScale a b) / 10 ^ sumCut a b < 2 ^ 120
  bFits : b.atScale (sumScale a b) / 10 ^ sumCut a b < 2 ^ 120
  dominates : sumCut a b ≠ 0 →
    Dominates (10 ^ sumCut a b) (a.atScale (sumScale a b)) (b.atScale (sumScale a b)) ∨
      Dominates (10 ^ sumCut a b) (b.atScale (sumScale a b)) (a.atScale (sumScale a b))

theorem Alignment.coarse_eq {coarse fine : DecimalRepr} {cut : Nat} (is : Alignment coarse fine cut) :
    coarse.atScale fine.scale.toNat = coarse.mantissa * 10 ^ (fine.scale.toNat - cut - coarse.scale.toNat) * 10 ^ cut := by
  have le := is.le
  have split : 10 ^ (fine.scale.toNat - coarse.scale.toNat)
      = 10 ^ (fine.scale.toNat - cut - coarse.scale.toNat) * 10 ^ cut := by
    rw [← Nat.pow_add]
    congr 1
    omega
  rw [DecimalRepr.atScale, split, Nat.mul_assoc]

theorem atScale_self_eq (d : DecimalRepr) : d.atScale d.scale.toNat = d.mantissa := by
  rw [DecimalRepr.atScale, Nat.sub_self, Nat.pow_zero, Nat.mul_one]

theorem Alignment.operands {coarse fine : DecimalRepr} {cut : Nat} (is : Alignment coarse fine cut) :
    coarse.atScale fine.scale.toNat / 10 ^ cut < 2 ^ 120 ∧ fine.atScale fine.scale.toNat / 10 ^ cut < 2 ^ 120 ∧
      (cut ≠ 0 → Dominates (10 ^ cut) (coarse.atScale fine.scale.toNat) (fine.atScale fine.scale.toNat)) := by
  have positive : 0 < 10 ^ cut := Nat.pow_pos (by decide)
  have quotient : coarse.atScale fine.scale.toNat / 10 ^ cut
      = coarse.mantissa * 10 ^ (fine.scale.toNat - cut - coarse.scale.toNat) := by
    rw [is.coarse_eq, Nat.mul_div_cancel _ positive]
  have below : fine.atScale fine.scale.toNat / 10 ^ cut < 2 ^ 96 := by
    rw [atScale_self_eq]
    exact Nat.lt_of_le_of_lt (Nat.div_le_self _ _) fine.mantissa_lt
  refine ⟨by rw [quotient]; exact is.fits, by omega, fun some_ => ⟨?_, ?_, below⟩⟩
  · rw [is.coarse_eq]
    exact Nat.dvd_mul_left _ _
  · rw [quotient]
    exact is.apart some_

theorem sumAlignment {a b : DecimalRepr} (aValid : Valid a) (bValid : Valid b) : SumAlignment a b := by
  have small : extraBits a b ≤ 1 := by
    unfold extraBits
    split <;> decide
  by_cases le : a.scale.toNat ≤ b.scale.toNat
  · have isCut : sumCut a b = cutDigits (extraBits a b) a b := if_pos le
    have isScale : sumScale a b = b.scale.toNat := max_eq_right le
    have is := alignment_cutDigits small bValid le
    obtain ⟨aFits, bFits, dominates⟩ := is.operands
    rw [← isCut, ← isScale] at aFits bFits dominates
    have cutLe := is.le
    exact ⟨by omega, aFits, bFits, fun some_ => Or.inl (dominates some_)⟩
  · have isCut : sumCut a b = cutDigits (extraBits a b) b a := if_neg le
    have isScale : sumScale a b = a.scale.toNat := max_eq_left (Nat.le_of_not_le le)
    have is := alignment_cutDigits small aValid (Nat.le_of_not_le le)
    obtain ⟨bFits, aFits, dominates⟩ := is.operands
    rw [← isCut, ← isScale] at aFits bFits dominates
    have cutLe := is.le
    exact ⟨by omega, aFits, bFits, fun some_ => Or.inr (dominates some_)⟩

theorem adjustScale128_atScale {d : DecimalRepr} {scale cut : Nat} (le : d.scale.toNat ≤ scale) (cutLe : cut ≤ scale)
    (inRange : scale ≤ 28) (fits : d.atScale scale / 10 ^ cut < 2 ^ 120) :
    (adjustScale128 d.to128 ((scale - cut : Nat) - d.scale.toNat)).1 = decimalSuccess ∧
      (adjustScale128 d.to128 ((scale - cut : Nat) - d.scale.toNat)).2.toNat = d.atScale scale / 10 ^ cut := by
  unfold DecimalRepr.atScale at fits ⊢
  by_cases raised : d.scale.toNat ≤ scale - cut
  · have isDelta : ((scale - cut : Nat) : Int) - d.scale.toNat = (scale - cut - d.scale.toNat : Nat) := by omega
    have split : 10 ^ (scale - d.scale.toNat) = 10 ^ (scale - cut - d.scale.toNat) * 10 ^ cut := by
      rw [← Nat.pow_add]
      congr 1
      omega
    rw [split, ← Nat.mul_assoc, Nat.mul_div_cancel _ (ten_pow_pos _)] at fits ⊢
    rw [isDelta, ← to128_toNat] at *
    exact adjustScale128_spec d.to128 _ (by omega) (by omega)
  · have isDelta : ((scale - cut : Nat) : Int) - d.scale.toNat = -(d.scale.toNat - (scale - cut) : Nat) := by omega
    have split : 10 ^ cut = 10 ^ (d.scale.toNat - (scale - cut)) * 10 ^ (scale - d.scale.toNat) := by
      rw [← Nat.pow_add]
      congr 1
      omega
    rw [split, Nat.mul_div_mul_right _ _ (ten_pow_pos _), isDelta, ← to128_toNat]
    exact adjustScale128_cut d.to128 _ (by omega)

/-- What the addition does with its operands at the common scale. -/
def addAligned (a b : DecimalRepr) (x y : Dec128) (scale : Nat) : Int × DecimalRepr :=
  let (sign, c) := combine128 (a.sign != b.sign) a.sign x y
  let (rc, c, scale) := normalize128 c scale true false
  if rc ≠ decimalSuccess then (rc, a) else pack128toDecimal a c scale sign

/-- The scale that the addition computes is that of the sum, less the digits that are cut off. -/
theorem commonScale_sum {a b : DecimalRepr} (aValid : Valid a) (bValid : Valid b) :
    let log2 := max (log2withScale128 a.to128 a.scale.toNat) (log2withScale128 b.to128 b.scale.toNat)
    let log10 := ((if a.sign != b.sign then log2 else log2 + 1) * 1000).tdiv 3322 + 1
    let scale : Int := if (b.scale.toNat : Int) > a.scale.toNat then b.scale.toNat else a.scale.toNat
    (if scale + log10 > decimalMaxScale + 7 then (decimalMaxScale : Int) + 7 - log10 else scale)
      = (sumScale a b - sumCut a b : Nat) := by
  have small : extraBits a b ≤ 1 := by
    unfold extraBits
    split <;> decide
  have isExtra : ∀ log2 : Int, (if a.sign != b.sign then log2 else log2 + 1) = log2 + extraBits a b := by
    intro log2
    unfold extraBits
    by_cases same : a.sign = b.sign
    · rw [if_pos same, if_neg (by rw [same, bne_self_eq_false]; decide)]
      rfl
    · rw [if_neg same, if_pos (bne_iff_ne.mpr same)]
      exact (Int.add_zero log2).symm
  simp only [isExtra]
  unfold sumScale sumCut
  by_cases le : a.scale.toNat ≤ b.scale.toNat
  · have isScale : (if (b.scale.toNat : Int) > a.scale.toNat then (b.scale.toNat : Int) else a.scale.toNat)
        = b.scale.toNat := by
      split <;> omega
    rw [isScale, max_eq_right le, if_pos le]
    exact commonScale_eq small bValid le
  · have isScale : (if (b.scale.toNat : Int) > a.scale.toNat then (b.scale.toNat : Int) else a.scale.toNat)
        = a.scale.toNat := if_neg (by omega)
    rw [isScale, max_eq_left (Nat.le_of_not_le le), if_neg le, max_comm (log2withScale128 a.to128 _)]
    exact commonScale_eq small aValid (Nat.le_of_not_le le)

theorem monoDecimalIncr_eq {a b : DecimalRepr} (aValid : Valid a) (bValid : Valid b) :
    ∃ x y : Dec128, x.toNat = a.atScale (sumScale a b) / 10 ^ sumCut a b ∧
      y.toNat = b.atScale (sumScale a b) / 10 ^ sumCut a b ∧
      monoDecimalIncr a b = some (addAligned a b x y (sumScale a b - sumCut a b)) := by
  have is := sumAlignment aValid bValid
  have inRange : sumScale a b ≤ 28 := max_le aValid bValid
  have aLe : a.scale.toNat ≤ sumScale a b := le_max_left _ _
  have bLe : b.scale.toNat ≤ sumScale a b := le_max_right _ _
  obtain ⟨aSuccess, isA⟩ := adjustScale128_atScale aLe is.cut_le inRange is.aFits
  obtain ⟨bSuccess, isB⟩ := adjustScale128_atScale bLe is.cut_le inRange is.bFits
  refine ⟨_, _, isA, isB, ?_⟩
  unfold monoDecimalIncr addAligned
  by_cases same : (a.scale.toNat : Int) = b.scale.toNat
  · -- Operands with one scale are taken as they are.
    have isScale : sumScale a b = a.scale.toNat := max_eq_left (by omega)
    have noCut : sumCut a b = 0 := by
      have le := (@alignment_cutDigits (extraBits a b) a b (by unfold extraBits; split <;> decide) bValid (by omega)).le
      rw [sumCut, if_pos (by omega)]
      omega
    have aDelta : ((sumScale a b - sumCut a b : Nat) : Int) - a.scale.toNat = 0 := by omega
    have bDelta : ((sumScale a b - sumCut a b : Nat) : Int) - b.scale.toNat = 0 := by omega
    rw [if_pos same, aDelta, bDelta, noCut, isScale]
    rfl
  · have isScale := commonScale_sum aValid bValid
    simp only at isScale
    simp only [if_neg same, isScale, aSuccess, bSuccess, ne_eq, not_true_eq_false, if_false]
    rw [rescale128_eq (by omega)]

/-! ### The exact sum and the sum that is computed -/

/-- The sum of two numbers with equal or different signs, without its own. -/
def combined (differ : Bool) (x y : Nat) : Nat :=
  if differ then (x - y) + (y - x) else x + y

theorem combine128_spec {x y : Dec128} (differ sign : Bool) (xLess : x.toNat < 2 ^ 120) (yLess : y.toNat < 2 ^ 120) :
    (combine128 differ sign x y).1 = (if differ ∧ x.toNat < y.toNat then !sign else sign) ∧
      (combine128 differ sign x y).2.toNat = combined differ x.toNat y.toNat := by
  cases differ with
  | true =>
    obtain ⟨isSign, amount⟩ := combine128_sub sign (show x.toNat < 2 ^ 127 by omega) (show y.toNat < 2 ^ 127 by omega)
    simp only [isSign, amount, true_and]
    rfl
  | false =>
    exact ⟨rfl, add128_toNat (by omega)⟩

/-- The numbers of a larger and a smaller operand without the digits that are cut off. -/
theorem Dominates.quotients {unit large small : Nat} (is : Dominates unit large small) :
    small < large ∧ (large + small) / unit = large / unit + small / unit ∧
      (unit ∣ small → unit ∣ large - small ∧ (large - small) / unit = large / unit - small / unit) ∧
      (¬ unit ∣ small → ¬ unit ∣ large - small ∧ large / unit - small / unit = (large - small) / unit + 1) := by
  have positive : 0 < unit := by
    by_contra none
    have above := is.above
    rw [Nat.eq_zero_of_not_pos none, Nat.div_zero] at above
    omega
  have less : small < large := Nat.lt_of_div_lt_div (Nat.lt_trans is.below (Nat.lt_of_lt_of_le (by decide) is.above))
  refine ⟨less, ?_, fun divides => ⟨Nat.dvd_sub is.dvd divides, ?_⟩, fun notDvd => ⟨fun divides => notDvd ?_, ?_⟩⟩
  · obtain ⟨l, rfl⟩ := is.dvd
    rw [Nat.mul_add_div positive, Nat.mul_div_cancel_left _ positive]
  · obtain ⟨s, rfl⟩ := divides
    rw [Nat.sub_mul_div, Nat.mul_div_cancel_left _ positive]
  · exact (Nat.dvd_sub_iff_right (Nat.le_of_lt less) is.dvd).mp divides
  · obtain ⟨l, rfl⟩ := is.dvd
    have above := is.above
    have below := is.below
    have split := Nat.div_add_mod small unit
    have rest := Nat.mod_lt small positive
    rw [Nat.mul_div_cancel_left _ positive] at above ⊢
    generalize small / unit = s at *
    obtain ⟨d, rfl⟩ : ∃ d, l = s + 1 + d := ⟨l - s - 1, by omega⟩
    have isDifference : unit * (s + 1 + d) - small = unit - small % unit + unit * d := by
      rw [Nat.mul_add, Nat.mul_succ]
      omega
    rw [isDifference, Nat.add_mul_div_left _ _ positive, Nat.div_eq_of_lt (by omega)]
    omega

section Sums

variable (a b : DecimalRepr)

/-- The exact sum at the scale of the finer operand. -/
def exactSum : Nat :=
  combined (a.sign != b.sign) (a.atScale (sumScale a b)) (b.atScale (sumScale a b))

/-- The sum of the operands without the digits that are cut off. -/
def cutSum : Nat :=
  combined (a.sign != b.sign) (a.atScale (sumScale a b) / 10 ^ sumCut a b) (b.atScale (sumScale a b) / 10 ^ sumCut a b)

/-- The sign of the exact sum. -/
def sumSign : Bool :=
  if (a.sign != b.sign) ∧ a.atScale (sumScale a b) < b.atScale (sumScale a b) then !a.sign else a.sign

end Sums

variable {a b : DecimalRepr}

theorem value_atScale {d : DecimalRepr} {scale : Nat} (le : d.scale.toNat ≤ scale) :
    d.value = signFactor d.sign * (d.atScale scale / 10 ^ scale) := by
  have split : (10 : ℚ) ^ scale = 10 ^ (scale - d.scale.toNat) * 10 ^ d.scale.toNat := by
    rw [← pow_add, Nat.sub_add_cancel le]
  rw [value_eq, DecimalRepr.atScale, split, Nat.cast_mul, Nat.cast_pow, Nat.cast_ofNat, mul_comm (d.mantissa : ℚ),
    mul_div_mul_left _ _ (by positivity)]

theorem cast_difference (x y : Nat) :
    (((x - y) + (y - x) : Nat) : ℚ) = if x < y then (y : ℚ) - x else x - y := by
  by_cases less : x < y
  · rw [if_pos less, Nat.sub_eq_zero_of_le (Nat.le_of_lt less), Nat.zero_add, Nat.cast_sub (Nat.le_of_lt less)]
  · rw [if_neg less, Nat.sub_eq_zero_of_le (Nat.not_lt.mp less), Nat.add_zero, Nat.cast_sub (Nat.not_lt.mp less)]

theorem value_add : a.value + b.value = signFactor (sumSign a b) * (exactSum a b / 10 ^ sumScale a b) := by
  rw [@value_atScale a (sumScale a b) (le_max_left _ _), @value_atScale b (sumScale a b) (le_max_right _ _)]
  unfold exactSum sumSign combined
  generalize a.atScale (sumScale a b) = x
  generalize b.atScale (sumScale a b) = y
  by_cases same : a.sign = b.sign
  · rw [same, bne_self_eq_false, if_neg (by simp), if_neg (by simp), Nat.cast_add]
    ring
  · have opposite : signFactor b.sign = -signFactor a.sign := by
      revert same
      cases a.sign <;> cases b.sign <;> simp [signFactor]
    have negated : signFactor (!a.sign) = -signFactor a.sign := by
      cases a.sign <;> simp [signFactor]
    rw [bne_iff_ne.mpr same, if_pos rfl, cast_difference, opposite]
    by_cases less : x < y
    · rw [if_pos less, if_pos ⟨rfl, less⟩, negated]
      ring
    · rw [if_neg less, if_neg (by simp [less])]
      ring

/-- The operands that are added, or subtracted without a rest: the sum that is computed is the exact one without the
digits that are cut off. -/
structure Truncates (a b : DecimalRepr) : Prop where
  quotient : cutSum a b = exactSum a b / 10 ^ sumCut a b
  above : sumCut a b ≠ 0 → 2 ^ 96 ≤ cutSum a b
  dvd : a.sign ≠ b.sign → 10 ^ sumCut a b ∣ exactSum a b

/-- What is cut off from the operand that is subtracted makes the difference greater. -/
structure Exceeds (a b : DecimalRepr) : Prop where
  differ : a.sign ≠ b.sign
  notDvd : ¬ 10 ^ sumCut a b ∣ exactSum a b
  succ : cutSum a b = exactSum a b / 10 ^ sumCut a b + 1
  above : 2 ^ 96 < cutSum a b
  fits : cutSum a b ≤ (2 ^ 96 - 1) * 10 ^ (sumScale a b - sumCut a b)

theorem atScale_div_le {d : DecimalRepr} {scale cut : Nat} (le : cut ≤ scale) :
    d.atScale scale / 10 ^ cut ≤ (2 ^ 96 - 1) * 10 ^ (scale - cut) := by
  have split : 10 ^ scale = 10 ^ (scale - cut) * 10 ^ cut := by
    rw [← Nat.pow_add, Nat.sub_add_cancel le]
  apply Nat.div_le_of_le_mul
  rw [Nat.mul_comm, Nat.mul_assoc, ← split]
  exact Nat.mul_le_mul (Nat.le_pred_of_lt d.mantissa_lt) (Nat.pow_le_pow_right (by decide) (Nat.sub_le _ _))

theorem combined_comm (differ : Bool) (x y : Nat) : combined differ x y = combined differ y x := by
  unfold combined
  rw [Nat.add_comm (x - y), Nat.add_comm x]

/-- A sum loses the digits that its operands lose. A difference does where nothing is cut off, and is one unit more
where something is. -/
theorem Dominates.combined_cases {unit large small : Nat} (differ : Bool) (is : Dominates unit large small) :
    2 ^ 96 < combined differ (large / unit) (small / unit) ∧
      ((combined differ (large / unit) (small / unit) = combined differ large small / unit ∧
          (differ = true → unit ∣ combined differ large small)) ∨ (differ = true ∧ ¬ unit ∣ combined differ large small ∧
          combined differ (large / unit) (small / unit) = combined differ large small / unit + 1 ∧
          combined differ (large / unit) (small / unit) ≤ large / unit)) := by
  obtain ⟨less, sum, exact, inexact⟩ := is.quotients
  have above := is.above
  have below := is.below
  generalize large / unit = l at *
  generalize small / unit = s at *
  cases differ with
  | false =>
    refine ⟨?_, Or.inl ⟨sum.symm, fun wrong => absurd wrong (by decide)⟩⟩
    show 2 ^ 96 < l + s
    omega
  | true =>
    have isDifference : combined true large small = large - small := by
      show large - small + (small - large) = large - small
      omega
    have isDifference' : combined true l s = l - s := by
      show l - s + (s - l) = l - s
      omega
    rw [isDifference, isDifference']
    refine ⟨by omega, ?_⟩
    by_cases divides : unit ∣ small
    · obtain ⟨dvd, quotient⟩ := exact divides
      exact Or.inl ⟨quotient.symm, fun _ => dvd⟩
    · obtain ⟨notDvd, quotient⟩ := inexact divides
      exact Or.inr ⟨rfl, notDvd, quotient, Nat.sub_le _ _⟩

theorem truncates_or_exceeds (is : SumAlignment a b) : Truncates a b ∨ Exceeds a b := by
  have aMost := @atScale_div_le a _ _ is.cut_le
  have bMost := @atScale_div_le b _ _ is.cut_le
  have dominates := is.dominates
  by_cases none : sumCut a b = 0
  · refine Or.inl ⟨?_, fun some_ => absurd none some_, fun _ => ?_⟩
    · unfold cutSum exactSum
      rw [none, Nat.pow_zero, Nat.div_one, Nat.div_one, Nat.div_one]
    · rw [none]
      exact one_dvd _
  · obtain ⟨above, cases⟩ : 2 ^ 96 < cutSum a b ∧
        ((cutSum a b = exactSum a b / 10 ^ sumCut a b ∧
            ((a.sign != b.sign) = true → 10 ^ sumCut a b ∣ exactSum a b)) ∨
          ((a.sign != b.sign) = true ∧ ¬ 10 ^ sumCut a b ∣ exactSum a b ∧
            cutSum a b = exactSum a b / 10 ^ sumCut a b + 1 ∧
            cutSum a b ≤ (2 ^ 96 - 1) * 10 ^ (sumScale a b - sumCut a b))) := by
      unfold cutSum exactSum
      obtain dominates | dominates := dominates none
      · obtain ⟨above, cases⟩ := dominates.combined_cases (a.sign != b.sign)
        exact ⟨above, cases.imp_right fun ⟨differ, notDvd, succ, le⟩ => ⟨differ, notDvd, succ, le.trans aMost⟩⟩
      · obtain ⟨above, cases⟩ := dominates.combined_cases (a.sign != b.sign)
        rw [combined_comm _ (a.atScale _ / _), combined_comm _ (a.atScale _)]
        exact ⟨above, cases.imp_right fun ⟨differ, notDvd, succ, le⟩ => ⟨differ, notDvd, succ, le.trans bMost⟩⟩
    obtain ⟨quotient, dvd⟩ | ⟨differ, notDvd, succ, fits⟩ := cases
    · exact Or.inl ⟨quotient, fun _ => Nat.le_of_lt above, fun differ => dvd (bne_iff_ne.mpr differ)⟩
    · exact Or.inr ⟨bne_iff_ne.mp differ, notDvd, succ, above, fits⟩

theorem sumSign_eq (is : SumAlignment a b) :
    (if (a.sign != b.sign) ∧ a.atScale (sumScale a b) / 10 ^ sumCut a b < b.atScale (sumScale a b) / 10 ^ sumCut a b then
      !a.sign else a.sign) = sumSign a b := by
  have same : a.atScale (sumScale a b) / 10 ^ sumCut a b < b.atScale (sumScale a b) / 10 ^ sumCut a b ↔
      a.atScale (sumScale a b) < b.atScale (sumScale a b) := by
    by_cases none : sumCut a b = 0
    · rw [none, Nat.pow_zero, Nat.div_one, Nat.div_one]
    · have apart : ∀ {unit large small}, Dominates unit large small → small < large ∧ small / unit < large / unit :=
        fun is => ⟨is.quotients.1, Nat.lt_trans is.below (Nat.lt_of_lt_of_le (by decide) is.above)⟩
      obtain dominates | dominates := is.dominates none
      · obtain ⟨less, less'⟩ := apart dominates
        exact ⟨fun wrong => absurd wrong (Nat.lt_asymm less'), fun wrong => absurd wrong (Nat.lt_asymm less)⟩
      · obtain ⟨less, less'⟩ := apart dominates
        exact ⟨fun _ => less, fun _ => less'⟩
  simp only [sumSign, same]

/-- What `mono_decimalIncr` does with any two decimals: it rounds the sum that it computes. -/
theorem monoDecimalIncr_cases (aValid : Valid a) (bValid : Valid b) : (monoDecimalIncr a b = some (decimalOverflow, a) ∧
        2 ^ 96 ≤ roundDiv (cutSum a b) (10 ^ (sumScale a b - sumCut a b))) ∨
      ∃ k r, monoDecimalIncr a b = some (decimalSuccess, r) ∧ Fewest 10 (2 ^ 96) (cutSum a b) 0 k ∧
        k ≤ sumScale a b - sumCut a b ∧ r.sign = sumSign a b ∧ r.scale.toNat = sumScale a b - sumCut a b - k ∧
        r.mantissa = roundDiv (cutSum a b) (10 ^ k) := by
  have is := sumAlignment aValid bValid
  have inRange : sumScale a b - sumCut a b ≤ 28 := Nat.le_trans (Nat.sub_le _ _) (max_le aValid bValid)
  obtain ⟨x, y, isX, isY, run⟩ := monoDecimalIncr_eq aValid bValid
  obtain ⟨isSign, isSum⟩ := @combine128_spec x y (a.sign != b.sign) a.sign (by rw [isX]; exact is.aFits)
    (by rw [isY]; exact is.bFits)
  rw [isX, isY] at isSign isSum
  rw [sumSign_eq is] at isSign
  rw [run]
  unfold addAligned
  simp only [isSign]
  have isSum : (combine128 (a.sign != b.sign) a.sign x y).2.toNat = cutSum a b := isSum
  generalize (combine128 (a.sign != b.sign) a.sign x y).2 = c at *
  rw [← isSum]
  generalize sumScale a b - sumCut a b = scale at *
  obtain ⟨overflow, above⟩ | ⟨k, shortened⟩ := normalize128_cases (Nat.zero_add scale) (Dropped.start c)
  · rw [overflow]
    exact Or.inl ⟨rfl, above⟩
  · obtain ⟨r, isPacked, packedSign, packedScale, packedMantissa⟩ := @pack128toDecimal_fits a
      (normalize128 c scale true false).2.1 (scale - k) (sumSign a b) (by omega)
      (by rw [shortened.mantissa]; exact shortened.fewest.below)
    refine Or.inr ⟨k, r, ?_, shortened.fewest, shortened.le_total, packedSign, packedScale, ?_⟩
    · rw [shortened.success, if_neg (not_not.mpr rfl), shortened.scale, isPacked]
    · rw [packedMantissa, shortened.mantissa]

/-! ### The result -/

/-- What the return code and the first decimal afterwards owe to the exact sum. -/
structure IncrMeets (a b : DecimalRepr) (rc : Int) (r : DecimalRepr) : Prop where
  exact : Representable (a.value + b.value) → rc = decimalSuccess ∧ r.value = a.value + b.value
  near : ¬ Representable (a.value + b.value) → |a.value + b.value| < overflowBound →
    rc = decimalSuccess ∧ |r.value - (a.value + b.value)| ≤ r.halfUnit
  overflow : rc = decimalOverflow → overflowBound ≤ |a.value + b.value|
  unchanged : rc ≠ decimalSuccess → r = a

/-- The operands have different signs, and the exact difference, with the fewest digits dropped, is just below the
middle of two results: by less than a unit of the last digit that the finer operand keeps. The lower result is not the
greatest mantissa, whose rounding up drops a digit more. -/
def BelowHalf (a b : DecimalRepr) : Prop :=
  a.sign ≠ b.sign ∧ ∃ digits, sumCut a b < digits ∧ Fewest 10 (2 ^ 96) (exactSum a b) 0 digits ∧
    exactSum a b / 10 ^ digits + 1 < 2 ^ 96 ∧ JustBelow 10 (exactSum a b) (sumCut a b) digits

theorem magnitude_sum : |a.value + b.value| = (exactSum a b : ℚ) / 10 ^ sumScale a b := by
  rw [value_add, abs_signed]

theorem Truncates.meets (is : Truncates a b) (aValid : Valid a) (bValid : Valid b) :
    ∃ rc r, monoDecimalIncr a b = some (rc, r) ∧ IncrMeets a b rc r := by
  have cutLe := (sumAlignment aValid bValid).cut_le
  have inRange : sumScale a b ≤ 28 := max_le aValid bValid
  have whole : sumCut a b + (sumScale a b - sumCut a b) = sumScale a b := Nat.add_sub_cancel' cutLe
  have above := is.above
  obtain ⟨run, isAbove⟩ | ⟨k, r, run, fewest, le, isSign, isScale, isMantissa⟩ := monoDecimalIncr_cases aValid bValid
  · rw [is.quotient] at isAbove
    have bound : overflowBound ≤ |a.value + b.value| := by
      rw [magnitude_sum, ← le_roundDiv_iff_value, ← whole]
      exact Nat.le_trans isAbove (roundDiv_div_le (by decide) (by decide))
    exact ⟨_, _, run, fun is => absurd is.lt (not_lt.mpr bound), fun _ below => absurd below (not_lt.mpr bound),
      fun _ => bound, fun _ => rfl⟩
  · rw [is.quotient] at fewest above isMantissa
    obtain ⟨fewest, same⟩ := fewest.of_div (by decide) (by decide) above
    have rounded := @Rounded.of_fewest (exactSum a b) (sumCut a b + k) (sumScale a b) r
      (by rwa [Nat.sub_eq_zero_of_le inRange]) (by omega) (by omega) (by rw [isMantissa, same])
    rw [isSign, ← value_add] at rounded
    exact ⟨_, _, run, fun is => ⟨rfl, rounded.exact is⟩, fun _ _ => ⟨rfl, rounded.near⟩,
      fun wrong => absurd wrong (by decide), fun wrong => absurd rfl wrong⟩

theorem Truncates.not_belowHalf (is : Truncates a b) : ¬ BelowHalf a b := by
  rintro ⟨differ, digits, less, _, _, just⟩
  exact just.not_dvd (by decide) less (is.dvd differ)

/-- A difference of which a part is cut off is no decimal, and does not overflow. -/
theorem Exceeds.not_representable (is : Exceeds a b) : ¬ Representable (a.value + b.value) := by
  intro representable
  rw [value_add] at representable
  obtain ⟨j, _, _, divides, below⟩ := representable.dvd
  have above := is.above
  have succ := is.succ
  obtain less | le := Nat.lt_or_ge j (sumCut a b)
  · have down : exactSum a b / 10 ^ sumCut a b ≤ exactSum a b / 10 ^ j :=
      Nat.div_le_div_left (Nat.pow_le_pow_right (by decide) (Nat.le_of_lt less)) (Nat.pow_pos (by decide))
    omega
  · exact is.notDvd (Nat.dvd_trans (Nat.pow_dvd_pow 10 le) divides)

theorem Exceeds.lt_bound (is : Exceeds a b) (cutLe : sumCut a b ≤ sumScale a b) :
    |a.value + b.value| < overflowBound := by
  have split : 10 ^ sumScale a b = 10 ^ (sumScale a b - sumCut a b) * 10 ^ sumCut a b := by
    rw [← Nat.pow_add, Nat.sub_add_cancel cutLe]
  have below : exactSum a b < (2 ^ 96 - 1) * 10 ^ sumScale a b := by
    have fits := is.fits
    rw [is.succ, Nat.succ_le_iff, Nat.div_lt_iff_lt_mul (ten_pow_pos _), Nat.mul_assoc, ← split] at fits
    exact fits
  have power := ten_pow_pos (sumScale a b)
  rw [← not_le, magnitude_sum, ← le_roundDiv_iff_value, not_le, roundDiv_lt_iff power]
  omega

/-- The unit that is too much is rounded away, or the result is more than half a unit away. -/
theorem Exceeds.meets_iff (is : Exceeds a b) (aValid : Valid a) (bValid : Valid b) :
    (∃ rc r, monoDecimalIncr a b = some (rc, r) ∧ IncrMeets a b rc r) ↔ ¬ BelowHalf a b := by
  have cutLe := (sumAlignment aValid bValid).cut_le
  have notRepresentable := is.not_representable
  have small := is.lt_bound cutLe
  have above := is.above
  have succ := is.succ
  have fits := is.fits
  obtain ⟨run, isAbove⟩ | ⟨k, r, run, fewest, le, isSign, isScale, isMantissa⟩ := monoDecimalIncr_cases aValid bValid
  · -- A difference does not overflow.
    rw [le_roundDiv_iff (Nat.pow_pos (by decide))] at isAbove
    omega
  · have some_ : k ≠ 0 := by
      rintro rfl
      have below := fewest.below
      rw [Nat.pow_zero, roundDiv_one] at below
      omega
    have isAbove : 2 ^ 96 ≤ exactSum a b / 10 ^ sumCut a b := by omega
    rw [succ] at fewest isMantissa
    have isScale : r.scale.toNat = sumScale a b - (sumCut a b + k) := by omega
    have away : |r.value - (a.value + b.value)|
        = |(r.mantissa : ℚ) / 10 ^ (sumScale a b - (sumCut a b + k)) - exactSum a b / 10 ^ sumScale a b| := by
      rw [value_add, value_eq, isSign, isScale, ← mul_sub, abs_mul, abs_signFactor, one_mul]
    by_cases halfway : Halfway 10 (exactSum a b) (sumCut a b) k
    · have just := (halfway_iff (by decide) (by decide) some_ is.notDvd).mp halfway
      obtain ⟨fewest, below⟩ := (halfway.fewest_iff (by decide) (by decide) some_ is.notDvd isAbove).mp fewest
      rw [halfway.roundDiv_eq (by decide)] at isMantissa
      refine iff_of_false ?_ (not_not.mpr ⟨is.differ, sumCut a b + k, by omega, fewest, below, just⟩)
      rintro ⟨rc', r', run', meets⟩
      rw [run] at run'
      cases run'
      have near := (meets.near notRepresentable small).2
      rw [away, DecimalRepr.halfUnit, isScale, isMantissa] at near
      exact absurd near (not_le.mpr (next_value_far (by omega) just.1))
    · rw [roundDiv_of_not_halfway (by decide) (by decide) some_ halfway] at isMantissa
      refine iff_of_true ⟨_, _, run, fun is => absurd is notRepresentable, fun _ _ => ⟨rfl, ?_⟩,
        fun wrong => absurd wrong (by decide), fun wrong => absurd rfl wrong⟩ ?_
      · rw [away, DecimalRepr.halfUnit, isScale, isMantissa]
        exact roundDiv_value_near (by omega)
      · rintro ⟨_, digits, less, fewest', below, just⟩
        obtain ⟨j, rfl⟩ := Nat.exists_eq_add_of_le (Nat.le_of_lt less)
        have jSome : j ≠ 0 := by omega
        have halfway' := (halfway_iff (by decide) (by decide) jSome is.notDvd).mpr just
        have fewest' := (halfway'.fewest_iff (by decide) (by decide) jSome is.notDvd isAbove).mpr ⟨fewest', below⟩
        rw [fewest'.unique fewest (by decide)] at halfway'
        exact halfway halfway'

/-- The addition does what it should exactly where the difference is not just below the middle of two results. -/
theorem monoDecimalIncr_meets_iff (a b : ValidDecimal) :
    (∃ rc r, monoDecimalIncr a.1 b.1 = some (rc, r) ∧ IncrMeets a.1 b.1 rc r) ↔ ¬ BelowHalf a.1 b.1 := by
  obtain truncates | exceeds := truncates_or_exceeds (sumAlignment a.2 b.2)
  · exact iff_of_true (truncates.meets a.2 b.2) truncates.not_belowHalf
  · exact exceeds.meets_iff a.2 b.2

/-- The greatest decimal less 0.5000000000000000000000000001 stays as it is, which is more than half a unit away. -/
theorem monoDecimalIncr_far :
    ¬ ∃ rc r, monoDecimalIncr (.of false 0 (2 ^ 96 - 1)) (.of true 28 5000000000000000000000000001) = some (rc, r) ∧
      IncrMeets (.of false 0 (2 ^ 96 - 1)) (.of true 28 5000000000000000000000000001) rc r := by
  rintro ⟨rc, r, run, meets⟩
  have stays : monoDecimalIncr (.of false 0 (2 ^ 96 - 1)) (.of true 28 5000000000000000000000000001)
      = some (decimalSuccess, .of false 0 (2 ^ 96 - 1)) := by decide
  rw [stays] at run
  cases run
  have exact := meets.exact
  have near := meets.near
  rw [value_of false (by decide) (by decide), value_of true (by decide) (by decide)] at exact near
  by_cases representable : Representable (signFactor false * ((2 ^ 96 - 1 : Nat) / 10 ^ 0)
      + signFactor true * ((5000000000000000000000000001 : Nat) / 10 ^ 28))
  · have same := (exact representable).2
    norm_num [signFactor] at same
  · have close := (near representable (by norm_num [signFactor, overflowBound])).2
    norm_num [signFactor, DecimalRepr.halfUnit, DecimalRepr.of] at close

end MonoRuntime.Decimal
