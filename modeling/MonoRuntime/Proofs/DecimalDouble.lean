/-
Module: MonoRuntime.Proofs.DecimalDouble
Purpose: The double of a decimal is the nearest one: the truncated divisions by powers of five cross no midpoint between
  two doubles, so that one rounding of the exact value is left. It rounds a half up, and so it errs on the ties above an
  even mantissa, and only there.
Trusted boundary: none
Main exports: monoDecimal2double_nearest_iff
-/
import MonoRuntime.Metadata.DecimalDouble
import MonoRuntime.Proofs.DecimalScaling
import MonoRuntime.Lib.BinaryFloat
import MonoRuntime.Lib.Truncation

namespace MonoRuntime.Decimal

open HalfUp Truncation BinaryFloat

/-! ### Fields -/

/-- The format of a double. -/
def binary64 : Format :=
  { fractionBits := 52, bias := 1023, reserved := 2047 }

/-- The fields of the 64 bits. -/
def doubleFields (b : BitVec 64) : Fields :=
  { sign := b.msb, exponent := (b >>> 52).toNat % 2 ^ 11, mantissa := b.toNat % 2 ^ 52 }

theorem doubleFields_of_toNat {b : BitVec 64} {sign : Bool} {exponent mantissa : Nat}
    (isBits : b.toNat = 2 ^ 63 * sign.toNat + (2 ^ 52 * exponent + mantissa)) (inRange : exponent < 2 ^ 11)
    (fits : mantissa < 2 ^ 52) :
    doubleFields b = { sign := sign, exponent := exponent, mantissa := mantissa } := by
  have isSign : b.msb = sign := by
    rw [BitVec.msb_eq_decide, isBits]
    cases sign with
    | false => exact decide_eq_false (by rw [Bool.toNat_false]; omega)
    | true => exact decide_eq_true (by rw [Bool.toNat_true]; omega)
  have isExponent : (b >>> 52).toNat % 2 ^ 11 = exponent := by
    rw [BitVec.toNat_ushiftRight, Nat.shiftRight_eq_div_pow, isBits]
    omega
  have isMantissa : b.toNat % 2 ^ 52 = mantissa := by
    omega
  rw [doubleFields, isSign, isExponent, isMantissa]

theorem buildIEEE754Double_fields {sign : Bool} {texp : Int} {exponent mantissa : Nat} {mantisse : BitVec 64}
    (isExponent : 1023 + texp = exponent) (inRange : exponent < 2 ^ 11) (isMantissa : mantisse.toNat = mantissa)
    (fits : mantissa < 2 ^ 52) : doubleFields (buildIEEE754Double sign texp mantisse) =
      { sign := sign, exponent := exponent, mantissa := mantissa } := by
  have signPart : ((BitVec.ofBool sign).setWidth 64 <<< 63).toNat = 2 ^ 63 * sign.toNat := by
    cases sign <;> rfl
  have exponentPart : ((BitVec.ofInt 64 (1023 + texp) &&& 0x7ff) <<< 52).toNat = 2 ^ 52 * exponent := by
    have mask : (0x7ff : BitVec 64).toNat = 2 ^ 11 - 1 := rfl
    rw [isExponent, BitVec.ofInt_natCast, BitVec.toNat_shiftLeft, BitVec.toNat_and, mask,
      Nat.and_two_pow_sub_one_eq_mod, BitVec.toNat_ofNat, Nat.shiftLeft_eq]
    omega
  have less : 2 ^ 52 * exponent + mantissa < 2 ^ 63 := by omega
  refine doubleFields_of_toNat ?_ inRange fits
  rw [buildIEEE754Double, BitVec.or_assoc, BitVec.toNat_or, BitVec.toNat_or, signPart, exponentPart, isMantissa,
    ← Nat.two_pow_add_eq_or_of_lt fits, ← Nat.two_pow_add_eq_or_of_lt less]

/-! ### Rounding -/

/-- The upper word of a number decides the rounding to a multiple of its eleventh bit. -/
theorem roundDiv_hi {c : Dec128} : roundDiv c.toNat (2 ^ 75) = (c.hi.toNat + 2 ^ 10) / 2 ^ 11 := by
  unfold roundDiv Dec128.toNat
  omega

/-- The mantissa is what is below the highest bit. A cleared lowest bit is shifted out. -/
theorem mantisse_toNat (x mask : BitVec 64) (clears : mask >>> 11 = 0xfffffffffffff) :
    ((x &&& mask) >>> 11).toNat = x.toNat / 2 ^ 11 % 2 ^ 52 := by
  have width : (0xfffffffffffff : BitVec 64).toNat = 2 ^ 52 - 1 := rfl
  rw [BitVec.ushiftRight_and_distrib, clears, BitVec.toNat_and, width, Nat.and_two_pow_sub_one_eq_mod,
    BitVec.toNat_ushiftRight, Nat.shiftRight_eq_div_pow]

theorem roundSignificand_fields {sign : Bool} {c : Dec128} {texp exponent : Nat} (top : 2 ^ 127 ≤ c.toNat)
    (isExponent : 1023 + (-(texp : Int) + 95) = exponent) (inRange : exponent + 1 < 2 ^ 11) :
    doubleFields (roundSignificand sign c.hi texp) = binary64.rounded sign exponent (roundDiv c.toNat (2 ^ 75)) := by
  have highTop : 2 ^ 63 ≤ c.hi.toNat := by
    unfold Dec128.toNat at top
    omega
  have added : (c.hi + 0x400).toNat = (c.hi.toNat + 2 ^ 10) % 2 ^ 64 := BitVec.toNat_add _ _
  have isTop := msb_iff_toNat (c.hi + 0x400)
  rw [roundDiv_hi, Format.rounded]
  unfold roundSignificand
  by_cases carry : (c.hi + 0x400).msb = false
  · have carried : 2 ^ 64 ≤ c.hi.toNat + 2 ^ 10 := by
      by_contra less
      rw [carry] at isTop
      exact Bool.false_ne_true (isTop.2 (by omega))
    have isMantissa : (((c.hi + 0x400) >>> 1 &&& ~~~ 0x8000000000000000) >>> 11).toNat = 0 := by
      rw [mantisse_toNat _ _ (by decide), BitVec.toNat_ushiftRight, Nat.shiftRight_eq_div_pow, added]
      omega
    simp only [if_pos carry]
    rw [if_pos (show (c.hi.toNat + 2 ^ 10) / 2 ^ 11 = 2 ^ (binary64.fractionBits + 1) from
      show (c.hi.toNat + 2 ^ 10) / 2 ^ 11 = 2 ^ 53 by omega)]
    exact buildIEEE754Double_fields (by omega) inRange isMantissa (by decide)
  · have noCarry : c.hi.toNat + 2 ^ 10 < 2 ^ 64 := by
      by_contra carried
      have := isTop.1 (Bool.eq_true_of_not_eq_false carry)
      omega
    have inside : (c.hi.toNat + 2 ^ 10) / 2 ^ 11 ≠ 2 ^ (binary64.fractionBits + 1) :=
      show (c.hi.toNat + 2 ^ 10) / 2 ^ 11 ≠ 2 ^ 53 by omega
    have isMantissa : (c.hi.toNat + 2 ^ 10) % 2 ^ 64 / 2 ^ 11 % 2 ^ 52 = (c.hi.toNat + 2 ^ 10) / 2 ^ 11 - 2 ^ 52 := by
      omega
    simp only [if_neg carry]
    split
    next =>
      refine buildIEEE754Double_fields isExponent (by omega) ?_ (show _ - 2 ^ 52 < 2 ^ 52 by omega)
      rw [BitVec.and_assoc, mantisse_toNat _ _ (by decide), added]
      exact isMantissa
    next =>
      refine buildIEEE754Double_fields isExponent (by omega) ?_ (show _ - 2 ^ 52 < 2 ^ 52 by omega)
      rw [mantisse_toNat _ _ (by decide), added]
      exact isMantissa

/-! ### Powers of five -/

/-- A number with the highest bit takes the largest power of five of the table. -/
theorem fiveDigits_top {c : Dec128} {scale : Nat} (top : 2 ^ 127 ≤ c.toNat) :
    fiveDigits c.overhang scale = min 9 scale := by
  have isOverhang := overhang_toNat c
  obtain ⟨k, ⟨_, high⟩, isLog⟩ := log2Of32_eq (a := c.overhang) (by omega)
  have atLeast : 31 ≤ k := by
    by_contra small
    have := Nat.pow_le_pow_right (show 0 < 2 by decide) (show k + 1 ≤ 31 by omega)
    omega
  have notSmall : ¬ (((k : Int) + 1) * 1000 / 2322).toNat < 9 := by omega
  unfold fiveDigits
  rw [isLog, Int.tdiv_eq_ediv_of_nonneg (by omega), decimalMaxIntfactors]
  simp only [if_neg notSmall]
  split <;> omega

/-- The number stands for a fraction up to its lowest places, also after any shift that fits. -/
def Represents (room : Nat) (c num den : Nat) : Prop :=
  ∀ s, c * 2 ^ s < 2 ^ 128 → SameMultiples (2 ^ room) (c * 2 ^ s) (num * 2 ^ s) den

theorem represents_self (c : Nat) : Represents 0 c c 1 :=
  fun s _ => sameMultiples_self (c * 2 ^ s)

/-- A division of a number with the highest bit by a power of five. Its quotient can be shifted as far as the power is
long. -/
theorem Represents.div {room c num den s i gain : Nat} (is : Represents room c num den) (fits : c * 2 ^ s < 2 ^ 128)
    (top : 2 ^ 127 ≤ c * 2 ^ s) (long : 5 ^ i ≤ 2 ^ gain) (short : gain ≤ 127) :
    Represents (room + gain) (c * 2 ^ s / 5 ^ i) (num * 2 ^ s) (den * 5 ^ i) := by
  intro s' fits'
  have positive : 0 < 5 ^ i := Nat.pow_pos (by decide)
  have large : 2 ^ (127 - gain) ≤ c * 2 ^ s / 5 ^ i := by
    rw [Nat.le_div_iff_mul_le positive]
    calc 2 ^ (127 - gain) * 5 ^ i ≤ 2 ^ (127 - gain) * 2 ^ gain := Nat.mul_le_mul_left _ long
      _ = 2 ^ 127 := by rw [← Nat.pow_add, Nat.sub_add_cancel short]
      _ ≤ c * 2 ^ s := top
  have few : 127 - gain + s' < 128 := by
    apply (Nat.pow_lt_pow_iff_right (show 1 < 2 by decide)).1
    rw [Nat.pow_add]
    exact (Nat.mul_le_mul_right _ large).trans_lt fits'
  have shifted := ((is s fits).div positive).shift s'
  rw [← Nat.pow_add] at shifted
  exact shifted.mono (Nat.pow_dvd_pow 2 (by omega))

/-- The places that the divisions by the powers of a scale make unreliable. -/
def lostPlaces (scale : Nat) : Nat :=
  21 * (scale / 9) + 3 * (scale % 9)

theorem shiftToTop128_spec (c : Dec128) (texp : Nat) (nonzero : c.toNat ≠ 0) :
    ∃ c' s, shiftToTop lshift128 (·.hi.msb) 128 c texp = some (c', texp + s) ∧ c'.toNat = c.toNat * 2 ^ s ∧
      2 ^ 127 ≤ c'.toNat := by
  have isTop_iff : ∀ x : Dec128, x.hi.msb = true ↔ 2 ^ 127 ≤ x.toNat := fun x => by
    rw [msb_iff_toNat, Dec128.toNat]
    omega
  have doubles : ∀ x : Dec128, x.hi.msb = false → (lshift128 x).toNat = 2 * x.toNat := fun x noTop =>
    lshift128_toNat (Nat.not_le.1 fun atTop => absurd ((isTop_iff x).2 atTop) (by rw [noTop]; exact Bool.false_ne_true))
  obtain ⟨c', s, isShifted, _, amount, top⟩ := shiftToTop_spec Dec128.toNat 127 isTop_iff doubles 127 c texp
    (Nat.le_mul_of_pos_left _ (Nat.pos_of_ne_zero nonzero))
  exact ⟨c', s, isShifted, amount, top⟩

/-- The loop ends, and the number it leaves stands for the quotient by the power of five. -/
theorem reduceScale_spec : ∀ (fuel scale texp room num den : Nat) (c : Dec128), scale ≤ fuel → c.toNat ≠ 0 →
    Represents room c.toNat num den → ∃ c' k, reduceScale fuel c texp scale = some (c', texp + k + scale) ∧ c'.toNat ≠ 0 ∧
      Represents (room + lostPlaces scale) c'.toNat (num * 2 ^ k) (den * 5 ^ scale) := by
  intro fuel
  induction fuel with
  | zero =>
    intro scale texp room num den c enough nonzero is
    rw [Nat.le_zero.1 enough]
    exact ⟨c, 0, rfl, nonzero, by rwa [Nat.pow_zero, Nat.pow_zero, Nat.mul_one, Nat.mul_one]⟩
  | succ fuel rest =>
    intro scale texp room num den c enough nonzero is
    rw [reduceScale]
    by_cases some_ : scale > 0
    · obtain ⟨c', s, isShifted, amount, top⟩ := shiftToTop128_spec c texp nonzero
      have less := c'.toNat_lt
      have isOverhang := overhang_toNat c'
      have isDigits := @fiveDigits_top c' scale top
      have isFactor := fiveFactor_toNat (show min 9 scale ≤ 9 by omega)
      have positive : 0 < 5 ^ min 9 scale := Nat.pow_pos (by decide)
      have isQuotient := div128by32_spec c' (decadeFactor (min 9 scale) >>> min 9 scale)
        (by rw [isFactor]; exact positive.ne')
      rw [isFactor] at isQuotient
      obtain ⟨gain, long, short, total⟩ : ∃ gain, 5 ^ min 9 scale ≤ 2 ^ gain ∧ gain ≤ 127 ∧
          gain + lostPlaces (scale - min 9 scale) = lostPlaces scale := by
        unfold lostPlaces
        by_cases whole : 9 ≤ scale
        · exact ⟨21, by rw [Nat.min_eq_left whole]; decide, by decide, by omega⟩
        · refine ⟨3 * scale, ?_, by omega, by omega⟩
          rw [Nat.min_eq_right (by omega), Nat.pow_mul]
          exact Nat.pow_le_pow_left (by decide) scale
      rw [amount] at top less isQuotient
      have divided := is.div less top long short
      have nonzero' : c.toNat * 2 ^ s / 5 ^ min 9 scale ≠ 0 := by
        have small : 5 ^ min 9 scale ≤ 2 ^ 127 := long.trans (Nat.pow_le_pow_right (by decide) short)
        exact (Nat.div_pos (small.trans top) positive).ne'
      rw [← isQuotient] at divided nonzero'
      obtain ⟨c'', k, run, nonzero'', represents⟩ :=
        rest (scale - min 9 scale) (texp + s + min 9 scale) _ _ _ _ (by omega) nonzero' divided
      rw [if_pos some_, isShifted]
      refine ⟨c'', s + k, ?_, nonzero'', ?_⟩
      · dsimp only
        rw [if_pos (show c'.overhang ≥ 5 from BitVec.le_def.2 (by
            rw [isOverhang, amount, show (5 : BitVec 32).toNat = 5 from rfl]; omega)),
          isDigits, run]
        congr 2
        omega
      · rwa [Nat.add_assoc, total, Nat.mul_assoc, ← Nat.pow_add, Nat.mul_assoc, ← Nat.pow_add,
          Nat.add_sub_cancel' (Nat.min_le_right 9 scale)] at represents
    · rw [if_neg some_, Nat.eq_zero_of_not_pos some_]
      exact ⟨c, 0, rfl, nonzero, by rwa [Nat.pow_zero, Nat.pow_zero, Nat.mul_one, Nat.mul_one]⟩

/-! ### The nearest double -/

theorem value_inUnits {a : DecimalRepr} {exponent shift texp : Nat} (isTexp : texp = shift + a.scale.toNat)
    (isExponent : 1023 + (-(texp : Int) + 95) = exponent) (positive : 1 ≤ exponent) :
    |a.value| / binary64.unit exponent =
      ((a.mantissa * 2 ^ 32 * 2 ^ shift : Nat) : ℚ) / (5 ^ a.scale.toNat : Nat) / 2 ^ 75 := by
  have isMagnitude : |a.value| = (a.mantissa : ℚ) / 10 ^ a.scale.toNat := by
    rw [DecimalRepr.value, abs_mul, ← Format.signOf, abs_signOf, one_mul, abs_of_nonneg (by positivity)]
  have isUnit : binary64.unit exponent = 2 ^ 43 / (2 ^ shift * 2 ^ a.scale.toNat) := by
    rw [Format.unit, Nat.max_eq_left positive, ← isExponent, isTexp, ← pow_add, ← zpow_natCast, ← zpow_natCast,
      ← zpow_sub₀ (by norm_num)]
    congr 1
    push_cast [binary64]
    ring
  have isPower : (10 : ℚ) ^ a.scale.toNat = 5 ^ a.scale.toNat * 2 ^ a.scale.toNat := by rw [← mul_pow]; norm_num
  rw [isMagnitude, isUnit, isPower]
  push_cast
  field_simp
  norm_num

/-- The double has the value rounded half up to the units of its binade. -/
structure RoundedHalfUp (a : DecimalRepr) (b : BitVec 64) (exponent k : Nat) : Prop where
  fields : doubleFields b = binary64.rounded a.sign exponent k
  positive : 1 ≤ exponent
  inRange : exponent + 1 < 2047
  low : 2 ^ 52 ≤ |a.value| / binary64.unit exponent
  high : |a.value| / binary64.unit exponent < 2 ^ 53
  notBelow : (k : ℚ) - 1 / 2 ≤ |a.value| / binary64.unit exponent
  notAbove : |a.value| / binary64.unit exponent < k + 1 / 2

/-- The divisions cross no midpoint, so that one rounding of the exact value is left. -/
theorem monoDecimal2double_halfUp {a : DecimalRepr} (valid : Valid a) (nonzero : a.mantissa ≠ 0) :
    ∃ b exponent k, monoDecimal2double a = some b ∧ RoundedHalfUp a b exponent k := by
  have small : a.scale.toNat ≤ 28 := valid
  obtain ⟨c, shift, isReduced, nonzero', represents⟩ := reduceScale_spec a.scale.toNat a.scale.toNat 0 0 _ 1
    { lo := a.lo32.setWidth 64 <<< 32, hi := joinWords a.hi32 a.mid32 } (Nat.le_refl _)
    (by rw [dividend_toNat]; omega) (represents_self _)
  obtain ⟨c', shift', isShifted, amount, top⟩ := shiftToTop128_spec c (0 + shift + a.scale.toNat) nonzero'
  have less := c'.toNat_lt
  rw [dividend_toNat, Nat.one_mul] at represents
  have same : SameMultiples (2 ^ 74) c'.toNat (a.mantissa * 2 ^ 32 * 2 ^ (shift + shift')) (5 ^ a.scale.toNat) := by
    have atTop := represents shift' (by rwa [← amount])
    rw [← amount, Nat.mul_assoc _ (2 ^ shift), ← Nat.pow_add] at atTop
    exact atTop.mono (Nat.pow_dvd_pow 2 (by rw [lostPlaces]; omega))
  have five : 0 < 5 ^ a.scale.toNat := Nat.pow_pos (by decide)
  have notLarge : a.mantissa * 2 ^ 32 * 2 ^ (shift + shift') < 2 ^ 54 * 2 ^ 74 * 5 ^ a.scale.toNat := by
    rw [← Nat.not_le, same]
    omega
  have few : shift + shift' < 194 := by
    have five' : 5 ^ a.scale.toNat ≤ 2 ^ 66 := (Nat.pow_le_pow_right (by decide) small).trans (by decide)
    apply (Nat.pow_lt_pow_iff_right (show 1 < 2 by decide)).1
    calc 2 ^ (shift + shift') ≤ a.mantissa * 2 ^ 32 * 2 ^ (shift + shift') :=
          Nat.le_mul_of_pos_left _ (by omega)
      _ < 2 ^ 54 * 2 ^ 74 * 5 ^ a.scale.toNat := notLarge
      _ ≤ 2 ^ 54 * 2 ^ 74 * 2 ^ 66 := Nat.mul_le_mul_left _ five'
      _ = 2 ^ 194 := by rw [← Nat.pow_add, ← Nat.pow_add]
  obtain ⟨exponent, isExponent⟩ : ∃ exponent : Nat,
      1023 + (-((0 + shift + a.scale.toNat + shift' : Nat) : Int) + 95) = exponent :=
    Int.eq_ofNat_of_zero_le (by omega)
  have isUnits := @value_inUnits a _ (shift + shift') _ (by omega) isExponent (by omega)
  -- The comparisons with multiples of half a unit are those of the number that is left.
  have inUnits : ∀ j : Nat, (j : ℚ) / 2 ≤ |a.value| / binary64.unit exponent ↔ j * 2 ^ 74 ≤ c'.toNat := fun j => by
    have halves : (j : ℚ) / 2 * 2 ^ 75 * (5 ^ a.scale.toNat : Nat) = (j * 2 ^ 74 * 5 ^ a.scale.toNat : Nat) := by
      push_cast
      ring
    rw [← same j, isUnits, le_div_iff₀ (by positivity), le_div_iff₀ (by exact_mod_cast five), halves, Nat.cast_le]
  generalize isRounded : roundDiv c'.toNat (2 ^ 75) = k
  have bounds : k * 2 ^ 75 ≤ c'.toNat + 2 ^ 74 ∧ c'.toNat + 2 ^ 74 < (k + 1) * 2 ^ 75 := by
    have lower := (le_roundDiv_iff (Nat.two_pow_pos 75)).1 isRounded.ge
    have upper := (roundDiv_lt_iff (Nat.two_pow_pos 75)).1 (Nat.lt_succ_of_le isRounded.le)
    omega
  refine ⟨roundSignificand a.sign c'.hi (0 + shift + a.scale.toNat + shift'), exponent, k, ?_,
    isRounded ▸ roundSignificand_fields top isExponent (by omega), by omega, by omega, ?_, ?_, ?_, ?_⟩
  · rw [monoDecimal2double]
    simp only [if_neg fun isZero => nonzero (dividendWords_iff.1 (And.symm isZero)), isReduced, isShifted]
  · have atLeast := (inUnits (2 ^ 53)).2 (by omega)
    push_cast at atLeast
    linarith
  · have below := mt (inUnits (2 ^ 54)).1 (by omega)
    push_cast at below
    linarith
  · have atLeast := (inUnits (2 * k - 1)).2 (by omega)
    rw [Nat.cast_sub (by omega)] at atLeast
    push_cast at atLeast
    linarith
  · have below := mt (inUnits (2 * k + 1)).1 (by omega)
    push_cast at below
    linarith

theorem nearest_zero (F : Format) (some_ : 0 < F.reserved) :
    Nearest F 0 { sign := false, exponent := 0, mantissa := 0 } := by
  have isZero : F.value { sign := false, exponent := 0, mantissa := 0 } = 0 := by
    simp only [Format.value, Format.significand, if_true, Nat.cast_zero, zero_mul, mul_zero]
  refine ⟨⟨some_, Nat.two_pow_pos _⟩, fun g _ => ?_, fun _ _ _ _ => Even.zero⟩
  rw [isZero, sub_zero, abs_zero]
  exact abs_nonneg _

theorem not_evenMidpoint_zero (F : Format) : ¬ EvenMidpoint F 0 := by
  rintro ⟨q, exponent, _, _, _, _, isMidpoint⟩
  have positive : 0 < ((q : ℚ) + 1 / 2) * F.unit exponent := mul_pos (by positivity) (unit_pos F exponent)
  rw [← isMidpoint, abs_zero] at positive
  exact lt_irrefl 0 positive

/-- The conversion gives the nearest double with ties to the even mantissa for exactly the decimals that are not halfway
between two neighbouring doubles of which the lower one has the even mantissa. -/
theorem monoDecimal2double_nearest_iff (a : ValidDecimal) :
    (∃ b, monoDecimal2double a.1 = some b ∧ Nearest binary64 a.1.value (doubleFields b)) ↔
      ¬ EvenMidpoint binary64 a.1.value := by
  by_cases isZero : a.1.mantissa = 0
  · have noValue : a.1.value = 0 := by rw [DecimalRepr.value, isZero, Nat.cast_zero, zero_div, mul_zero]
    have run : monoDecimal2double a.1 = some 0 := by
      rw [monoDecimal2double]
      exact if_pos (And.symm (dividendWords_iff.2 isZero))
    rw [noValue]
    exact iff_of_true ⟨0, run, nearest_zero binary64 (by decide)⟩ (not_evenMidpoint_zero binary64)
  · obtain ⟨b, exponent, k, run, is⟩ := monoDecimal2double_halfUp a.2 isZero
    have isSign : a.1.value = (if a.1.sign then -1 else 1) * |a.1.value| := by
      have isMagnitude : |a.1.value| = (a.1.mantissa : ℚ) / 10 ^ a.1.scale.toNat := by
        rw [DecimalRepr.value, abs_mul, ← Format.signOf, abs_signOf, one_mul, abs_of_nonneg (by positivity)]
      rw [isMagnitude, DecimalRepr.value]
    have rounds : Nearest binary64 a.1.value (doubleFields b) ↔ ¬ EvenMidpoint binary64 a.1.value := by
      rw [is.fields]
      exact nearest_iff_of_halfUp (by decide) isSign is.positive is.inRange is.low is.high is.notBelow is.notAbove
    rw [← rounds]
    refine ⟨?_, fun nearest => ⟨b, run, nearest⟩⟩
    rintro ⟨b', run', nearest⟩
    rw [run] at run'
    cases run'
    exact nearest

/-- 2 ^ 53 + 1 is halfway above an even mantissa, and is rounded up. -/
theorem monoDecimal2double_tie :
    monoDecimal2double (.of false 0 (2 ^ 53 + 1)) = some 0x4340000000000001 ∧
      ¬ Nearest binary64 (DecimalRepr.of false 0 (2 ^ 53 + 1)).value (doubleFields 0x4340000000000001) := by
  have isValue : (DecimalRepr.of false 0 (2 ^ 53 + 1)).value = 2 ^ 53 + 1 := by
    rw [DecimalRepr.value, show (DecimalRepr.of false 0 (2 ^ 53 + 1)).sign = false from rfl,
      show (DecimalRepr.of false 0 (2 ^ 53 + 1)).mantissa = 2 ^ 53 + 1 from rfl,
      show (DecimalRepr.of false 0 (2 ^ 53 + 1)).scale.toNat = 0 from rfl]
    norm_num
  have isUpper : binary64.value { sign := false, exponent := 1076, mantissa := 1 } = 2 ^ 53 + 2 := by
    norm_num [Format.value, Format.signOf, Format.significand, Format.unit, binary64]
  have isLower : binary64.value { sign := false, exponent := 1076, mantissa := 0 } = 2 ^ 53 := by
    norm_num [Format.value, Format.signOf, Format.significand, Format.unit, binary64]
  have isFinite : binary64.Finite { sign := false, exponent := 1076, mantissa := 0 } := by
    unfold Format.Finite
    decide
  refine ⟨by decide, fun nearest => ?_⟩
  rw [show doubleFields 0x4340000000000001 = { sign := false, exponent := 1076, mantissa := 1 } by decide] at nearest
  have even := nearest.even _ isFinite (by rw [isValue, isUpper, isLower]; norm_num) (by rw [isUpper, isLower]; norm_num)
  exact Nat.not_even_one even

end MonoRuntime.Decimal
