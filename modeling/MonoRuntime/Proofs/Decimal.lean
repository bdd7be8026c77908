/-
Module: MonoRuntime.Proofs.Decimal
Purpose: The comparison of decimals agrees with the order of their rational values: the logarithms decide only
  where the values are apart, and the subtraction loses nothing that decides where they are close.
Trusted boundary: none
Main exports: monoDecimalCompare_correct
-/
import MonoRuntime.Proofs.DecimalArithmetic

namespace MonoRuntime.Decimal

/-! ### Logarithms -/

/-- The highest bit of the number is at the place. -/
def HasTop (n k : Nat) : Prop :=
  2 ^ k ≤ n ∧ n < 2 ^ (k + 1)

variable {k scale : Nat} {a b : DecimalRepr}

theorem hasTop_unique {n l : Nat} (first : HasTop n k) (second : HasTop n l) : k = l := by
  have nonzero : n ≠ 0 := by
    have := Nat.one_le_two_pow (n := k)
    have := first.1
    omega
  rw [← (Nat.log2_eq_iff nonzero).2 first, (Nat.log2_eq_iff nonzero).2 second]

theorem hasTop_upper {n upper place : Nat} (top : HasTop upper k) (low : 2 ^ place * upper ≤ n)
    (high : n < 2 ^ place * (upper + 1)) : HasTop n (place + k) := by
  refine ⟨?_, ?_⟩
  · calc 2 ^ (place + k) = 2 ^ place * 2 ^ k := Nat.pow_add 2 place k
      _ ≤ 2 ^ place * upper := Nat.mul_le_mul_left _ top.1
      _ ≤ n := low
  · calc n < 2 ^ place * (upper + 1) := high
      _ ≤ 2 ^ place * 2 ^ (k + 1) := Nat.mul_le_mul_left _ top.2
      _ = 2 ^ (place + k + 1) := by rw [← Nat.pow_add, Nat.add_assoc]

theorem log2Of64_eq {a : BitVec 64} (nonzero : a.toNat ≠ 0) : ∃ k : Nat, HasTop a.toNat k ∧ log2Of64 a = k + 1 := by
  have isNonzero : a ≠ 0 := fun isZero => nonzero (by rw [isZero]; rfl)
  refine ⟨a.toNat.log2, (Nat.log2_eq_iff nonzero).1 rfl, ?_⟩
  rw [log2Of64, if_neg isNonzero, myGBitNthMsf, if_neg isNonzero]

theorem log2Of32_eq {a : BitVec 32} (nonzero : a.toNat ≠ 0) : ∃ k : Nat, HasTop a.toNat k ∧ log2Of32 a = k + 1 := by
  have isNonzero : a ≠ 0 := fun isZero => nonzero (by rw [isZero]; rfl)
  have same : (a.setWidth 64).toNat = a.toNat := by
    rw [BitVec.toNat_setWidth, Nat.mod_eq_of_lt (by omega)]
  have isNonzero' : a.setWidth 64 ≠ 0 := fun isZero => nonzero (by rw [← same, isZero]; rfl)
  refine ⟨a.toNat.log2, (Nat.log2_eq_iff nonzero).1 rfl, ?_⟩
  rw [log2Of32, if_neg isNonzero, myGBitNthMsf, if_neg isNonzero', same]

theorem scaleLog2_spec (inRange : scale ≤ 28) : ∃ f : Nat, scaleLog2 scale = f ∧ f = scale * 33219 / 10000 ∧
      2 ^ f ≤ 10 ^ scale ∧ 10 ^ scale < 2 ^ (f + 1) := by
  refine ⟨scale * 33219 / 10000, ?_, rfl, ?_⟩
  · rw [scaleLog2, Int.tdiv_eq_ediv_of_nonneg (by omega)]
    omega
  · interval_cases scale <;> exact ⟨by decide, by decide⟩

theorem decimalLog2_eq {d : DecimalRepr} (nonzero : d.mantissa ≠ 0) :
    ∃ k : Nat, HasTop d.mantissa k ∧ decimalLog2 d = k + 1 - scaleLog2 d.scale.toNat := by
  have zero : (0 : BitVec 32).toNat = 0 := rfl
  have positive : ∀ k : Nat, (k : Int) + 1 ≠ decimalLogNeginf := fun k => by rw [decimalLogNeginf]; omega
  unfold DecimalRepr.mantissa at *
  unfold decimalLog2
  simp only [ne_eq, BitVec.toNat_eq, zero]
  by_cases hi : d.hi32.toNat = 0
  · by_cases mid : d.mid32.toNat = 0
    · obtain ⟨k, top, isLog⟩ := log2Of32_eq (a := d.lo32) (by omega)
      rw [if_neg (not_not.2 hi), if_neg (not_not.2 mid), isLog, if_pos (positive k)]
      exact ⟨k, by rwa [hi, mid, Nat.mul_zero, Nat.mul_zero], rfl⟩
    · obtain ⟨k, top, isLog⟩ := log2Of32_eq (a := d.mid32) mid
      have isLog' : 32 + log2Of32 d.mid32 = (32 + k : Nat) + 1 := by omega
      rw [if_neg (not_not.2 hi), if_pos mid, isLog', if_pos (positive _)]
      exact ⟨32 + k, hasTop_upper top (by omega) (by omega), rfl⟩
  · obtain ⟨k, top, isLog⟩ := log2Of32_eq (a := d.hi32) hi
    have isLog' : 64 + log2Of32 d.hi32 = (64 + k : Nat) + 1 := by omega
    rw [if_pos hi, isLog', if_pos (positive _)]
    exact ⟨64 + k, hasTop_upper top (by omega) (by omega), rfl⟩

theorem log2withScale128_eq {a : Dec128} (scale : Int) (nonzero : a.toNat ≠ 0) :
    ∃ k : Nat, HasTop a.toNat k ∧ log2withScale128 a scale = k + 1 - scaleLog2 scale := by
  have zero : (0 : BitVec 64).toNat = 0 := rfl
  unfold Dec128.toNat at *
  unfold log2withScale128 log2Of128
  simp only [BitVec.toNat_eq, zero]
  by_cases hi : a.hi.toNat = 0
  · obtain ⟨k, top, isLog⟩ := log2Of64_eq (a := a.lo) (by omega)
    rw [if_pos hi, isLog, if_neg (by omega)]
    exact ⟨k, by rwa [hi, Nat.mul_zero], rfl⟩
  · obtain ⟨k, top, isLog⟩ := log2Of64_eq hi
    exact ⟨64 + k, hasTop_upper top (by omega) (by omega), by omega⟩

theorem log2withScale128_zero {a : Dec128} (scale : Int) (isZero : a.toNat = 0) :
    log2withScale128 a scale = - scaleLog2 scale := by
  have zero : (0 : BitVec 64).toNat = 0 := rfl
  unfold Dec128.toNat at *
  unfold log2withScale128 log2Of128 log2Of64 decimalLogNeginf
  simp only [BitVec.toNat_eq, zero]
  rw [if_pos (show a.hi.toNat = 0 by omega), if_pos (show a.lo.toNat = 0 by omega), if_pos (by decide),
    Int.zero_sub]

theorem decimalLog2_zero {d : DecimalRepr} (isZero : d.mantissa = 0) : decimalLog2 d = decimalLogNeginf := by
  have zero : (0 : BitVec 32).toNat = 0 := rfl
  unfold DecimalRepr.mantissa at isZero
  unfold decimalLog2 log2Of32
  simp only [ne_eq, BitVec.toNat_eq, zero]
  rw [if_neg (not_not.2 (show d.hi32.toNat = 0 by omega)), if_neg (not_not.2 (show d.mid32.toNat = 0 by omega)),
    if_pos (show d.lo32.toNat = 0 by omega), if_neg (not_not.2 rfl)]
/-! ### The subtraction -/

/-- The mantissa at a higher scale. -/
def DecimalRepr.atScale (d : DecimalRepr) (scale : Nat) : Nat :=
  d.mantissa * 10 ^ (scale - d.scale.toNat)

/-- The difference of decimals with one sign, as the comparison asks for it: where the numbers at the common
scale are below 2^98 and the scale is not limited, its sign and whether it is zero are exact. -/
theorem monoDecimalIncr_spec (signs : a.sign ≠ b.sign) (isScale : scale = max a.scale.toNat b.scale.toNat)
    (inRange : scale ≤ 28) (aFits : a.atScale scale < 2 ^ 98) (bFits : b.atScale scale < 2 ^ 98)
    (noLimit : a.scale.toNat ≠ b.scale.toNat →
      scale + ((max (log2withScale128 a.to128 a.scale.toNat) (log2withScale128 b.to128 b.scale.toNat)
        * 1000).tdiv 3322 + 1) ≤ 35) : ∃ rc d, monoDecimalIncr a b = some (rc, d) ∧
      d.sign = (if a.atScale scale < b.atScale scale then !a.sign else a.sign) ∧
      (d.mantissa = 0 ↔ a.atScale scale = b.atScale scale) := by
  have subFlag : (a.sign != b.sign) = true := bne_iff_ne.2 signs
  unfold monoDecimalIncr
  simp only [subFlag, if_true]
  by_cases same : a.scale.toNat = b.scale.toNat
  · have aScale : scale = a.scale.toNat := by omega
    have bScale : scale = b.scale.toNat := by omega
    have isA : a.atScale scale = a.to128.toNat := by
      rw [DecimalRepr.atScale, aScale, Nat.sub_self, Nat.pow_zero, Nat.mul_one, to128_toNat]
    have isB : b.atScale scale = b.to128.toNat := by
      rw [DecimalRepr.atScale, bScale, Nat.sub_self, Nat.pow_zero, Nat.mul_one, to128_toNat]
    have aLess := a.mantissa_lt
    have bLess := b.mantissa_lt
    rw [← to128_toNat] at aLess bLess
    rw [if_pos (by rw [same]), isA, isB]
    obtain ⟨isSign, amount⟩ := combine128_sub a.sign (show a.to128.toNat < 2 ^ 127 by omega)
      (show b.to128.toNat < 2 ^ 127 by omega)
    have normal := normalize128_spec ((combine128 true a.sign a.to128 b.to128).2) scale
      (by omega) (fun large => by omega)
    rw [← aScale]
    simp only [normal.success, ne_eq, not_true_eq_false, if_false]
    obtain ⟨d, isPacked, packedSign, packed⟩ := pack128toDecimal_spec a
      (combine128 true a.sign a.to128 b.to128).1
      normal.scale_nonneg (Int.le_trans normal.scale_le (by omega)) normal.fits
    refine ⟨decimalSuccess, d, by rw [isPacked], by rw [packedSign, isSign], ?_⟩
    rw [packed, normal.zero_iff, amount]
    omega
  · rw [if_neg (by omega)]
    have common : (if (b.scale.toNat : Int) > a.scale.toNat then (b.scale.toNat : Int) else a.scale.toNat)
        = scale := by
      split <;> omega
    have limit : ¬ (scale : Int) + ((max (log2withScale128 a.to128 a.scale.toNat)
        (log2withScale128 b.to128 b.scale.toNat) * 1000).tdiv 3322 + 1) > (decimalMaxScale : Int) + 7 := by
      rw [decimalMaxScale]
      omega
    have aDelta : (scale : Int) - a.scale.toNat = (scale - a.scale.toNat : Nat) := by omega
    have bDelta : (scale : Int) - b.scale.toNat = (scale - b.scale.toNat : Nat) := by omega
    unfold DecimalRepr.atScale at aFits bFits ⊢
    rw [← to128_toNat] at aFits bFits
    obtain ⟨aSuccess, isA⟩ := adjustScale128_spec a.to128 (scale - a.scale.toNat) (by omega)
      (by omega)
    obtain ⟨bSuccess, isB⟩ := adjustScale128_spec b.to128 (scale - b.scale.toNat) (by omega)
      (by omega)
    simp only [common, if_neg limit, aDelta, bDelta, aSuccess, bSuccess, ne_eq, not_true_eq_false, if_false]
    rw [← to128_toNat, ← to128_toNat, ← isA, ← isB]
    generalize (adjustScale128 a.to128 (scale - a.scale.toNat : Nat)).2 = x at *
    generalize (adjustScale128 b.to128 (scale - b.scale.toNat : Nat)).2 = y at *
    obtain ⟨isSign, amount⟩ := combine128_sub a.sign (show x.toNat < 2 ^ 127 by omega)
      (show y.toNat < 2 ^ 127 by omega)
    have normal := normalize128_spec ((combine128 true a.sign x y).2) scale
      (by omega) (fun large => by omega)
    rw [rescale128_eq inRange]
    simp only [normal.success, not_true_eq_false, if_false]
    obtain ⟨d, isPacked, packedSign, packed⟩ := pack128toDecimal_spec a (combine128 true a.sign x y).1
      normal.scale_nonneg (Int.le_trans normal.scale_le (by omega)) normal.fits
    refine ⟨decimalSuccess, d, by rw [isPacked], by rw [packedSign, isSign], ?_⟩
    rw [packed, normal.zero_iff, amount]
    omega

/-! ### Magnitudes -/

/-- A decimal as `System.Decimal` builds it: the scale is at most 28. -/
def Valid (d : DecimalRepr) : Prop :=
  d.scale.toNat ≤ decimalMaxScale

/-- The comparison of the magnitudes, at a scale that is common to both. -/
def MagnitudeLt (a b : DecimalRepr) : Prop :=
  a.mantissa * 10 ^ b.scale.toNat < b.mantissa * 10 ^ a.scale.toNat

theorem magnitudeLt_iff (aLe : a.scale.toNat ≤ scale) (bLe : b.scale.toNat ≤ scale) :
    MagnitudeLt a b ↔ a.atScale scale < b.atScale scale := by
  have raise : ∀ d e : DecimalRepr, d.scale.toNat ≤ scale → e.scale.toNat ≤ scale →
      d.atScale scale * (10 ^ d.scale.toNat * 10 ^ e.scale.toNat)
        = d.mantissa * 10 ^ e.scale.toNat * 10 ^ scale := by
    intro d e dLe eLe
    have split : 10 ^ (scale - d.scale.toNat) * 10 ^ d.scale.toNat = 10 ^ scale := by
      rw [← Nat.pow_add, Nat.sub_add_cancel dLe]
    rw [DecimalRepr.atScale, ← split]
    ring
  have positive : 0 < 10 ^ a.scale.toNat * 10 ^ b.scale.toNat := Nat.mul_pos (by positivity) (by positivity)
  have positive' : 0 < 10 ^ scale := by positivity
  rw [MagnitudeLt, ← Nat.mul_lt_mul_right positive', ← raise a b aLe bLe, ← raise b a bLe aLe,
    Nat.mul_comm (10 ^ b.scale.toNat), Nat.mul_lt_mul_right positive]

/-- The approximated logarithms of magnitudes differ by more than one only in the order of the magnitudes. -/
theorem magnitudeLt_of_log2 (aValid : Valid a) (bValid : Valid b) (less : decimalLog2 a - decimalLog2 b < -1) :
    MagnitudeLt a b := by
  obtain ⟨f, isF, fScale, fLow, fHigh⟩ := scaleLog2_spec aValid
  obtain ⟨g, isG, gScale, gLow, gHigh⟩ := scaleLog2_spec bValid
  by_cases bZero : b.mantissa = 0
  · -- The logarithm of zero is below all others.
    rw [decimalLog2_zero bZero, decimalLogNeginf] at less
    by_cases aZero : a.mantissa = 0
    · rw [decimalLog2_zero aZero, decimalLogNeginf] at less
      omega
    · obtain ⟨k, _, isLog⟩ := decimalLog2_eq aZero
      omega
  · have positive : 0 < b.mantissa * 10 ^ a.scale.toNat := Nat.mul_pos (Nat.pos_of_ne_zero bZero) (by positivity)
    by_cases aZero : a.mantissa = 0
    · rw [MagnitudeLt, aZero, Nat.zero_mul]
      exact positive
    · obtain ⟨k, kTop, isK⟩ := decimalLog2_eq aZero
      obtain ⟨l, lTop, isL⟩ := decimalLog2_eq bZero
      have apart : k + 1 + (g + 1) ≤ l + f := by omega
      calc a.mantissa * 10 ^ b.scale.toNat
          < 2 ^ (k + 1) * 2 ^ (g + 1) := Nat.mul_lt_mul'' kTop.2 gHigh
        _ = 2 ^ (k + 1 + (g + 1)) := (Nat.pow_add _ _ _).symm
        _ ≤ 2 ^ (l + f) := Nat.pow_le_pow_right (by decide) apart
        _ = 2 ^ l * 2 ^ f := Nat.pow_add _ _ _
        _ ≤ b.mantissa * 10 ^ a.scale.toNat := Nat.mul_le_mul lTop.1 fLow

/-- What the subtraction relies on, where the logarithms are close. -/
structure Close (a b : DecimalRepr) (scale : Nat) : Prop where
  aFits : a.atScale scale < 2 ^ 98
  bFits : b.atScale scale < 2 ^ 98
  noLimit : scale + ((max (log2withScale128 a.to128 a.scale.toNat) (log2withScale128 b.to128 b.scale.toNat)
    * 1000).tdiv 3322 + 1) ≤ 35

/-- The estimated number of digits before the point leaves the scale as it is. -/
theorem log10_le {log2 : Int} (inRange : scale ≤ 28) (le : log2 ≤ 97 - (scale * 33219 / 10000 : Nat)) :
    scale + ((log2 * 1000).tdiv 3322 + 1) ≤ 35 := by
  rcases Int.le_total 0 log2 with nonneg | nonpos
  · rw [Int.tdiv_eq_ediv_of_nonneg (by omega)]
    omega
  · have nonpos : (log2 * 1000).tdiv 3322 ≤ 0 := Int.tdiv_le_tdiv (b := 0) (by decide) (by omega)
    omega

/-- The number of a mantissa raised to the scale of a decimal that is about as large. -/
theorem atScale_lt {l f g : Nat} (aTop : a.mantissa < 2 ^ (k + 1)) (bTop : 2 ^ l ≤ b.mantissa)
    (fLow : 2 ^ f ≤ 10 ^ a.scale.toNat) (gHigh : 10 ^ b.scale.toNat < 2 ^ (g + 1))
    (le : a.scale.toNat ≤ b.scale.toNat) (close : k + g ≤ l + f + 1) : a.atScale b.scale.toNat < 2 ^ 98 := by
  have lLess : l < 96 := (Nat.pow_lt_pow_iff_right (by decide)).1 (Nat.lt_of_le_of_lt bTop b.mantissa_lt)
  have split : 10 ^ (b.scale.toNat - a.scale.toNat) * 10 ^ a.scale.toNat = 10 ^ b.scale.toNat := by
    rw [← Nat.pow_add, Nat.sub_add_cancel le]
  refine Nat.lt_of_mul_lt_mul_right (a := 10 ^ a.scale.toNat) ?_
  calc a.atScale b.scale.toNat * 10 ^ a.scale.toNat
      = a.mantissa * 10 ^ b.scale.toNat := by rw [DecimalRepr.atScale, Nat.mul_assoc, split]
    _ < 2 ^ (k + 1) * 2 ^ (g + 1) := Nat.mul_lt_mul'' aTop gHigh
    _ = 2 ^ (k + 1 + (g + 1)) := (Nat.pow_add _ _ _).symm
    _ ≤ 2 ^ (98 + f) := Nat.pow_le_pow_right (by decide) (by omega)
    _ = 2 ^ 98 * 2 ^ f := Nat.pow_add _ _ _
    _ ≤ 2 ^ 98 * 10 ^ a.scale.toNat := Nat.mul_le_mul_left _ fLow

theorem atScale_self (d : DecimalRepr) : d.atScale d.scale.toNat < 2 ^ 98 := by
  have less := d.mantissa_lt
  rw [DecimalRepr.atScale, Nat.sub_self, Nat.pow_zero, Nat.mul_one]
  omega

theorem close_of_log2 (aValid : Valid a) (bValid : Valid b) (isScale : scale = max a.scale.toNat b.scale.toNat)
    (notLess : ¬ decimalLog2 a - decimalLog2 b < -1) (notMore : ¬ decimalLog2 a - decimalLog2 b > 1) :
    Close a b scale := by
  unfold Valid decimalMaxScale at aValid bValid
  obtain ⟨f, isF, fScale, fLow, fHigh⟩ := scaleLog2_spec aValid
  obtain ⟨g, isG, gScale, gLow, gHigh⟩ := scaleLog2_spec bValid
  by_cases aZero : a.mantissa = 0
  · by_cases bZero : b.mantissa = 0
    · refine ⟨by rw [DecimalRepr.atScale, aZero, Nat.zero_mul]; decide,
        by rw [DecimalRepr.atScale, bZero, Nat.zero_mul]; decide, ?_⟩
      rw [log2withScale128_zero _ (by rwa [to128_toNat]), log2withScale128_zero _ (by rwa [to128_toNat]), isF, isG]
      exact log10_le (by omega) (by omega)
    · obtain ⟨l, _, isL⟩ := decimalLog2_eq bZero
      rw [decimalLog2_zero aZero, decimalLogNeginf] at notLess
      omega
  · by_cases bZero : b.mantissa = 0
    · obtain ⟨k, _, isK⟩ := decimalLog2_eq aZero
      rw [decimalLog2_zero bZero, decimalLogNeginf] at notMore
      omega
    · obtain ⟨k, kTop, isK⟩ := decimalLog2_eq aZero
      obtain ⟨l, lTop, isL⟩ := decimalLog2_eq bZero
      obtain ⟨k', kTop', isK'⟩ := log2withScale128_eq (a := a.to128) a.scale.toNat (by rwa [to128_toNat])
      obtain ⟨l', lTop', isL'⟩ := log2withScale128_eq (a := b.to128) b.scale.toNat (by rwa [to128_toNat])
      rw [to128_toNat] at kTop' lTop'
      rw [hasTop_unique kTop' kTop] at isK'
      rw [hasTop_unique lTop' lTop] at isL'
      have kLess : k < 96 := (Nat.pow_lt_pow_iff_right (by decide)).1 (Nat.lt_of_le_of_lt kTop.1 a.mantissa_lt)
      have lLess : l < 96 := (Nat.pow_lt_pow_iff_right (by decide)).1 (Nat.lt_of_le_of_lt lTop.1 b.mantissa_lt)
      refine ⟨?_, ?_, ?_⟩
      · rcases Nat.le_total a.scale.toNat b.scale.toNat with le | ge
        · rw [isScale, max_eq_right le]
          exact atScale_lt kTop.2 lTop.1 fLow gHigh le (by omega)
        · rw [isScale, max_eq_left ge]
          exact atScale_self a
      · rcases Nat.le_total a.scale.toNat b.scale.toNat with le | ge
        · rw [isScale, max_eq_right le]
          exact atScale_self b
        · rw [isScale, max_eq_left ge]
          exact atScale_lt lTop.2 kTop.1 gLow fHigh ge (by omega)
      · rw [isK', isL', isF, isG]
        refine log10_le (by omega) ?_
        rcases Nat.le_total a.scale.toNat b.scale.toNat with le | ge
        · rw [isScale, max_eq_right le, ← gScale]
          omega
        · rw [isScale, max_eq_left ge, ← fScale]
          omega

/-! ### The comparison -/

theorem monoDecimalCompare_of_same (aValid : Valid a) (bValid : Valid b) (same : a.sign = b.sign) :
    ∃ r, monoDecimalCompare a b = some r ∧
      (MagnitudeLt a b → r = if a.sign then 1 else -1) ∧
      (MagnitudeLt b a → r = if a.sign then -1 else 1) ∧
      (¬ MagnitudeLt a b → ¬ MagnitudeLt b a → r = 0) := by
  have asymm : MagnitudeLt a b → ¬ MagnitudeLt b a := Nat.lt_asymm
  unfold monoDecimalCompare
  rw [if_neg (not_not.2 same)]
  by_cases less : decimalLog2 a - decimalLog2 b < -1
  · have isLess := magnitudeLt_of_log2 aValid bValid less
    rw [if_pos less]
    refine ⟨_, rfl, fun _ => ?_, fun more => absurd more (asymm isLess), fun notLess => absurd isLess notLess⟩
    cases a.sign <;> rfl
  · by_cases more : decimalLog2 a - decimalLog2 b > 1
    · have isMore := magnitudeLt_of_log2 bValid aValid (by omega)
      rw [if_neg less, if_pos more]
      exact ⟨_, rfl, fun isLess => absurd isMore (asymm isLess), fun _ => rfl, fun _ notMore => absurd isMore notMore⟩
    · rw [if_neg less, if_neg more]
      have close := close_of_log2 aValid bValid rfl less more
      unfold Valid decimalMaxScale at aValid bValid
      obtain ⟨rc, aa, run, isSign, isZero⟩ := monoDecimalIncr_spec (a := { a with sign := !a.sign }) (b := b)
        (by rw [← same]; exact Bool.not_ne_self a.sign) rfl (show max a.scale.toNat b.scale.toNat ≤ 28 by omega)
        close.aFits close.bFits (fun _ => close.noLimit)
      rw [run]
      have first := magnitudeLt_iff (a := a) (b := b) (Nat.le_max_left _ b.scale.toNat) (Nat.le_max_right _ _)
      have second := magnitudeLt_iff (a := b) (b := a) (Nat.le_max_right a.scale.toNat _) (Nat.le_max_left _ _)
      rw [first, second]
      have zero_iff : decimalIsZero aa = true ↔
          a.atScale (max a.scale.toNat b.scale.toNat) = b.atScale (max a.scale.toNat b.scale.toNat) := by
        rw [decimalIsZero_iff]
        exact isZero
      have isSign : aa.sign = if a.atScale (max a.scale.toNat b.scale.toNat)
          < b.atScale (max a.scale.toNat b.scale.toNat) then a.sign else !a.sign := by
        rw [isSign]
        simp only [Bool.not_not]
        rfl
      refine ⟨_, rfl, fun isLess => ?_, fun isMore => ?_, fun notLess notMore => ?_⟩
      · rw [if_neg (fun zero => Nat.ne_of_lt isLess (zero_iff.1 zero)), isSign, if_pos isLess]
      · rw [if_neg (fun zero => Nat.ne_of_gt isMore (zero_iff.1 zero)), isSign, if_neg (Nat.lt_asymm isMore)]
        cases a.sign <;> rfl
      · rw [if_pos (zero_iff.2 (Nat.le_antisymm (Nat.not_lt.1 notMore) (Nat.not_lt.1 notLess)))]

/-- The rational number that the decimal stands for. -/
def DecimalRepr.value (d : DecimalRepr) : ℚ :=
  (if d.sign then -1 else 1) * (d.mantissa / 10 ^ d.scale.toNat)

/-- The number has the sign of the comparison of the rationals. -/
structure Agrees (r : Int) (x y : ℚ) : Prop where
  zero_iff : r = 0 ↔ x = y
  pos_iff : 0 < r ↔ y < x
  neg_iff : r < 0 ↔ x < y

theorem Agrees.intro {r : Int} {x y : ℚ} (less : x < y → r < 0) (more : y < x → 0 < r) (same : x = y → r = 0) :
    Agrees r x y := by
  rcases lt_trichotomy x y with isLess | isSame | isMore
  · have neg := less isLess
    exact ⟨⟨fun zero => by omega, fun eq => absurd eq isLess.ne⟩,
      ⟨fun pos => by omega, fun gt => absurd gt isLess.asymm⟩, ⟨fun _ => isLess, fun _ => neg⟩⟩
  · have zero := same isSame
    exact ⟨⟨fun _ => isSame, fun _ => zero⟩, ⟨fun pos => by omega, fun gt => absurd isSame gt.ne'⟩,
      ⟨fun neg => by omega, fun lt => absurd isSame lt.ne⟩⟩
  · have pos := more isMore
    exact ⟨⟨fun zero => by omega, fun eq => absurd eq isMore.ne'⟩, ⟨fun _ => isMore, fun _ => pos⟩,
      ⟨fun neg => by omega, fun lt => absurd lt isMore.asymm⟩⟩

theorem magnitudeLt_iff_lt (a b : DecimalRepr) :
    MagnitudeLt a b ↔ (a.mantissa / 10 ^ a.scale.toNat : ℚ) < b.mantissa / 10 ^ b.scale.toNat := by
  rw [div_lt_div_iff₀ (by positivity) (by positivity)]
  exact_mod_cast Iff.rfl

theorem monoDecimalCompare_agrees (aValid : Valid a) (bValid : Valid b) :
    ∃ r, monoDecimalCompare a b = some r ∧ Agrees r a.value b.value := by
  have aNonneg : (0 : ℚ) ≤ a.mantissa / 10 ^ a.scale.toNat := by positivity
  have bNonneg : (0 : ℚ) ≤ b.mantissa / 10 ^ b.scale.toNat := by positivity
  have aLt := magnitudeLt_iff_lt a b
  have bLt := magnitudeLt_iff_lt b a
  by_cases same : a.sign = b.sign
  · obtain ⟨r, run, less, more, equal⟩ := monoDecimalCompare_of_same aValid bValid same
    refine ⟨r, run, ?_⟩
    unfold DecimalRepr.value
    rw [← same]
    rw [aLt] at less equal
    rw [bLt] at more equal
    cases isSign : a.sign with
    | false =>
      rw [isSign] at less more
      simp only [Bool.false_eq_true, if_false, one_mul] at *
      exact Agrees.intro (fun lt => by rw [less lt]; decide) (fun gt => by rw [more gt]; decide)
        fun eq => equal eq.not_lt eq.not_gt
    | true =>
      rw [isSign] at less more
      simp only [if_true, neg_mul, one_mul] at *
      exact Agrees.intro (fun gt => by rw [more (neg_lt_neg_iff.1 gt)]; decide)
        (fun lt => by rw [less (neg_lt_neg_iff.1 lt)]; decide)
        fun eq => equal (neg_inj.1 eq).not_lt (neg_inj.1 eq).not_gt
  · have isZero : ∀ d : DecimalRepr, decimalIsZero d = true ↔ (d.mantissa / 10 ^ d.scale.toNat : ℚ) = 0 := by
      intro d
      rw [decimalIsZero_iff, div_eq_zero_iff, Nat.cast_eq_zero]
      exact ⟨Or.inl, fun zero => zero.resolve_right (by positivity)⟩
    unfold monoDecimalCompare DecimalRepr.value
    rw [if_pos same]
    refine ⟨_, rfl, ?_⟩
    by_cases zeros : decimalIsZero a = true ∧ decimalIsZero b = true
    · -- Zeros of different signs are equal.
      rw [if_pos zeros, (isZero a).1 zeros.1, (isZero b).1 zeros.2, mul_zero, mul_zero]
      exact ⟨⟨fun _ => rfl, fun _ => rfl⟩, by simp, by simp⟩
    · rw [if_neg zeros]
      have positive : (0 : ℚ) < a.mantissa / 10 ^ a.scale.toNat + b.mantissa / 10 ^ b.scale.toNat := by
        refine lt_of_le_of_ne (add_nonneg aNonneg bNonneg) fun sum => zeros ?_
        have split := (add_eq_zero_iff_of_nonneg aNonneg bNonneg).1 sum.symm
        exact ⟨(isZero a).2 split.1, (isZero b).2 split.2⟩
      cases isSign : a.sign with
      | false =>
        have isSign' : b.sign = true := by
          rw [isSign] at same
          exact (Bool.eq_false_or_eq_true b.sign).resolve_right fun isFalse => same isFalse.symm
        rw [isSign']
        simp only [Bool.false_eq_true, if_false, if_true, neg_mul, one_mul]
        exact Agrees.intro (fun lt => absurd lt (by linarith)) (fun _ => by decide)
          fun eq => absurd eq (by linarith)
      | true =>
        have isSign' : b.sign = false := by
          rw [isSign] at same
          exact (Bool.eq_false_or_eq_true b.sign).resolve_left fun isTrue => same isTrue.symm
        rw [isSign']
        simp only [Bool.false_eq_true, if_false, if_true, neg_mul, one_mul]
        exact Agrees.intro (fun _ => by decide) (fun gt => absurd gt (by linarith))
          fun eq => absurd eq (by linarith)

/-- The decimals with a scale in the range. -/
abbrev ValidDecimal := { d : DecimalRepr // Valid d }

/-- The order that the comparison gives. -/
def CompareLe (a b : ValidDecimal) : Prop :=
  ∃ r, monoDecimalCompare a.1 b.1 = some r ∧ r ≤ 0

theorem compareLe_iff (a b : ValidDecimal) : CompareLe a b ↔ a.1.value ≤ b.1.value := by
  obtain ⟨r, run, agrees⟩ := monoDecimalCompare_agrees a.2 b.2
  rw [← not_lt, ← agrees.pos_iff, not_lt]
  refine ⟨?_, fun le => ⟨r, run, le⟩⟩
  rintro ⟨r', run', le⟩
  rw [run] at run'
  cases run'
  exact le

/-- The comparison of any two decimals succeeds and has the sign of the comparison of their values; so it is a
total preorder. -/
theorem monoDecimalCompare_correct :
    (∀ a b : ValidDecimal, ∃ r, monoDecimalCompare a.1 b.1 = some r ∧ Agrees r a.1.value b.1.value) ∧
      IsPreorder ValidDecimal CompareLe ∧ Std.Total CompareLe := by
  refine ⟨fun a b => monoDecimalCompare_agrees a.2 b.2, ?_, ?_⟩
  · refine { refl := fun a => ?_, trans := fun a b c first second => ?_ }
    · exact (compareLe_iff a a).2 le_rfl
    · exact (compareLe_iff a c).2 (((compareLe_iff a b).1 first).trans ((compareLe_iff b c).1 second))
  · exact ⟨fun a b => (le_total a.1.value b.1.value).imp (compareLe_iff a b).2 (compareLe_iff b a).2⟩
end MonoRuntime.Decimal
