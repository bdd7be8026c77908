/-
Module: MonoRuntime.Proofs.DecimalRound
Purpose: The functions that remove digits do so in one step of rounding, however many divisions it takes; but a half is
  always rounded up, and the conversions to integers round as well.
Trusted boundary: none
Main exports: removesDigits_iff
-/
import MonoRuntime.Metadata.DecimalRound
import MonoRuntime.Proofs.DecimalRounding
import MonoRuntime.Lib.HalfEven
import Mathlib.Data.Rat.Floor

namespace MonoRuntime.Decimal

open HalfUp HalfEven

/-! ### Digits -/

theorem stepDigits_spec (digits : Nat) (some_ : 0 < digits) :
    ∃ idx, (if digits > decimalMaxIntfactors then decimalMaxIntfactors else digits) = idx ∧ 0 < idx ∧ idx ≤ digits ∧
      (decadeFactor idx).toNat = 10 ^ idx := by
  refine ⟨_, rfl, ?_, ?_, decadeFactor_toNat ?_⟩ <;> unfold decimalMaxIntfactors <;> split <;> omega

theorem divideRounding_spec : ∀ (fuel power : Nat) (a : Dec128) (roundBit : Bool), power ≤ fuel →
    (divideRounding fuel power a roundBit).1.toNat = a.toNat / 10 ^ power ∧
      (divideRounding fuel power a roundBit).2 = if power = 0 then roundBit else roundsUp a.toNat (10 ^ power) := by
  intro fuel
  induction fuel with
  | zero =>
    intro power a roundBit enough
    have none_ : power = 0 := by omega
    rw [none_, Nat.pow_zero, Nat.div_one]
    exact ⟨rfl, rfl⟩
  | succ fuel next =>
    intro power a roundBit enough
    rw [divideRounding]
    by_cases some_ : power > 0
    · obtain ⟨idx, isIdx, positive, le, factor⟩ := stepDigits_spec power some_
      have nonzero : (decadeFactor idx).toNat ≠ 0 := by
        rw [factor]
        exact (ten_pow_pos idx).ne'
      obtain ⟨isQuotient, isRound⟩ := div128by32_division a (decadeFactor idx) nonzero
      obtain ⟨rest, restRound⟩ := next (power - idx) (div128by32 a (decadeFactor idx)).2.2
        (div128by32 a (decadeFactor idx)).1 (by omega)
      rw [if_pos some_]
      simp only [isIdx]
      rw [rest, restRound, isQuotient, isRound, factor, if_neg (show power ≠ 0 by omega), Nat.div_div_eq_div_mul,
        Nat.mul_comm, ← ten_pow_split le]
      refine ⟨rfl, ?_⟩
      by_cases last : power - idx = 0
      · rw [if_pos last, show idx = power by omega]
      · rw [if_neg last, roundsUp_div (ten_pow_pos idx) (two_dvd_ten_pow last), Nat.mul_comm, ← ten_pow_split le]
    · have none_ : power = 0 := by omega
      rw [if_neg some_, none_, Nat.pow_zero, Nat.div_one]
      exact ⟨rfl, rfl⟩

theorem div128DecadeFactor_spec {a : Dec128} (power : Nat) (fits : a.toNat < 2 ^ 96) :
    (div128DecadeFactor a power).toNat = roundDiv a.toNat (10 ^ power) := by
  obtain ⟨isQuotient, isRound⟩ := divideRounding_spec power power a false (Nat.le_refl power)
  have less : a.toNat / 10 ^ power ≤ a.toNat := Nat.div_le_self _ _
  have isRound' : (divideRounding power power a false).2 = roundsUp a.toNat (10 ^ power) := by
    rw [isRound]
    by_cases none_ : power = 0
    · rw [if_pos none_, none_, Nat.pow_zero, roundsUp_one]
    · rw [if_neg none_]
  unfold div128DecadeFactor
  simp only [Int.toNat_natCast]
  rw [isRound', roundDiv_eq (ten_pow_pos power), ← isQuotient]
  cases roundsUp a.toNat (10 ^ power) with
  | true =>
    rw [if_pos rfl, roundUp128_toNat (by omega)]
    rfl
  | false =>
    rfl

theorem divideRest_spec : ∀ (fuel scale : Nat) (a : Dec128) (hasRest : Bool), scale ≤ fuel →
    (divideRest fuel scale a hasRest).1.toNat = a.toNat / 10 ^ scale ∧
      (divideRest fuel scale a hasRest).2 = (hasRest || a.toNat % 10 ^ scale ≠ 0) := by
  intro fuel
  induction fuel with
  | zero =>
    intro scale a hasRest enough
    have none_ : scale = 0 := by omega
    rw [none_, Nat.pow_zero, Nat.div_one, Nat.mod_one]
    exact ⟨rfl, (Bool.or_false _).symm⟩
  | succ fuel next =>
    intro scale a hasRest enough
    rw [divideRest]
    by_cases some_ : scale > 0
    · obtain ⟨idx, isIdx, positive, le, factor⟩ := stepDigits_spec scale some_
      have nonzero : (decadeFactor idx).toNat ≠ 0 := by
        rw [factor]
        exact (ten_pow_pos idx).ne'
      obtain ⟨rest, restFlag⟩ := next (scale - idx) (div128by32 a (decadeFactor idx)).2.2
        (hasRest || (div128by32 a (decadeFactor idx)).2.1 ≠ 0) (by omega)
      rw [if_pos some_]
      simp only [isIdx]
      rw [rest, restFlag, div128by32_spec a _ nonzero, factor, Nat.div_div_eq_div_mul, Nat.mul_comm,
        ← ten_pow_split le]
      refine ⟨rfl, ?_⟩
      have isRest := div128by32_rest a (decadeFactor idx) nonzero
      rw [factor] at isRest
      have split : a.toNat % 10 ^ scale =
          a.toNat % 10 ^ idx + 10 ^ idx * (a.toNat / 10 ^ idx % 10 ^ (scale - idx)) := by
        rw [ten_pow_split le, Nat.mul_comm, Nat.mod_mul]
      have isZero : (div128by32 a (decadeFactor idx)).2.1 = 0 ↔ a.toNat % 10 ^ idx = 0 := by
        rw [← isRest, BitVec.toNat_eq]
        rfl
      have both : a.toNat % 10 ^ scale = 0 ↔
          a.toNat % 10 ^ idx = 0 ∧ a.toNat / 10 ^ idx % 10 ^ (scale - idx) = 0 := by
        rw [split, Nat.add_eq_zero_iff, Nat.mul_eq_zero, or_iff_right (ten_pow_pos idx).ne']
      rw [Bool.or_assoc]
      congr 1
      rw [← Bool.decide_or]
      apply decide_eq_decide.2
      rw [Ne, Ne, Ne, isZero, both, not_and_or]
    · have none_ : scale = 0 := by omega
      rw [if_neg some_, none_, Nat.pow_zero, Nat.div_one, Nat.mod_one]
      exact ⟨rfl, (Bool.or_false _).symm⟩

/-! ### Rounding to places -/

/-- The number is another one, rounded to a number of decimal places with ties to the even digit. -/
def RoundedToPlaces (x : ℚ) (places : Nat) (y : ℚ) : Prop :=
  ∃ k : ℤ, y * 10 ^ places = k ∧ NearestEven (x * 10 ^ places) k

/-- The sign of a decimal as an integer. -/
def signInt (sign : Bool) : ℤ :=
  if sign then -1 else 1

variable (sign : Bool)

theorem cast_signInt : ((signInt sign : ℤ) : ℚ) = signFactor sign := by
  cases sign <;> norm_num [signInt, signFactor]

theorem nearestEven_signed_iff (x : ℚ) (k : ℤ) : NearestEven (signFactor sign * x) (signInt sign * k) ↔ NearestEven x k :=
  nearestEven_sign_iff sign

variable (a : ValidDecimal) (decimals : Nat)

theorem monoDecimalRound_spec (inRange : decimals ≤ 28) : (monoDecimalRound a.1 decimals).sign = a.1.sign ∧
      (monoDecimalRound a.1 decimals).scale.toNat = min a.1.scale.toNat decimals ∧
      (monoDecimalRound a.1 decimals).mantissa = roundDiv a.1.mantissa (10 ^ (a.1.scale.toNat - decimals)) := by
  have isValid : a.1.scale.toNat ≤ 28 := a.2
  have fits : a.1.to128.toNat < 2 ^ 96 := by
    rw [to128_toNat]
    exact a.1.mantissa_lt
  unfold monoDecimalRound
  by_cases more : (a.1.scale.toNat : Int) > decimals
  · have power : (a.1.scale.toNat : Int) - decimals = (a.1.scale.toNat - decimals : Nat) := by omega
    have isRounded := div128DecadeFactor_spec (a.1.scale.toNat - decimals) fits
    have less : roundDiv a.1.to128.toNat (10 ^ (a.1.scale.toNat - decimals)) < 2 ^ 96 := by
      have small := roundDiv_antitone (n := a.1.to128.toNat) Nat.one_pos (ten_pow_pos (a.1.scale.toNat - decimals))
      rw [roundDiv_one] at small
      omega
    obtain ⟨r, isPacked, isSign, isScale, isMantissa⟩ := pack128toDecimal_fits a.1 a.1.sign inRange
      (isRounded.trans_lt less)
    simp only [if_pos more, power, isPacked]
    refine ⟨isSign, by rw [isScale]; omega, ?_⟩
    rw [isMantissa, isRounded, to128_toNat]
  · obtain ⟨r, isPacked, isSign, isScale, isMantissa⟩ := pack128toDecimal_fits a.1 a.1.sign isValid fits
    simp only [if_neg more, isPacked]
    refine ⟨isSign, by rw [isScale]; omega, ?_⟩
    rw [isMantissa, to128_toNat, show a.1.scale.toNat - decimals = 0 by omega, Nat.pow_zero, roundDiv_one]

theorem roundedToPlaces_of {x y : ℚ} {places : Nat} {k : ℤ} (isScaled : y * 10 ^ places = k) :
    RoundedToPlaces x places y ↔ NearestEven (x * 10 ^ places) k := by
  refine ⟨?_, fun is => ⟨k, isScaled, is⟩⟩
  rintro ⟨l, isL, is⟩
  rw [isScaled] at isL
  rwa [Int.cast_inj.1 isL]

theorem roundedToPlaces_iff (inRange : decimals ≤ 28) :
    RoundedToPlaces a.1.value decimals (monoDecimalRound a.1 decimals).value ↔
      ¬ EvenTie a.1.mantissa (10 ^ (a.1.scale.toNat - decimals)) := by
  obtain ⟨isSign, isScale, isMantissa⟩ := monoDecimalRound_spec a decimals inRange
  by_cases more : decimals < a.1.scale.toNat
  · have power : (10 : ℚ) ^ decimals ≠ 0 := by positivity
    have split : (10 : ℚ) ^ a.1.scale.toNat = (10 ^ (a.1.scale.toNat - decimals) : Nat) * 10 ^ decimals := by
      push_cast
      rw [← pow_add, Nat.sub_add_cancel more.le]
    have exact_ : a.1.value * 10 ^ decimals =
        signFactor a.1.sign * (a.1.mantissa / (10 ^ (a.1.scale.toNat - decimals) : Nat)) := by
      rw [value_eq, mul_assoc, split, ← div_div, div_mul_cancel₀ _ power]
    have rounded : (monoDecimalRound a.1 decimals).value * 10 ^ decimals =
        ((signInt a.1.sign * (roundDiv a.1.mantissa (10 ^ (a.1.scale.toNat - decimals)) : Nat) : ℤ) : ℚ) := by
      rw [value_eq, isSign, isScale, isMantissa, min_eq_right more.le, mul_assoc, div_mul_cancel₀ _ power, Int.cast_mul,
        cast_signInt, Int.cast_natCast]
    rw [roundedToPlaces_of rounded, exact_, nearestEven_signed_iff, nearestEven_roundDiv_iff (ten_pow_pos _)]
  · have none_ : a.1.scale.toNat - decimals = 0 := by omega
    rw [none_, Nat.pow_zero, roundDiv_one] at isMantissa
    have same : (monoDecimalRound a.1 decimals).value = a.1.value := by
      rw [value_eq, value_eq, isSign, isScale, isMantissa, min_eq_left (by omega)]
    have split : (10 : ℚ) ^ decimals = 10 ^ a.1.scale.toNat * 10 ^ (decimals - a.1.scale.toNat) := by
      rw [← pow_add, Nat.add_sub_cancel' (by omega)]
    have whole : a.1.value * 10 ^ decimals =
        ((signInt a.1.sign * (a.1.mantissa * 10 ^ (decimals - a.1.scale.toNat) : Nat) : ℤ) : ℚ) := by
      rw [value_eq, split, mul_assoc, ← mul_assoc (_ / _), div_mul_cancel₀ _ (by positivity), Int.cast_mul, cast_signInt]
      push_cast
      rfl
    have noTie : ¬ EvenTie a.1.mantissa 1 := by
      unfold EvenTie
      omega
    rw [same, roundedToPlaces_of whole, whole, none_, Nat.pow_zero]
    exact iff_of_true (nearestEven_intCast _) noTie

/-! ### Floor and truncation -/

/-- The number without its fraction. -/
def truncated (x : ℚ) : ℤ :=
  if x < 0 then ⌈x⌉ else ⌊x⌋

variable (d : DecimalRepr)

theorem truncated_value : truncated d.value = signInt d.sign * (d.mantissa / 10 ^ d.scale.toNat : Nat) := by
  have isFloor : ⌊(d.mantissa : ℚ) / 10 ^ d.scale.toNat⌋ = (d.mantissa / 10 ^ d.scale.toNat : Nat) := by
    have := Rat.floor_natCast_div_natCast d.mantissa (10 ^ d.scale.toNat)
    push_cast at this ⊢
    exact this
  have nonneg : (0 : ℚ) ≤ d.mantissa / 10 ^ d.scale.toNat := by positivity
  unfold truncated
  rw [value_eq]
  cases d.sign with
  | true =>
    have isNeg : signFactor true * ((d.mantissa : ℚ) / 10 ^ d.scale.toNat) = -(d.mantissa / 10 ^ d.scale.toNat) := by
      norm_num [signFactor]
    rw [isNeg, Int.ceil_neg, Int.floor_neg, isFloor]
    split
    next => norm_num [signInt]
    next notNegative =>
      have isZero : (d.mantissa : ℚ) / 10 ^ d.scale.toNat = 0 := by linarith
      rw [isZero, Int.floor_zero] at isFloor
      rw [isZero, Int.ceil_zero, ← isFloor]
      norm_num
  | false =>
    have isSame : signFactor false * ((d.mantissa : ℚ) / 10 ^ d.scale.toNat) = d.mantissa / 10 ^ d.scale.toNat := by
      norm_num [signFactor]
    rw [isSame, if_neg (not_lt.2 nonneg), isFloor]
    norm_num [signInt]

theorem ceil_div {n d : Nat} (positive : 0 < d) : ⌈(n : ℚ) / d⌉ = (n / d + (decide (n % d ≠ 0)).toNat : Nat) := by
  have isPositive : (0 : ℚ) < d := by exact_mod_cast positive
  have split : (n : ℚ) = (n / d : Nat) * d + (n % d : Nat) := by exact_mod_cast (Nat.div_add_mod' n d).symm
  have rest : ((n % d : Nat) : ℚ) < d := by exact_mod_cast Nat.mod_lt n positive
  rw [Int.ceil_eq_iff, lt_div_iff₀ isPositive, div_le_iff₀ isPositive]
  by_cases none_ : n % d = 0
  · rw [none_, Nat.cast_zero, add_zero] at split
    rw [decide_eq_false (not_not.2 none_), Bool.toNat_false, Nat.add_zero, Int.cast_natCast]
    constructor <;> linarith
  · have some_ : (1 : ℚ) ≤ (n % d : Nat) := by exact_mod_cast Nat.one_le_iff_ne_zero.2 none_
    rw [decide_eq_true none_, Bool.toNat_true, Int.cast_natCast, Nat.cast_add, Nat.cast_one]
    constructor <;> linarith

/-- The floor of a decimal: a negative one with a fraction is one further from zero. -/
theorem floor_value : ⌊d.value⌋ = signInt d.sign * (d.mantissa / 10 ^ d.scale.toNat +
      (d.sign && d.mantissa % 10 ^ d.scale.toNat ≠ 0).toNat : Nat) := by
  have isPower : (10 : ℚ) ^ d.scale.toNat = (10 ^ d.scale.toNat : Nat) := by push_cast; rfl
  rw [value_eq, isPower]
  cases d.sign with
  | true =>
    have isNeg : signFactor true * ((d.mantissa : ℚ) / (10 ^ d.scale.toNat : Nat)) =
        -(d.mantissa / (10 ^ d.scale.toNat : Nat)) := by
      norm_num [signFactor]
    rw [isNeg, Int.floor_neg, ceil_div (ten_pow_pos _), Bool.true_and]
    norm_num [signInt]
  | false =>
    have isSame : signFactor false * ((d.mantissa : ℚ) / (10 ^ d.scale.toNat : Nat)) =
        d.mantissa / (10 ^ d.scale.toNat : Nat) := by
      norm_num [signFactor]
    rw [isSame, Rat.floor_natCast_div_natCast, Bool.false_and, Bool.toNat_false, Nat.add_zero]
    norm_num [signInt]

theorem monoDecimalFloorAndTrunc_spec (floorFlag : Bool) :
    (monoDecimalFloorAndTrunc a.1 floorFlag).value = ((signInt a.1.sign * (a.1.mantissa / 10 ^ a.1.scale.toNat +
      (floorFlag && (a.1.sign && a.1.mantissa % 10 ^ a.1.scale.toNat ≠ 0)).toNat : Nat) : ℤ) : ℚ) := by
  have aLess := a.1.mantissa_lt
  unfold monoDecimalFloorAndTrunc
  by_cases none_ : a.1.scale.toNat = 0
  · simp only [if_pos none_]
    rw [value_eq, none_, Nat.pow_zero, Nat.div_one, Nat.mod_one, pow_zero, div_one, Int.cast_mul, cast_signInt,
      Int.cast_natCast]
    simp
  · obtain ⟨isQuotient, isRest⟩ := divideRest_spec a.1.scale.toNat a.1.scale.toNat a.1.to128 false (Nat.le_refl _)
    rw [to128_toNat] at isQuotient isRest
    rw [Bool.false_or] at isRest
    simp only [if_neg none_]
    generalize divideRest a.1.scale.toNat a.1.scale.toNat a.1.to128 false = loop at *
    have tenth : a.1.mantissa / 10 ^ a.1.scale.toNat ≤ a.1.mantissa / 10 :=
      Nat.div_le_div_left (Nat.le_self_pow none_ 10) (by decide)
    have isNumber : (if floorFlag ∧ loop.2 ∧ a.1.sign then roundUp128 loop.1 else loop.1).toNat =
        a.1.mantissa / 10 ^ a.1.scale.toNat +
          (floorFlag && (a.1.sign && a.1.mantissa % 10 ^ a.1.scale.toNat ≠ 0)).toNat := by
      rw [← isRest, ← isQuotient]
      cases floorFlag <;> cases a.1.sign <;> cases loop.2 <;>
        simp only [Bool.false_eq_true, false_and, and_false, and_self, if_false, if_true, Bool.and_false, Bool.false_and,
          Bool.and_self, Bool.toNat_false, Bool.toNat_true, Nat.add_zero]
      exact roundUp128_toNat (by omega)
    obtain ⟨r, isPacked, isSign, isScale, isMantissa⟩ := pack128toDecimal_fits a.1 a.1.sign (show 0 ≤ 28 by decide)
      (a := if floorFlag ∧ loop.2 ∧ a.1.sign then roundUp128 loop.1 else loop.1) (by
        have := Bool.toNat_le (floorFlag && (a.1.sign && a.1.mantissa % 10 ^ a.1.scale.toNat ≠ 0))
        omega)
    rw [Int.ofNat_zero] at isPacked
    rw [isPacked, value_eq, isSign, isScale, isMantissa, isNumber, pow_zero, div_one, Int.cast_mul, cast_signInt,
      Int.cast_natCast]

/-! ### Conversions to integers -/

/-- A conversion that returns an integer where it is in range, and else overflows and keeps the result. -/
structure ConvertsTo (low high : ℤ) (decode : BitVec 64 → ℤ) (convert : BitVec 64 → Int × BitVec 64) (k : ℤ) : Prop where
  inRange : low ≤ k → k < high → ∀ pResult, ∃ w, convert pResult = (decimalSuccess, w) ∧ decode w = k
  outOfRange : ¬ (low ≤ k ∧ k < high) → ∀ pResult, convert pResult = (decimalOverflow, pResult)

/-- A conversion that returns one integer returns another one only where both are out of range. -/
theorem ConvertsTo.iff {low high : ℤ} {decode : BitVec 64 → ℤ} {convert : BitVec 64 → Int × BitVec 64} {k l : ℤ}
    (is : ConvertsTo low high decode convert k) :
    ConvertsTo low high decode convert l ↔ l = k ∨ ¬ (low ≤ k ∧ k < high) ∧ ¬ (low ≤ l ∧ l < high) := by
  constructor
  · intro is'
    by_cases kRange : low ≤ k ∧ k < high
    · obtain ⟨w, run, isK⟩ := is.inRange kRange.1 kRange.2 0
      by_cases lRange : low ≤ l ∧ l < high
      · obtain ⟨w', run', isL⟩ := is'.inRange lRange.1 lRange.2 0
        rw [run] at run'
        cases run'
        exact Or.inl (isL.symm.trans isK)
      · have run' := is'.outOfRange lRange 0
        rw [run] at run'
        exact absurd (congrArg Prod.fst run') (show decimalSuccess ≠ decimalOverflow by decide)
    · by_cases lRange : low ≤ l ∧ l < high
      · obtain ⟨w', run', isL⟩ := is'.inRange lRange.1 lRange.2 0
        rw [is.outOfRange kRange 0] at run'
        exact absurd (congrArg Prod.fst run') (show decimalOverflow ≠ decimalSuccess by decide)
      · exact Or.inr ⟨kRange, lRange⟩
  · rintro (rfl | ⟨kRange, lRange⟩)
    · exact is
    · exact ⟨fun low_ high_ => absurd ⟨low_, high_⟩ lRange, fun _ => is.outOfRange kRange⟩

theorem integerPart128_spec : (integerPart128 a.1).toNat = roundDiv a.1.mantissa (10 ^ a.1.scale.toNat) := by
  unfold integerPart128
  split
  next => rw [div128DecadeFactor_spec _ (by rw [to128_toNat]; exact a.1.mantissa_lt), to128_toNat]
  next none_ => rw [to128_toNat, show a.1.scale.toNat = 0 by omega, Nat.pow_zero, roundDiv_one]

/-- The magnitude of the integer, with the sign of the decimal. -/
def roundedInt (d : DecimalRepr) : ℤ :=
  signInt d.sign * (roundDiv d.mantissa (10 ^ d.scale.toNat) : Nat)

theorem monoDecimal2UInt64_spec :
    ConvertsTo 0 (2 ^ 64) (fun w => w.toNat) (monoDecimal2UInt64 a.1) (roundedInt a.1) := by
  have isPart := integerPart128_spec a
  have zero : (0 : BitVec 64).toNat = 0 := rfl
  unfold roundedInt monoDecimal2UInt64
  rw [← isPart]
  generalize integerPart128 a.1 = c
  have whole : (c.toNat : ℤ) = c.lo.toNat + 2 ^ 64 * c.hi.toNat := by
    push_cast
    rfl
  simp only [ne_eq, BitVec.toNat_eq, zero, whole]
  cases a.1.sign with
  | true =>
    simp only [signInt, if_true, and_true]
    constructor
    · intro low high pResult
      rw [if_neg (by omega)]
      exact ⟨c.lo, rfl, by omega⟩
    · intro outside pResult
      rw [if_pos (by omega)]
  | false =>
    simp only [signInt, Bool.false_eq_true, if_false, and_false, or_false]
    constructor
    · intro low high pResult
      rw [if_neg (by omega)]
      exact ⟨c.lo, rfl, by omega⟩
    · intro outside pResult
      rw [if_pos (by omega)]

theorem highBit_iff (w : BitVec 64) : (w &&& 0x8000000000000000).toNat = 0 ↔ w.toNat < 2 ^ 63 := by
  have isBit : (0x8000000000000000 : BitVec 64) = BitVec.twoPow 64 63 := by decide
  have isHigh : w.getLsbD 63 = true ↔ 2 ^ 63 ≤ w.toNat := by
    rw [← decide_eq_true_iff (p := 2 ^ 63 ≤ w.toNat), ← BitVec.msb_eq_decide w]
    rfl
  rw [isBit, BitVec.and_twoPow]
  by_cases set_ : w.getLsbD 63 = true
  · rw [if_pos set_]
    exact iff_of_false (by decide) (Nat.not_lt.2 (isHigh.1 set_))
  · rw [if_neg set_]
    exact iff_of_true rfl (Nat.not_le.1 (isHigh.not.1 set_))

theorem negated_toInt {w : BitVec 64} (some_ : w.toNat ≠ 0) (le : w.toNat ≤ 2 ^ 63) :
    (~~~ (w - 1)).toInt = -(w.toNat : ℤ) := by
  have one : (1 : BitVec 64).toNat = 1 := rfl
  have isNat : (~~~ (w - 1)).toNat = 2 ^ 64 - w.toNat := by
    rw [BitVec.toNat_not, BitVec.toNat_sub, one]
    omega
  rw [BitVec.toInt_eq_toNat_cond, isNat, if_neg (by omega)]
  omega

theorem monoDecimal2Int64_spec : ConvertsTo (-2 ^ 63) (2 ^ 63) BitVec.toInt (monoDecimal2Int64 a.1) (roundedInt a.1) := by
  have isPart := integerPart128_spec a
  have zero : (0 : BitVec 64).toNat = 0 := rfl
  have high : (0x8000000000000000 : BitVec 64).toNat = 2 ^ 63 := by decide
  unfold roundedInt monoDecimal2Int64
  rw [← isPart]
  generalize integerPart128 a.1 = c
  have whole : (c.toNat : ℤ) = c.lo.toNat + 2 ^ 64 * c.hi.toNat := by
    push_cast
    rfl
  simp only [ne_eq, highBit_iff, gt_iff_lt, BitVec.lt_def, high, BitVec.toNat_eq, zero, whole]
  cases a.1.sign with
  | true =>
    simp only [signInt, if_true, true_and]
    constructor
    · intro low high_ pResult
      by_cases isZero : c.lo.toNat = 0
      · rw [if_neg (by omega), if_neg (not_not.2 isZero), if_neg (by omega)]
        exact ⟨c.lo, rfl, by rw [BitVec.toInt_eq_toNat_of_lt (by omega)]; omega⟩
      · rw [if_neg (by omega), if_pos isZero, if_neg (by omega)]
        exact ⟨_, rfl, by rw [negated_toInt isZero (by omega)]; omega⟩
    · intro outside pResult
      by_cases above : c.hi.toNat = 0
      · rw [if_neg (not_not.2 above), if_pos (by omega), if_pos (by omega)]
      · rw [if_pos above]
  | false =>
    simp only [signInt, Bool.false_eq_true, if_false, false_and]
    constructor
    · intro low high pResult
      rw [if_neg (by omega), if_neg (by omega)]
      exact ⟨c.lo, rfl, by rw [BitVec.toInt_eq_toNat_of_lt (by omega)]; omega⟩
    · intro outside pResult
      by_cases above : c.hi.toNat = 0
      · rw [if_neg (not_not.2 above), if_pos (by omega)]
      · rw [if_pos above]

/-! ### The result -/

/-- What the functions that remove digits owe to a decimal: the rounding to a number of places with ties to the even
digit, the floor, the truncation, and the integers without rounding. -/
structure RemovesDigits (a : DecimalRepr) (decimals : Nat) : Prop where
  round : RoundedToPlaces a.value decimals (monoDecimalRound a decimals).value
  floor : (monoDecimalFloorAndTrunc a true).value = ⌊a.value⌋
  trunc : (monoDecimalFloorAndTrunc a false).value = truncated a.value
  int64 : ConvertsTo (-2 ^ 63) (2 ^ 63) BitVec.toInt (monoDecimal2Int64 a) (truncated a.value)
  uint64 : ConvertsTo 0 (2 ^ 64) (fun w => w.toNat) (monoDecimal2UInt64 a) (truncated a.value)

/-- The truncation fits into neither integer. -/
def BeyondIntegers (x : ℚ) : Prop :=
  2 ^ 64 ≤ truncated x ∨ truncated x < -2 ^ 63

/-- Both conversions are right where nothing is rounded up, or where no integer is in range. -/
theorem conversions_iff : (ConvertsTo (-2 ^ 63) (2 ^ 63) BitVec.toInt (monoDecimal2Int64 a.1) (truncated a.1.value) ∧
      ConvertsTo 0 (2 ^ 64) (fun w => w.toNat) (monoDecimal2UInt64 a.1) (truncated a.1.value)) ↔
    2 * (a.1.mantissa % 10 ^ a.1.scale.toNat) < 10 ^ a.1.scale.toNat ∨ BeyondIntegers a.1.value := by
  have isRounded := roundDiv_eq (n := a.1.mantissa) (ten_pow_pos a.1.scale.toNat)
  have isTruncated := truncated_value a.1
  rw [(monoDecimal2Int64_spec a).iff, (monoDecimal2UInt64_spec a).iff, BeyondIntegers]
  unfold roundedInt
  rw [isTruncated, isRounded]
  unfold signInt roundsUp
  by_cases down : 2 * (a.1.mantissa % 10 ^ a.1.scale.toNat) < 10 ^ a.1.scale.toNat
  · rw [decide_eq_false (by omega), Bool.toNat_false, Nat.add_zero]
    exact iff_of_true ⟨Or.inl rfl, Or.inl rfl⟩ (Or.inl down)
  · rw [decide_eq_true (by omega), Bool.toNat_true]
    generalize a.1.mantissa / 10 ^ a.1.scale.toNat = quotient
    cases a.1.sign with
    | true =>
      rw [if_pos rfl, or_iff_right down]
      omega
    | false =>
      rw [if_neg Bool.false_ne_true, or_iff_right down]
      omega

/-- The functions do what they should exactly where no tie is above an even digit, and where the fraction is below a
half or no integer is in range. -/
theorem removesDigits_iff (a : ValidDecimal) (decimals : Fin 29) :
    RemovesDigits a.1 decimals ↔
      ¬ EvenTie a.1.mantissa (10 ^ (a.1.scale.toNat - decimals)) ∧
        (2 * (a.1.mantissa % 10 ^ a.1.scale.toNat) < 10 ^ a.1.scale.toNat ∨ BeyondIntegers a.1.value) := by
  have rounds := roundedToPlaces_iff a decimals (by omega)
  have converts := conversions_iff a
  have isFloor : (monoDecimalFloorAndTrunc a.1 true).value = ⌊a.1.value⌋ := by
    rw [monoDecimalFloorAndTrunc_spec, Bool.true_and, floor_value]
  have isTrunc : (monoDecimalFloorAndTrunc a.1 false).value = truncated a.1.value := by
    rw [monoDecimalFloorAndTrunc_spec, Bool.false_and, Bool.toNat_false, Nat.add_zero, truncated_value]
  rw [← rounds, ← converts]
  exact ⟨fun is => ⟨is.round, is.int64, is.uint64⟩, fun is => ⟨is.1, isFloor, isTrunc, is.2.1, is.2.2⟩⟩

/-- 2.5 is rounded to 3 and not to the even 2, and it is converted to 3 as well. -/
theorem removesDigits_tie :
    ¬ RemovesDigits (.of false 1 25) 0 ∧ monoDecimal2Int64 (.of false 1 25) 0 = (decimalSuccess, 3) :=
  ⟨fun is => (roundedToPlaces_iff ⟨.of false 1 25, show 1 ≤ 28 by decide⟩ 0 (by decide)).1 is.round (by decide),
    by decide⟩

end MonoRuntime.Decimal
