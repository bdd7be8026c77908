/-
Module: MonoRuntime.Proofs.DecimalRounding
Purpose: What the result of an operation on decimals owes to the exact number, and that a number which loses the
  fewest digits in the rounding pays it: it is half a unit of its last place away, and exact where a decimal is.
Trusted boundary: none
Main exports: Representable
-/
import MonoRuntime.Proofs.Decimal
import Mathlib.Algebra.Order.AbsoluteValue.Basic
import Mathlib.Tactic.FieldSimp

namespace MonoRuntime.Decimal

open HalfUp

/-! ### Exact and rounded numbers -/

/-- A decimal has the value. -/
def Representable (x : ℚ) : Prop :=
  ∃ d : DecimalRepr, Valid d ∧ d.value = x

/-- The decimal with a sign, a scale and a mantissa. -/
def DecimalRepr.of (sign : Bool) (scale mantissa : Nat) : DecimalRepr :=
  { sign := sign, scale := BitVec.ofNat 8 scale, hi32 := BitVec.ofNat 32 (mantissa / 2 ^ 64),
    mid32 := BitVec.ofNat 32 (mantissa / 2 ^ 32), lo32 := BitVec.ofNat 32 mantissa }

/-- Half a unit of the last place. -/
def DecimalRepr.halfUnit (d : DecimalRepr) : ℚ :=
  1 / 2 / 10 ^ d.scale.toNat

/-- The least number that does not round to 96 bits. -/
def overflowBound : ℚ :=
  2 ^ 96 - 1 / 2

/-- The decimal is the number, rounded: it is at most half a unit of its last place away, and exact where a decimal
can be. -/
structure Rounded (x : ℚ) (r : DecimalRepr) : Prop where
  near : |r.value - x| ≤ r.halfUnit
  exact : Representable x → r.value = x

section Values

variable {n k total : Nat}

/-- The sign of a decimal as a factor. -/
def signFactor (sign : Bool) : ℚ :=
  if sign then -1 else 1

theorem abs_signFactor (sign : Bool) : |signFactor sign| = 1 := by
  cases sign with
  | true => exact (abs_neg 1).trans abs_one
  | false => exact abs_one

theorem value_eq (d : DecimalRepr) : d.value = signFactor d.sign * (d.mantissa / 10 ^ d.scale.toNat) :=
  rfl

theorem abs_signed (sign : Bool) : |signFactor sign * ((n : ℚ) / 10 ^ k)| = n / 10 ^ k := by
  rw [abs_mul, abs_signFactor, one_mul]
  exact abs_of_nonneg (by positivity)

theorem div_pow_sub (x : ℚ) (le : k ≤ total) : x / 10 ^ (total - k) = x * 10 ^ k / 10 ^ total := by
  have split : (10 : ℚ) ^ total = 10 ^ (total - k) * 10 ^ k := by
    rw [← pow_add, Nat.sub_add_cancel le]
  rw [split, mul_div_mul_right _ _ (by positivity)]

theorem roundDiv_value_near (le : k ≤ total) :
    |(roundDiv n (10 ^ k) : ℚ) / 10 ^ (total - k) - n / 10 ^ total| ≤ 1 / 2 / 10 ^ (total - k) := by
  obtain ⟨low, high⟩ := @roundDiv_near n (10 ^ k) (Nat.pow_pos (by decide))
  have low' : (2 : ℚ) * (roundDiv n (10 ^ k) * 10 ^ k) ≤ 2 * n + 10 ^ k := by exact_mod_cast low
  have high' : (2 : ℚ) * n < 2 * (roundDiv n (10 ^ k) * 10 ^ k) + 10 ^ k := by exact_mod_cast high
  rw [div_pow_sub _ le, div_pow_sub _ le, ← sub_div, abs_div, abs_of_pos (show (0 : ℚ) < 10 ^ total by positivity)]
  apply div_le_div_of_nonneg_right _ (by positivity)
  rw [abs_le]
  constructor
  · linarith
  · linarith

/-- Where a number is below the middle, the upper result is more than half a unit away. -/
theorem next_value_far (le : k ≤ total) (below : 2 * (n % 10 ^ k) < 10 ^ k) :
    1 / 2 / 10 ^ (total - k) < |((n / 10 ^ k + 1 : Nat) : ℚ) / 10 ^ (total - k) - n / 10 ^ total| := by
  have whole : (10 : ℚ) ^ k * (n / 10 ^ k : Nat) + (n % 10 ^ k : Nat) = n := by exact_mod_cast Nat.div_add_mod n (10 ^ k)
  have below' : (2 : ℚ) * (n % 10 ^ k : Nat) < 10 ^ k := by exact_mod_cast below
  rw [div_pow_sub _ le, div_pow_sub _ le, ← sub_div, Nat.cast_add, Nat.cast_one]
  apply lt_of_lt_of_le _ (le_abs_self _)
  apply div_lt_div_of_pos_right _ (by positivity)
  linarith

theorem roundDiv_value_exact (le : k ≤ total) (divides : 10 ^ k ∣ n) :
    (roundDiv n (10 ^ k) : ℚ) / 10 ^ (total - k) = n / 10 ^ total := by
  have whole : ((n / 10 ^ k : Nat) : ℚ) * 10 ^ k = n := by exact_mod_cast Nat.div_mul_cancel divides
  rw [roundDiv_of_dvd (Nat.pow_pos (by decide)) divides, div_pow_sub _ le, whole]

theorem value_of (sign : Bool) {scale mantissa : Nat} (inRange : scale < 2 ^ 8) (fits : mantissa < 2 ^ 96) :
    (DecimalRepr.of sign scale mantissa).value = signFactor sign * (mantissa / 10 ^ scale) := by
  have isScale : (DecimalRepr.of sign scale mantissa).scale.toNat = scale := by
    unfold DecimalRepr.of
    rw [BitVec.toNat_ofNat, Nat.mod_eq_of_lt inRange]
  have isMantissa : (DecimalRepr.of sign scale mantissa).mantissa = mantissa := by
    unfold DecimalRepr.of DecimalRepr.mantissa
    simp only [BitVec.toNat_ofNat]
    omega
  rw [value_eq, isScale, isMantissa]
  rfl

/-- The numbers that do not round to 96 bits without any digit behind the point. -/
theorem le_roundDiv_iff_value : 2 ^ 96 ≤ roundDiv n (10 ^ total) ↔ overflowBound ≤ (n : ℚ) / 10 ^ total := by
  rw [le_roundDiv_iff (Nat.pow_pos (by decide)), overflowBound, le_div_iff₀ (by positivity)]
  constructor
  · intro le
    have le' : (2 : ℚ) ^ 96 * (2 * 10 ^ total) ≤ 2 * n + 10 ^ total := by exact_mod_cast le
    linarith
  · intro le
    have le' : (2 : ℚ) ^ 96 * (2 * 10 ^ total) ≤ 2 * n + 10 ^ total := by linarith
    exact_mod_cast le'

/-- A number that a decimal can be has zeros behind the places of the decimal. -/
theorem Representable.dvd {sign : Bool} (is : Representable (signFactor sign * (n / 10 ^ total))) :
    ∃ j, total - 28 ≤ j ∧ j ≤ total ∧ 10 ^ j ∣ n ∧ n / 10 ^ j < 2 ^ 96 := by
  obtain ⟨d, valid, isValue⟩ := is
  unfold Valid decimalMaxScale at valid
  have same : (d.mantissa : ℚ) / 10 ^ d.scale.toNat = n / 10 ^ total := by
    rw [← abs_signed d.sign, ← value_eq, isValue, abs_signed]
  rw [div_eq_div_iff (by positivity) (by positivity)] at same
  have same : d.mantissa * 10 ^ total = n * 10 ^ d.scale.toNat := by exact_mod_cast same
  have fits := d.mantissa_lt
  obtain le | more := Nat.le_total d.scale.toNat total
  · refine ⟨total - d.scale.toNat, by omega, Nat.sub_le _ _, ?_⟩
    have split : 10 ^ total = 10 ^ (total - d.scale.toNat) * 10 ^ d.scale.toNat := by
      rw [← Nat.pow_add, Nat.sub_add_cancel le]
    rw [split, ← Nat.mul_assoc] at same
    have is : n = d.mantissa * 10 ^ (total - d.scale.toNat) := (Nat.eq_of_mul_eq_mul_right (ten_pow_pos _) same).symm
    rw [is, Nat.mul_div_cancel _ (ten_pow_pos _)]
    exact ⟨Nat.dvd_mul_left _ _, fits⟩
  · refine ⟨0, by omega, Nat.zero_le _, one_dvd n, ?_⟩
    have split : 10 ^ d.scale.toNat = 10 ^ (d.scale.toNat - total) * 10 ^ total := by
      rw [← Nat.pow_add, Nat.sub_add_cancel more]
    rw [split, ← Nat.mul_assoc] at same
    have is : d.mantissa = n * 10 ^ (d.scale.toNat - total) := Nat.eq_of_mul_eq_mul_right (ten_pow_pos _) same
    have le := Nat.le_mul_of_pos_right n (ten_pow_pos (d.scale.toNat - total))
    omega

theorem Representable.lt {x : ℚ} (is : Representable x) : |x| < overflowBound := by
  obtain ⟨d, _, rfl⟩ := is
  have fits : (d.mantissa : ℚ) + 1 ≤ 2 ^ 96 := by exact_mod_cast d.mantissa_lt
  rw [value_eq, abs_signed, overflowBound]
  have le : (d.mantissa : ℚ) / 10 ^ d.scale.toNat ≤ d.mantissa :=
    div_le_self (Nat.cast_nonneg _) (one_le_pow₀ (by norm_num))
  linarith

theorem Rounded.of_fewest {r : DecimalRepr} (fewest : Fewest 10 (2 ^ 96) n (total - 28) k) (le : k ≤ total)
    (scale : r.scale.toNat = total - k) (mantissa : r.mantissa = roundDiv n (10 ^ k)) :
    Rounded (signFactor r.sign * (n / 10 ^ total)) r := by
  constructor
  · rw [value_eq, ← mul_sub, abs_mul, abs_signFactor, one_mul, DecimalRepr.halfUnit, mantissa, scale]
    exact roundDiv_value_near le
  · intro is
    obtain ⟨j, least, _, divides, below⟩ := is.dvd
    have divides := fewest.dvd (by decide) least divides below
    rw [value_eq, mantissa, scale, roundDiv_value_exact le divides]

end Values

end MonoRuntime.Decimal
