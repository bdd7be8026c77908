/-
Module: MonoRuntime.Lib.BinaryFloat
Purpose: Binary floating-point numbers by their fields, their values, and the number that is nearest to a rational with
  ties to the even mantissa. A magnitude that is rounded to an integer in units of its binade gives the nearest number;
  rounding a half up does so except on the ties above an even mantissa.
Trusted boundary: none
Main exports: Format
-/
import MonoRuntime.Lib.HalfEven
import Mathlib.Algebra.Order.Field.Power
import Mathlib.Tactic.FieldSimp

namespace MonoRuntime.BinaryFloat

open HalfEven

/-! ### Numbers -/

/-- The parameters of a binary format: the stored bits of the significand, the bias, and the exponent field that is
reserved for what is not finite. -/
structure Format where
  fractionBits : Nat
  bias : Nat
  reserved : Nat

/-- The fields of a number. -/
structure Fields where
  sign : Bool
  exponent : Nat
  mantissa : Nat
deriving DecidableEq, Repr

namespace Format

variable (F : Format)

/-- The fields of a finite number. -/
def Finite (d : Fields) : Prop :=
  d.exponent < F.reserved ∧ d.mantissa < 2 ^ F.fractionBits

/-- The exponent field zero is without the hidden bit. -/
def significand (d : Fields) : Nat :=
  if d.exponent = 0 then d.mantissa else 2 ^ F.fractionBits + d.mantissa

/-- The unit of the last place for an exponent field. -/
def unit (exponent : Nat) : ℚ :=
  2 ^ ((max exponent 1 : Nat) - (F.bias : ℤ) - F.fractionBits)

/-- A sign as a factor. -/
def signOf (sign : Bool) : ℚ :=
  if sign then -1 else 1

def value (d : Fields) : ℚ :=
  signOf d.sign * (F.significand d * F.unit d.exponent)

end Format

/-- The number is nearest to a rational: no finite number is nearer, and where another one is as near the mantissa is
even. -/
structure Nearest (F : Format) (x : ℚ) (d : Fields) : Prop where
  finite : F.Finite d
  least : ∀ g, F.Finite g → |x - F.value d| ≤ |x - F.value g|
  even : ∀ g, F.Finite g → |x - F.value d| = |x - F.value g| → F.value g ≠ F.value d → Even d.mantissa

section Values

variable {F : Format} {d : Fields} {exponent : Nat}

theorem unit_pos (F : Format) (exponent : Nat) : 0 < F.unit exponent := by
  unfold Format.unit
  positivity

theorem abs_signOf (sign : Bool) : |Format.signOf sign| = 1 := by
  cases sign <;> norm_num [Format.signOf]

theorem abs_value : |F.value d| = F.significand d * F.unit d.exponent := by
  have nonneg : 0 ≤ (F.significand d : ℚ) * F.unit d.exponent := by
    have := unit_pos F d.exponent
    positivity
  rw [Format.value, abs_mul, abs_signOf, one_mul, abs_of_nonneg nonneg]

theorem significand_lt (finite : F.Finite d) : F.significand d < 2 ^ (F.fractionBits + 1) := by
  have fits := finite.2
  unfold Format.significand
  rw [Nat.pow_succ]
  split <;> omega

theorem unit_mul {low high : Nat} (le : max low 1 ≤ max high 1) :
    F.unit high = (2 ^ (max high 1 - max low 1) : Nat) * F.unit low := by
  unfold Format.unit
  push_cast
  rw [← zpow_natCast, ← zpow_add₀ (by norm_num)]
  congr 1
  omega

theorem multiple_of_large (finite : F.Finite d) (large : 2 ^ F.fractionBits * F.unit exponent ≤ |F.value d|) :
    ∃ j : ℤ, F.value d = j * F.unit exponent := by
  have le : max exponent 1 ≤ max d.exponent 1 := by
    by_contra less
    have twice : 2 * F.unit d.exponent ≤ F.unit exponent := by
      rw [unit_mul (F := F) (show max d.exponent 1 ≤ max exponent 1 by omega)]
      have wide : 2 ^ 1 ≤ 2 ^ (max exponent 1 - max d.exponent 1) := Nat.pow_le_pow_right (by decide) (by omega)
      have wide' : (2 : ℚ) ≤ (2 ^ (max exponent 1 - max d.exponent 1) : Nat) := by exact_mod_cast wide
      exact mul_le_mul_of_nonneg_right wide' (unit_pos F d.exponent).le
    have small : (F.significand d : ℚ) + 1 ≤ 2 ^ (F.fractionBits + 1) := by exact_mod_cast significand_lt finite
    have below : (F.significand d : ℚ) * F.unit d.exponent < 2 ^ (F.fractionBits + 1) * F.unit d.exponent :=
      mul_lt_mul_of_pos_right (by linarith) (unit_pos F d.exponent)
    rw [abs_value] at large
    have above : 2 ^ F.fractionBits * (2 * F.unit d.exponent) ≤ 2 ^ F.fractionBits * F.unit exponent :=
      mul_le_mul_of_nonneg_left twice (by positivity)
    rw [pow_succ] at below
    linarith
  refine ⟨(if d.sign then -1 else 1) * (F.significand d * 2 ^ (max d.exponent 1 - max exponent 1) : Nat), ?_⟩
  rw [Format.value, unit_mul (F := F) le, Format.signOf]
  push_cast
  split <;> ring

end Values

/-! ### The nearest number -/

section Nearest

variable {F : Format} {x : ℚ} {d : Fields} {exponent : Nat}

/-- A number that is rounded to an integer in the units of its binade is nearest. -/
theorem nearest_of_units {k : ℤ} (finite : F.Finite d) (isValue : F.value d = k * F.unit exponent)
    (large : 2 ^ F.fractionBits ≤ |x / F.unit exponent|) (near : NearestEven (x / F.unit exponent) k)
    (parity : Even k → Even d.mantissa) : Nearest F x d := by
  have isUnit := unit_pos F exponent
  have inUnits : ∀ j : ℤ, |x - j * F.unit exponent| = |x / F.unit exponent - j| * F.unit exponent := fun j => by
    rw [← abs_of_pos isUnit, ← abs_mul, abs_of_pos isUnit, sub_mul, div_mul_cancel₀ _ isUnit.ne']
  -- A number below the binade is further away than the begin of the binade.
  have far : ∀ g, ¬ 2 ^ F.fractionBits * F.unit exponent ≤ |F.value g| → |x - F.value d| < |x - F.value g| := by
    intro g below
    have isMagnitude : |x| = |x / F.unit exponent| * F.unit exponent := by
      rw [abs_div, abs_of_pos isUnit, div_mul_cancel₀ _ isUnit.ne']
    obtain ⟨j, isJ⟩ : ∃ j : ℤ, |x / F.unit exponent - j| = |x / F.unit exponent| - 2 ^ F.fractionBits := by
      rcases abs_cases (x / F.unit exponent) with ⟨same, _⟩ | ⟨same, _⟩
      · refine ⟨2 ^ F.fractionBits, ?_⟩
        push_cast
        rw [same, abs_of_nonneg (by linarith)]
      · refine ⟨-2 ^ F.fractionBits, ?_⟩
        push_cast
        rw [same, abs_of_nonpos (by linarith)]
        ring
    have nearer := mul_le_mul_of_nonneg_right (abs_sub_le_of_near near.near j) isUnit.le
    rw [isJ, sub_mul, ← isMagnitude, ← inUnits, ← isValue] at nearer
    have triangle := abs_sub_abs_le_abs_sub x (F.value g)
    linarith
  refine ⟨finite, fun g finite' => ?_, fun g finite' tie other => ?_⟩
  · by_cases above : 2 ^ F.fractionBits * F.unit exponent ≤ |F.value g|
    · obtain ⟨j, isJ⟩ := multiple_of_large finite' above
      rw [isValue, isJ, inUnits, inUnits]
      exact mul_le_mul_of_nonneg_right (abs_sub_le_of_near near.near j) isUnit.le
    · exact (far g above).le
  · by_cases above : 2 ^ F.fractionBits * F.unit exponent ≤ |F.value g|
    · obtain ⟨j, isJ⟩ := multiple_of_large finite' above
      rw [isValue, isJ, inUnits, inUnits] at tie
      have otherUnits : j ≠ k := fun same => other (by rw [isJ, isValue, same])
      exact parity (near.even (abs_sub_eq_of_tie near.near (mul_right_cancel₀ isUnit.ne' tie) otherUnits))
    · exact absurd tie (far g above).ne

/-- The number is exactly between two neighbours of which the lower one has the even mantissa. -/
def EvenMidpoint (F : Format) (x : ℚ) : Prop :=
  ∃ q exponent : Nat, Even q ∧ 2 ^ F.fractionBits ≤ q ∧ q < 2 ^ (F.fractionBits + 1) ∧ 1 ≤ exponent ∧
    |x| = (q + 1 / 2) * F.unit exponent

theorem binade_unique {exponent' : Nat} (positive : 1 ≤ exponent) (positive' : 1 ≤ exponent')
    (low : 2 ^ F.fractionBits ≤ |x| / F.unit exponent) (high : |x| / F.unit exponent < 2 ^ (F.fractionBits + 1))
    (low' : 2 ^ F.fractionBits ≤ |x| / F.unit exponent') (high' : |x| / F.unit exponent' < 2 ^ (F.fractionBits + 1)) :
    exponent = exponent' := by
  have below : ∀ {i j : Nat}, 1 ≤ i → 1 ≤ j → 2 ^ F.fractionBits ≤ |x| / F.unit j →
      |x| / F.unit i < 2 ^ (F.fractionBits + 1) → ¬ i < j := fun {i j} iPos jPos lowJ highI less => by
    have wide : 2 ^ 1 ≤ 2 ^ (max j 1 - max i 1) := Nat.pow_le_pow_right (by decide) (by omega)
    have wide' : (2 : ℚ) ≤ (2 ^ (max j 1 - max i 1) : Nat) := by exact_mod_cast wide
    have isUnit := unit_pos F i
    have twice : 2 * F.unit i ≤ F.unit j := by
      rw [unit_mul (F := F) (show max i 1 ≤ max j 1 by omega)]
      exact mul_le_mul_of_nonneg_right wide' isUnit.le
    rw [le_div_iff₀ (unit_pos F j)] at lowJ
    rw [div_lt_iff₀ isUnit, pow_succ] at highI
    have above : 2 ^ F.fractionBits * (2 * F.unit i) ≤ 2 ^ F.fractionBits * F.unit j :=
      mul_le_mul_of_nonneg_left twice (by positivity)
    linarith
  have notLess := below positive positive' low' high
  have notMore := below positive' positive low high'
  omega

/-- The fields for an integer of units of a binade; the integer behind the binade is the begin of the next one. -/
def Format.rounded (F : Format) (sign : Bool) (exponent k : Nat) : Fields :=
  if k = 2 ^ (F.fractionBits + 1) then { sign := sign, exponent := exponent + 1, mantissa := 0 }
  else { sign := sign, exponent := exponent, mantissa := k - 2 ^ F.fractionBits }

theorem value_rounded (sign : Bool) {k : Nat} (positive : 1 ≤ exponent) (low : 2 ^ F.fractionBits ≤ k) :
    F.value (F.rounded sign exponent k) = (((if sign then -1 else 1) * (k : ℤ) : ℤ) : ℚ) * F.unit exponent := by
  have isSign : (((if sign then -1 else 1) * (k : ℤ) : ℤ) : ℚ) = Format.signOf sign * k := by
    cases sign <;> norm_num [Format.signOf]
  rw [isSign, mul_assoc]
  unfold Format.rounded Format.value
  split
  next carry =>
    have next : F.unit (exponent + 1) = 2 * F.unit exponent := by
      rw [unit_mul (F := F) (show max exponent 1 ≤ max (exponent + 1) 1 by omega),
        show max (exponent + 1) 1 - max exponent 1 = 1 by omega]
      norm_num
    rw [next, carry]
    simp only [Format.significand, Nat.succ_ne_zero, if_false, Nat.add_zero]
    push_cast
    ring
  next =>
    have isSignificand :
        F.significand { sign := sign, exponent := exponent, mantissa := k - 2 ^ F.fractionBits } = k := by
      rw [Format.significand, if_neg (Nat.one_le_iff_ne_zero.1 positive)]
      exact Nat.add_sub_cancel' low
    rw [isSignificand]

theorem finite_rounded (sign : Bool) {k : Nat} (inRange : exponent + 1 < F.reserved) (low : 2 ^ F.fractionBits ≤ k)
    (high : k ≤ 2 ^ (F.fractionBits + 1)) : F.Finite (F.rounded sign exponent k) := by
  rw [Nat.pow_succ] at high
  unfold Format.rounded
  rw [Nat.pow_succ]
  split
  next => exact ⟨inRange, Nat.two_pow_pos _⟩
  next => exact ⟨by dsimp only; omega, by dsimp only; omega⟩

/-- A magnitude that is rounded half up in its binade gives the nearest number except on the ties above an even one. -/
theorem nearest_iff_of_halfUp {sign : Bool} {k : Nat} (bits : F.fractionBits ≠ 0)
    (isX : x = (if sign then -1 else 1) * |x|) (positive : 1 ≤ exponent) (inRange : exponent + 1 < F.reserved)
    (low : 2 ^ F.fractionBits ≤ |x| / F.unit exponent) (high : |x| / F.unit exponent < 2 ^ (F.fractionBits + 1))
    (notBelow : (k : ℚ) - 1 / 2 ≤ |x| / F.unit exponent) (notAbove : |x| / F.unit exponent < k + 1 / 2) :
    Nearest F x (F.rounded sign exponent k) ↔ ¬ EvenMidpoint F x := by
  have isUnit := unit_pos F exponent
  have kLow : 2 ^ F.fractionBits ≤ k := by
    have strict : ((2 ^ F.fractionBits : Nat) : ℚ) < (k + 1 : Nat) := by
      push_cast
      linarith
    have := Nat.cast_lt.1 strict
    omega
  have kHigh : k ≤ 2 ^ (F.fractionBits + 1) := by
    have strict : (k : ℚ) < (2 ^ (F.fractionBits + 1) + 1 : Nat) := by
      push_cast
      linarith
    have := Nat.cast_lt.1 strict
    omega
  have even : Even (2 ^ F.fractionBits) := (Nat.even_pow.2 ⟨even_two, bits⟩)
  have finite := finite_rounded (F := F) sign inRange kLow kHigh
  have parity : Even k → Even (F.rounded sign exponent k).mantissa := fun isEven => by
    unfold Format.rounded
    split
    next => exact Even.zero
    next => exact (Nat.even_sub kLow).2 (iff_of_true isEven even)
  have isValue := value_rounded (F := F) sign positive kLow
  have inUnits : x / F.unit exponent = (if sign then -1 else 1) * (|x| / F.unit exponent) := by
    rw [← mul_div_assoc, ← isX]
  constructor
  · rintro is ⟨q, exponent', qEven, qLow, qHigh, positive', isMidpoint⟩
    have qLow' : (2 ^ F.fractionBits : ℚ) ≤ q := by exact_mod_cast qLow
    have qHigh' : (q : ℚ) + 1 ≤ 2 ^ (F.fractionBits + 1) := by exact_mod_cast qHigh
    have inUnits' : |x| / F.unit exponent' = q + 1 / 2 := by
      rw [isMidpoint, mul_div_cancel_right₀ _ (unit_pos F exponent').ne']
    have sameBinade := binade_unique positive positive' low high (by linarith) (by linarith)
    rw [← sameBinade] at inUnits'
    rw [inUnits'] at notBelow notAbove
    have isNext : k = q + 1 := by
      have upper : (k : ℚ) ≤ (q + 1 : Nat) := by
        push_cast
        linarith
      have lower : (q : ℚ) < k := by linarith
      have := Nat.cast_le.1 upper
      have := Nat.cast_lt.1 lower
      omega
    have notCarry : k ≠ 2 ^ (F.fractionBits + 1) := by
      rw [Nat.even_iff] at qEven
      omega
    -- The lower neighbour is as near.
    have isRounded : F.rounded sign exponent k =
        { sign := sign, exponent := exponent, mantissa := k - 2 ^ F.fractionBits } := if_neg notCarry
    have lower := value_rounded (F := F) sign positive qLow
    have distance : ∀ j : Nat, |x - (((if sign then -1 else 1) * (j : ℤ) : ℤ) : ℚ) * F.unit exponent| =
        |(q + 1 / 2 : ℚ) - j| * F.unit exponent := fun j => by
      have factored : x - (((if sign then -1 else 1) * (j : ℤ) : ℤ) : ℚ) * F.unit exponent =
          Format.signOf sign * (((q + 1 / 2 : ℚ) - j) * F.unit exponent) := by
        rw [isX, isMidpoint, ← sameBinade, Format.signOf]
        push_cast
        ring
      rw [factored, abs_mul, abs_signOf, one_mul, abs_mul, abs_of_pos isUnit]
    have evenUpper := is.even (F.rounded sign exponent q) (finite_rounded sign inRange qLow qHigh.le) ?_ ?_
    · rw [isRounded, Nat.even_iff] at evenUpper
      rw [Nat.even_iff] at qEven even
      dsimp only at evenUpper
      omega
    · rw [isValue, lower, distance, distance, isNext]
      push_cast
      norm_num
    · intro same
      rw [isValue, lower, isNext] at same
      have sameUnits := mul_right_cancel₀ isUnit.ne' same
      have sameInt := Int.cast_inj.1 sameUnits
      cases sign with
      | true =>
        rw [if_pos rfl] at sameInt
        omega
      | false =>
        rw [if_neg Bool.false_ne_true] at sameInt
        omega
  · intro notMidpoint
    have near : NearestEven (|x| / F.unit exponent) k := by
      refine ⟨?_, fun tie => ?_⟩
      · rw [abs_le]
        push_cast
        constructor <;> linarith
      · by_contra odd
        rw [Int.even_coe_nat] at odd
        have isHalf : |x| / F.unit exponent = k - 1 / 2 := by
          rw [Int.cast_natCast] at tie
          rcases abs_eq (by norm_num : (0 : ℚ) ≤ 1 / 2) |>.1 tie with above | below <;> linarith
        have notFirst : k ≠ 2 ^ F.fractionBits := fun first => odd (first ▸ even)
        have previous : ((k - 1 : Nat) : ℚ) = k - 1 := by
          rw [Nat.cast_sub (by have := Nat.two_pow_pos F.fractionBits; omega), Nat.cast_one]
        refine notMidpoint ⟨k - 1, exponent, ?_, by omega, by omega, positive, ?_⟩
        · rw [Nat.even_sub (by omega)]
          exact iff_of_false odd Nat.not_even_one
        · rw [previous, ← div_eq_iff isUnit.ne', isHalf]
          ring
    refine nearest_of_units finite isValue ?_ ?_ (fun isEven => parity ?_)
    · rw [abs_div, abs_of_pos isUnit]
      exact low
    · rw [inUnits]
      exact (nearestEven_sign_iff sign).2 near
    · cases sign with
      | true => exact (Int.even_coe_nat k).1 (even_neg.1 (by rwa [if_pos rfl, neg_one_mul] at isEven))
      | false => exact (Int.even_coe_nat k).1 (by rwa [if_neg Bool.false_ne_true, one_mul] at isEven)

end Nearest

end MonoRuntime.BinaryFloat
