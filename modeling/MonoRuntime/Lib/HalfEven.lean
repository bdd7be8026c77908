/-
Module: MonoRuntime.Lib.HalfEven
Purpose: Rounding to the nearest integer with ties to the even one: as a relation between a rational and an integer,
  which has at most one solution, and as a division of natural numbers. Rounding a half up agrees with it except on
  the ties above an even quotient.
Trusted boundary: none
Main exports: NearestEven
-/
import MonoRuntime.Lib.HalfUp
import Mathlib.Tactic.Linarith
import Mathlib.Tactic.Positivity

namespace MonoRuntime.HalfEven

open HalfUp

/-! ### The relation -/

/-- The integer is nearest to the number, and even where two are. -/
structure NearestEven (x : ℚ) (k : ℤ) : Prop where
  near : |x - k| ≤ 1 / 2
  even : |x - k| = 1 / 2 → Even k

section NearestEven

variable {x : ℚ} {k l : ℤ}

theorem nearestEven_intCast (k : ℤ) : NearestEven k k :=
  ⟨by norm_num, by norm_num⟩

theorem NearestEven.neg (is : NearestEven x k) : NearestEven (-x) (-k) := by
  have same : |-x - ((-k : ℤ) : ℚ)| = |x - k| := by
    rw [Int.cast_neg, ← abs_neg]
    congr 1
    ring
  exact ⟨same ▸ is.near, fun tie => (is.even (same ▸ tie)).neg⟩

theorem nearestEven_sign_iff (negative : Bool) :
    NearestEven ((if negative then -1 else 1) * x) ((if negative then -1 else 1) * k) ↔ NearestEven x k := by
  cases negative with
  | true =>
    rw [if_pos rfl, if_pos rfl, neg_one_mul, neg_one_mul]
    refine ⟨fun is => ?_, NearestEven.neg⟩
    have back := is.neg
    rwa [neg_neg, neg_neg] at back
  | false => rw [if_neg Bool.false_ne_true, if_neg Bool.false_ne_true, one_mul, one_mul]

theorem NearestEven.unique (is : NearestEven x k) (is' : NearestEven x l) : k = l := by
  obtain ⟨low, high⟩ := abs_le.1 is.near
  obtain ⟨low', high'⟩ := abs_le.1 is'.near
  have upper : ((k - l : ℤ) : ℚ) ≤ 1 := by
    push_cast
    linarith
  have lower : (-1 : ℚ) ≤ ((k - l : ℤ) : ℚ) := by
    push_cast
    linarith
  have upper' : k - l ≤ 1 := by exact_mod_cast upper
  have lower' : -1 ≤ k - l := by exact_mod_cast lower
  -- Neighbours are both at the distance of a half, so that both are even.
  have apart : ∀ {i j : ℤ}, NearestEven x i → NearestEven x j → i ≠ j + 1 := fun {i j} isI isJ next => by
    obtain ⟨lowI, highI⟩ := abs_le.1 isI.near
    obtain ⟨lowJ, highJ⟩ := abs_le.1 isJ.near
    rw [next, Int.cast_add, Int.cast_one] at lowI
    have half : x - j = 1 / 2 := by linarith
    have half' : x - i = -(1 / 2) := by
      rw [next, Int.cast_add, Int.cast_one]
      linarith
    have evenJ := isJ.even (by rw [half]; norm_num)
    have evenI := isI.even (by rw [half']; norm_num)
    rw [next] at evenI
    exact Int.not_even_iff_odd.2 evenJ.add_one evenI
  have notAbove := apart is is'
  have notBelow := apart is' is
  omega

theorem abs_sub_le_of_near (near : |x - k| ≤ 1 / 2) (l : ℤ) : |x - k| ≤ |x - l| := by
  by_cases same : k = l
  · rw [same]
  · have apart : (1 : ℚ) ≤ |(k : ℚ) - l| := by exact_mod_cast Int.one_le_abs (sub_ne_zero.2 same)
    have triangle := abs_sub_le (k : ℚ) x l
    rw [abs_sub_comm (k : ℚ) x] at triangle
    linarith

theorem abs_sub_eq_of_tie (near : |x - k| ≤ 1 / 2) {l : ℤ} (tie : |x - k| = |x - l|) (other : l ≠ k) :
    |x - k| = 1 / 2 := by
  have apart : (1 : ℚ) ≤ |(k : ℚ) - l| := by exact_mod_cast Int.one_le_abs (sub_ne_zero.2 other.symm)
  have triangle := abs_sub_le (k : ℚ) x l
  rw [abs_sub_comm (k : ℚ) x] at triangle
  linarith

end NearestEven

/-! ### The division -/

section Division

variable {n d : Nat}

/-- The quotient, rounded to the nearest number; a half is rounded to the even one. -/
def roundEven (n d : Nat) : Nat :=
  if d < 2 * (n % d) ∨ d = 2 * (n % d) ∧ n / d % 2 = 1 then n / d + 1 else n / d

/-- The rest is exactly a half, and the quotient is even. -/
def EvenTie (n d : Nat) : Prop :=
  2 * (n % d) = d ∧ n / d % 2 = 0

instance (n d : Nat) : Decidable (EvenTie n d) :=
  inferInstanceAs (Decidable (_ ∧ _))

theorem div_sub_eq (positive : 0 < d) (k : ℤ) : (n : ℚ) / d - k = ((n : ℤ) - k * d : ℤ) / d := by
  have isPositive : (0 : ℚ) < d := by exact_mod_cast positive
  rw [eq_div_iff isPositive.ne', sub_mul, div_mul_cancel₀ _ isPositive.ne']
  push_cast
  ring

theorem abs_div_sub_le_iff (positive : 0 < d) (k : ℤ) : |(n : ℚ) / d - k| ≤ 1 / 2 ↔ 2 * |(n : ℤ) - k * d| ≤ d := by
  have isPositive : (0 : ℚ) < d := by exact_mod_cast positive
  rw [div_sub_eq positive, abs_div, abs_of_pos isPositive, div_le_div_iff₀ isPositive (by norm_num), ← Int.cast_abs]
  constructor
  · intro le
    have le' : |(n : ℤ) - k * d| * 2 ≤ 1 * (d : ℤ) := by exact_mod_cast le
    linarith
  · intro le
    have le' : |(n : ℤ) - k * d| * 2 ≤ 1 * (d : ℤ) := by linarith
    exact_mod_cast le'

theorem abs_div_sub_eq_iff (positive : 0 < d) (k : ℤ) : |(n : ℚ) / d - k| = 1 / 2 ↔ 2 * |(n : ℤ) - k * d| = d := by
  have isPositive : (0 : ℚ) < d := by exact_mod_cast positive
  rw [div_sub_eq positive, abs_div, abs_of_pos isPositive, div_eq_div_iff isPositive.ne' (by norm_num), ← Int.cast_abs]
  constructor
  · intro eq
    have eq' : |(n : ℤ) - k * d| * 2 = 1 * (d : ℤ) := by exact_mod_cast eq
    linarith
  · intro eq
    have eq' : |(n : ℤ) - k * d| * 2 = 1 * (d : ℤ) := by linarith
    exact_mod_cast eq'

/-- The floor and the rest of a quotient decide whether a number is nearest to it. -/
theorem nearestEven_div_iff (positive : 0 < d) (k : ℤ) :
    NearestEven (n / d) k ↔ 2 * |(n : ℤ) - k * d| ≤ d ∧ (2 * |(n : ℤ) - k * d| = d → Even k) := by
  rw [← abs_div_sub_le_iff positive, ← abs_div_sub_eq_iff positive]
  exact ⟨fun is => ⟨is.near, is.even⟩, fun is => ⟨is.1, is.2⟩⟩

theorem abs_sub_floor (n d : Nat) : |(n : ℤ) - ((n / d : Nat) : ℤ) * d| = (n % d : Nat) := by
  have split : (n : ℤ) - ((n / d : Nat) : ℤ) * d = (n % d : Nat) := by
    have whole : ((n / d * d + n % d : Nat) : ℤ) = n := by rw [Nat.div_add_mod']
    push_cast at whole ⊢
    linarith
  rw [split, Nat.abs_cast]

theorem abs_sub_next (positive : 0 < d) :
    |(n : ℤ) - ((n / d + 1 : Nat) : ℤ) * d| = (d : ℤ) - (n % d : Nat) := by
  have split : (n : ℤ) - ((n / d + 1 : Nat) : ℤ) * d = (n % d : Nat) - (d : ℤ) := by
    have whole : ((n / d * d + n % d : Nat) : ℤ) = n := by rw [Nat.div_add_mod']
    push_cast at whole ⊢
    linarith
  have rest := Nat.mod_lt n positive
  rw [split, abs_of_neg (by omega), neg_sub]

theorem nearestEven_roundEven (positive : 0 < d) : NearestEven ((n : ℚ) / d) (roundEven n d : Nat) := by
  rw [nearestEven_div_iff positive]
  unfold roundEven
  split
  next up =>
    rw [abs_sub_next positive, Int.even_coe_nat, Nat.even_iff]
    omega
  next down =>
    rw [abs_sub_floor, Int.even_coe_nat, Nat.even_iff]
    omega

/-- Rounding a half up is rounding to the even number except on the ties above an even quotient. -/
theorem roundDiv_eq_roundEven_iff (positive : 0 < d) : roundDiv n d = roundEven n d ↔ ¬ EvenTie n d := by
  rw [roundDiv_eq positive]
  unfold roundEven EvenTie roundsUp
  by_cases half : d ≤ 2 * (n % d)
  · rw [decide_eq_true half, Bool.toNat_true]
    split <;> omega
  · rw [decide_eq_false half, Bool.toNat_false]
    split <;> omega

/-- The quotient that is rounded half up is the nearest, with ties to the even one, exactly where no tie is above an
even quotient. -/
theorem nearestEven_roundDiv_iff (positive : 0 < d) : NearestEven ((n : ℚ) / d) (roundDiv n d : Nat) ↔ ¬ EvenTie n d := by
  rw [← roundDiv_eq_roundEven_iff positive]
  constructor
  · intro is
    exact_mod_cast is.unique (nearestEven_roundEven positive)
  · intro same
    rw [same]
    exact nearestEven_roundEven positive

end Division

end MonoRuntime.HalfEven
