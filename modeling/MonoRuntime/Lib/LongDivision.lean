/-
Module: MonoRuntime.Lib.LongDivision
Purpose: Long division in a base whose digits are estimated from the leading part of the divisor. Where this part is at
  least half of the base, an estimate is never too low and at most two too high.
Trusted boundary: none
Main exports: estimate
-/
import Mathlib.Tactic.Linarith
import Mathlib.Tactic.Ring

namespace MonoRuntime.LongDivision

/-- The estimate of a digit from the leading parts of the dividend and of the divisor. -/
def estimate (base high lead : Nat) : Nat :=
  if base * lead ≤ high then base - 1 else high / lead

variable {base high lead unit dividend divisor : Nat}

theorem estimate_lt (positive : 0 < base) : estimate base high lead < base := by
  unfold estimate
  split
  next => omega
  next below => exact Nat.div_lt_of_lt_mul (by rw [Nat.mul_comm]; omega)

/-- The digit that is estimated does not exceed the quotient of the leading parts. -/
theorem estimate_mul_le : estimate base high lead * lead ≤ high := by
  unfold estimate
  split
  next above => exact (Nat.mul_le_mul_right lead (Nat.sub_le base 1)).trans above
  next => exact Nat.div_mul_le_self high lead

/-- The leading part of a number: the number in units, rounded down. -/
structure IsLead (lead unit n : Nat) : Prop where
  low : lead * unit ≤ n
  high : n < (lead + 1) * unit

theorem IsLead.unit_pos {n : Nat} (is : IsLead lead unit n) : 0 < unit := by
  by_contra none_
  have above := is.high
  have isZero : unit = 0 := by omega
  rw [isZero, Nat.mul_zero] at above
  omega

theorem le_estimate (some_ : 0 < lead) (isLead : IsLead lead unit divisor) (isHigh : IsLead high unit dividend)
    (isDigit : dividend < base * divisor) : dividend / divisor ≤ estimate base high lead := by
  unfold estimate
  split
  next =>
    have digit : dividend / divisor < base := Nat.div_lt_of_lt_mul (by rwa [Nat.mul_comm])
    omega
  next =>
    apply (Nat.le_div_iff_mul_le some_).2
    have product : dividend / divisor * lead * unit < (high + 1) * unit :=
      calc dividend / divisor * lead * unit = dividend / divisor * (lead * unit) := Nat.mul_assoc _ _ _
        _ ≤ dividend / divisor * divisor := Nat.mul_le_mul_left _ isLead.low
        _ ≤ dividend := Nat.div_mul_le_self dividend divisor
        _ < (high + 1) * unit := isHigh.high
    exact Nat.lt_succ_iff.1 (Nat.lt_of_mul_lt_mul_right product)

/-- The product of an estimate and the divisor is less than two divisors too high. -/
theorem estimate_mul_lt (positive : 0 < base) (half : base ≤ 2 * lead) (isLead : IsLead lead unit divisor)
    (isHigh : high * unit ≤ dividend) : estimate base high lead * divisor < dividend + 2 * divisor := by
  have unitPos := isLead.unit_pos
  have below : estimate base high lead * unit < 2 * lead * unit :=
    Nat.mul_lt_mul_of_pos_right ((estimate_lt positive).trans_le half) unitPos
  have product : estimate base high lead * lead * unit ≤ high * unit := Nat.mul_le_mul_right unit estimate_mul_le
  calc estimate base high lead * divisor
      ≤ estimate base high lead * ((lead + 1) * unit) := Nat.mul_le_mul_left _ isLead.high.le
    _ = estimate base high lead * lead * unit + estimate base high lead * unit := by ring
    _ < dividend + 2 * divisor := by linarith [isLead.low]

theorem estimate_le (positive : 0 < base) (half : base ≤ 2 * lead) (isLead : IsLead lead unit divisor)
    (isHigh : IsLead high unit dividend) : estimate base high lead ≤ dividend / divisor + 2 := by
  have product_lt := estimate_mul_lt positive half isLead isHigh.low
  have some_ : 0 < divisor := by
    have := Nat.mul_pos (show 0 < lead by omega) isLead.unit_pos
    have := isLead.low
    omega
  have next : dividend < (dividend / divisor + 1) * divisor := by
    rw [Nat.mul_comm]
    exact Nat.lt_mul_div_succ dividend some_
  have product : estimate base high lead * divisor < (dividend / divisor + 3) * divisor := by linarith
  have := Nat.lt_of_mul_lt_mul_right product
  omega

end MonoRuntime.LongDivision
