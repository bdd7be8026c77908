/-
Module: MonoRuntime.Lib.Truncation
Purpose: Numbers that are cut off from a fraction by truncated divisions and shifts, and the multiples of a step that
  none of the cuts crosses.
Trusted boundary: none
Main exports: SameMultiples
-/
import Mathlib.Algebra.Order.Ring.Nat

namespace MonoRuntime.Truncation

/-- A number is cut off from a fraction without crossing a multiple of the step. -/
def SameMultiples (step c num den : Nat) : Prop :=
  ∀ j, j * step * den ≤ num ↔ j * step ≤ c

variable {step c num den : Nat}

theorem sameMultiples_self (c : Nat) : SameMultiples 1 c c 1 := fun j => by
  rw [Nat.mul_one]

theorem SameMultiples.div (is : SameMultiples step c num den) {factor : Nat} (positive : 0 < factor) :
    SameMultiples step (c / factor) num (den * factor) := fun j => by
  have scaled := is (j * factor)
  rw [Nat.le_div_iff_mul_le positive, ← Nat.mul_assoc, Nat.mul_right_comm _ den, Nat.mul_right_comm j step, scaled]

theorem SameMultiples.shift (is : SameMultiples step c num den) (s : Nat) :
    SameMultiples (step * 2 ^ s) (c * 2 ^ s) (num * 2 ^ s) den := fun j => by
  have positive := Nat.two_pow_pos s
  rw [← Nat.mul_assoc, Nat.mul_right_comm _ _ den, Nat.mul_le_mul_right_iff positive,
    Nat.mul_le_mul_right_iff positive]
  exact is j

theorem SameMultiples.mono (is : SameMultiples step c num den) {wider : Nat} (divides : step ∣ wider) :
    SameMultiples wider c num den := by
  obtain ⟨k, rfl⟩ := divides
  intro j
  have scaled := is (j * k)
  rwa [Nat.mul_assoc j, Nat.mul_comm k] at scaled

end MonoRuntime.Truncation
