/-
Module: MonoRuntime.Lib.Placement
Purpose: Items of given sizes and alignments that are placed one after another, each behind the ones before it. The
  ranges of the items stay apart, aligned and between the start and the place behind the last one.
Trusted boundary: none
Main exports: alignUp
-/
import Mathlib.Algebra.Order.Ring.Int

namespace MonoRuntime.Placement

/-! ### Alignment -/

/-- A power of two. -/
def IsAlign (a : Nat) : Prop :=
  ∃ k, a = 2 ^ k

/-- The next multiple of `a`. -/
def alignUp (x a : Nat) : Nat :=
  (x + (a - 1)) / a * a

theorem IsAlign.pos {a : Nat} (isAlign : IsAlign a) : 0 < a := by
  obtain ⟨k, rfl⟩ := isAlign
  exact Nat.two_pow_pos k

theorem IsAlign.max {a b : Nat} (first : IsAlign a) (second : IsAlign b) : IsAlign (max a b) := by
  rcases Nat.le_total a b with less | more
  · rwa [Nat.max_eq_right less]
  · rwa [Nat.max_eq_left more]

theorem IsAlign.min {a b : Nat} (first : IsAlign a) (second : IsAlign b) : IsAlign (min a b) := by
  rcases Nat.le_total a b with less | more
  · rwa [Nat.min_eq_left less]
  · rwa [Nat.min_eq_right more]

theorem dvd_alignUp (x a : Nat) : a ∣ alignUp x a :=
  Nat.dvd_mul_left a _

theorem IsAlign.dvd_of_le {a b : Nat} (first : IsAlign a) (second : IsAlign b) (less : a ≤ b) : a ∣ b := by
  obtain ⟨k, rfl⟩ := first
  obtain ⟨m, rfl⟩ := second
  exact Nat.pow_dvd_pow 2 ((Nat.pow_le_pow_iff_right (by omega)).mp less)

/-! ### Items -/

/-- The items of `P` have aligned offsets, and their ranges are apart and between `base` and `stop`. -/
structure Placed (base stop : Nat) (size align offset : Nat → Nat) (P : Nat → Prop) : Prop where
  low : ∀ i, P i → base ≤ offset i
  high : ∀ i, P i → offset i + size i ≤ stop
  aligned : ∀ i, P i → align i ∣ offset i
  apart : ∀ i j, P i → P j → i ≠ j → offset i + size i ≤ offset j ∨ offset j + size j ≤ offset i

variable {base stop : Nat} {size align offset : Nat → Nat} {P Q : Nat → Prop}

theorem placed_none (none : ∀ i, ¬ P i) : Placed base stop size align offset P where
  low i member := absurd member (none i)
  high i member := absurd member (none i)
  aligned i member := absurd member (none i)
  apart i _ member := absurd member (none i)

theorem Placed.mono {stop' : Nat} {offset' : Nat → Nat} (placed : Placed base stop size align offset P)
    (fewer : ∀ i, Q i → P i) (same : ∀ i, Q i → offset' i = offset i) (less : stop ≤ stop') :
    Placed base stop' size align offset' Q where
  low i member := by
    rw [same i member]
    exact placed.low i (fewer i member)
  high i member := by
    rw [same i member]
    exact (placed.high i (fewer i member)).trans less
  aligned i member := by
    rw [same i member]
    exact placed.aligned i (fewer i member)
  apart i j first second other := by
    rw [same i first, same j second]
    exact placed.apart i j (fewer i first) (fewer j second) other

theorem Placed.place {i o : Nat} (placed : Placed base stop size align offset P) (above : base ≤ stop) (new : ¬ P i)
    (behind : stop ≤ o) (aligned : align i ∣ o) :
    Placed base (o + size i) size align (Function.update offset i o) (fun j => P j ∨ j = i) := by
  have kept : ∀ j, P j → Function.update offset i o j = offset j := by
    intro j member
    refine Function.update_of_ne ?_ o offset
    rintro rfl
    exact new member
  have placedAt : Function.update offset i o i = o := Function.update_self i o offset
  constructor
  case low =>
    rintro j (member | rfl)
    · rw [kept j member]
      exact placed.low j member
    · rw [placedAt]
      exact above.trans behind
  case high =>
    rintro j (member | rfl)
    · rw [kept j member]
      have high := placed.high j member
      omega
    · rw [placedAt]
  case aligned =>
    rintro j (member | rfl)
    · rw [kept j member]
      exact placed.aligned j member
    · rwa [placedAt]
  case apart =>
    rintro j k (first | rfl) (second | rfl) other
    · rw [kept j first, kept k second]
      exact placed.apart j k first second other
    · rw [kept j first, placedAt]
      exact .inl ((placed.high j first).trans behind)
    · rw [kept k second, placedAt]
      exact .inr ((placed.high k second).trans behind)
    · exact absurd rfl other

end MonoRuntime.Placement
