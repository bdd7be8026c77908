/-
Module: MonoRuntime.Lib.HalfUp
Purpose: Quotients of natural numbers that are rounded to the nearest one, with halves rounded up. A quotient that was
  rounded down before does no harm where the next divisor is even, so that digits may be dropped in several passes;
  the fewest digits that bring a number below a limit are the same for every way to drop them.
Trusted boundary: none
Main exports: roundDiv
-/
import Mathlib.Algebra.Order.Ring.Int
import Mathlib.Tactic.Ring

namespace MonoRuntime.HalfUp

/-- The quotient, rounded to the nearest number; a half is rounded up. -/
def roundDiv (n d : Nat) : Nat :=
  (2 * n + d) / (2 * d)

/-- Whether the rest is half of the divisor or more. -/
def roundsUp (n d : Nat) : Bool :=
  d ≤ 2 * (n % d)

/-! ### One division -/

section Division

variable {n d m : Nat}

theorem roundDiv_eq (positive : 0 < d) : roundDiv n d = n / d + (roundsUp n d).toNat := by
  have split := Nat.div_add_mod n d
  have rest := Nat.mod_lt n positive
  have twice : ∀ q : Nat, q * (2 * d) = 2 * (d * q) := fun q => by ring
  cases up : roundsUp n d with
  | true =>
    have half : d ≤ 2 * (n % d) := of_decide_eq_true up
    apply Nat.div_eq_of_lt_le
    · rw [twice, Bool.toNat_true, Nat.mul_succ]
      omega
    · rw [twice, Bool.toNat_true, Nat.mul_succ, Nat.mul_succ]
      omega
  | false =>
    have half : ¬ d ≤ 2 * (n % d) := of_decide_eq_false up
    apply Nat.div_eq_of_lt_le
    · rw [twice, Bool.toNat_false, Nat.add_zero]
      omega
    · rw [twice, Bool.toNat_false, Nat.mul_succ]
      omega

theorem roundsUp_one : roundsUp n 1 = false := by
  unfold roundsUp
  rw [Nat.mod_one]
  rfl

theorem roundDiv_one : roundDiv n 1 = n := by
  rw [roundDiv_eq Nat.one_pos, roundsUp_one, Nat.div_one, Bool.toNat_false, Nat.add_zero]

theorem div_le_roundDiv (positive : 0 < d) : n / d ≤ roundDiv n d := by
  rw [roundDiv_eq positive]
  exact Nat.le_add_right _ _

theorem roundDiv_of_dvd (positive : 0 < d) (divides : d ∣ n) : roundDiv n d = n / d := by
  have none : roundsUp n d = false := by
    apply decide_eq_false
    rw [Nat.mod_eq_zero_of_dvd divides]
    omega
  rw [roundDiv_eq positive, none, Bool.toNat_false, Nat.add_zero]

theorem roundDiv_lt_iff (positive : 0 < d) : roundDiv n d < m ↔ 2 * n + d < m * (2 * d) :=
  Nat.div_lt_iff_lt_mul (Nat.mul_pos (by decide) positive)

theorem le_roundDiv_iff (positive : 0 < d) : m ≤ roundDiv n d ↔ m * (2 * d) ≤ 2 * n + d :=
  Nat.le_div_iff_mul_le (Nat.mul_pos (by decide) positive)

theorem roundDiv_near (positive : 0 < d) : 2 * (roundDiv n d * d) ≤ 2 * n + d ∧ 2 * n < 2 * (roundDiv n d * d) + d := by
  have low := (@le_roundDiv_iff n d (roundDiv n d) positive).mp le_rfl
  have high := (@roundDiv_lt_iff n d (roundDiv n d + 1) positive).mp (Nat.lt_succ_self _)
  have move : roundDiv n d * (2 * d) = 2 * (roundDiv n d * d) := by ring
  have move' : (roundDiv n d + 1) * (2 * d) = 2 * (roundDiv n d * d) + 2 * d := by ring
  omega

theorem roundDiv_antitone {e : Nat} (positive : 0 < d) (le : d ≤ e) : roundDiv n e ≤ roundDiv n d := by
  have low := (@le_roundDiv_iff n e (roundDiv n e) (Nat.lt_of_lt_of_le positive le)).mp le_rfl
  rw [le_roundDiv_iff positive]
  obtain zero | some_ := Nat.eq_zero_or_pos (roundDiv n e)
  · rw [zero, Nat.zero_mul]
    exact Nat.zero_le _
  · have step : 2 * (e - d) ≤ roundDiv n e * (2 * (e - d)) := Nat.le_mul_of_pos_left _ some_
    have split : roundDiv n e * (2 * e) = roundDiv n e * (2 * d) + roundDiv n e * (2 * (e - d)) := by
      rw [← Nat.mul_add, ← Nat.mul_add, Nat.add_sub_cancel' le]
    omega

theorem roundDiv_succ (positive : 0 < d) (even : 2 ∣ d) (notHalf : 2 * ((n + 1) % d) ≠ d) :
    roundDiv (n + 1) d = roundDiv n d := by
  obtain ⟨h, rfl⟩ := even
  have halve : ∀ m, roundDiv m (2 * h) = (m + h) / (2 * h) := fun m => by
    rw [roundDiv, ← Nat.mul_add, Nat.mul_div_mul_left _ _ (by decide)]
  have split := Nat.div_add_mod (n + 1) (2 * h)
  have rest := Nat.mod_lt (n + 1) positive
  rw [halve, halve, Nat.add_right_comm, Nat.succ_div, if_neg, Nat.add_zero]
  intro divides
  rw [Nat.add_right_comm, ← split, Nat.add_assoc, Nat.dvd_add_right (Nat.dvd_mul_right _ _)] at divides
  obtain ⟨q, is⟩ := divides
  obtain zero | some_ := Nat.eq_zero_or_pos (q - 1)
  · have le : 2 * h * q ≤ 2 * h * 1 := Nat.mul_le_mul_left _ (by omega)
    have nonzero : q ≠ 0 := by
      rintro rfl
      omega
    have one : q = 1 := by omega
    rw [one] at is
    omega
  · have le : 2 * h * 2 ≤ 2 * h * q := Nat.mul_le_mul_left _ (by omega)
    omega

end Division

/-! ### Several divisions -/

section Divisions

variable {n c d : Nat}

theorem roundsUp_div (positive : 0 < c) (even : 2 ∣ d) : roundsUp (n / c) d = roundsUp n (c * d) := by
  obtain ⟨h, rfl⟩ := even
  have rest := Nat.mod_lt n positive
  have split : n % (c * (2 * h)) = n % c + c * (n / c % (2 * h)) := Nat.mod_mul
  have half : c * (2 * h) = 2 * (c * h) := Nat.mul_left_comm c 2 h
  apply decide_eq_decide.mpr
  constructor
  · intro up
    have step : c * h ≤ c * (n / c % (2 * h)) := Nat.mul_le_mul_left c (by omega)
    omega
  · intro up
    by_contra down
    have step : c * (n / c % (2 * h) + 1) ≤ c * h := Nat.mul_le_mul_left c (by omega)
    rw [Nat.mul_succ] at step
    omega

theorem roundDiv_div (positive : 0 < c) (positive' : 0 < d) (even : 2 ∣ d) : roundDiv (n / c) d = roundDiv n (c * d) := by
  rw [roundDiv_eq positive', roundDiv_eq (Nat.mul_pos positive positive'), Nat.div_div_eq_div_mul,
    roundsUp_div positive even]

end Divisions

/-! ### The fewest digits -/

/-- The fewest digits, `least` or more, without which the rounded number is below the limit. -/
structure Fewest (base limit n least k : Nat) : Prop where
  least_le : least ≤ k
  below : roundDiv n (base ^ k) < limit
  fewest : least < k → limit ≤ roundDiv n (base ^ (k - 1))

section Fewest

variable {base limit n least k l : Nat}

theorem roundDiv_pow_antitone (positive : 0 < base) (le : k ≤ l) : roundDiv n (base ^ l) ≤ roundDiv n (base ^ k) :=
  roundDiv_antitone (Nat.pow_pos positive) (Nat.pow_le_pow_right positive le)

theorem roundDiv_div_le {cut : Nat} (positive : 0 < base) (even : 2 ∣ base) :
    roundDiv (n / base ^ cut) (base ^ k) ≤ roundDiv n (base ^ (cut + k)) := by
  have power : ∀ i, 0 < base ^ i := fun i => Nat.pow_pos positive
  by_cases none : k = 0
  · rw [none, Nat.pow_zero, roundDiv_one]
    exact div_le_roundDiv (power cut)
  · rw [roundDiv_div (power _) (power _) (Dvd.dvd.trans even (dvd_pow_self base none)), ← Nat.pow_add]

theorem Fewest.le (is : Fewest base limit n least k) (positive : 0 < base) (enough : least ≤ l)
    (below : roundDiv n (base ^ l) < limit) : k ≤ l := by
  by_contra more
  have above := is.fewest (by omega)
  have down := @roundDiv_pow_antitone base n l (k - 1) positive (by omega)
  omega

theorem Fewest.unique (is : Fewest base limit n least k) (is' : Fewest base limit n least l) (positive : 0 < base) :
    k = l :=
  Nat.le_antisymm (is.le positive is'.least_le is'.below) (is'.le positive is.least_le is.below)

/-- Where the least digits are not enough, there may as well be fewer of them. -/
theorem Fewest.of_above {least' : Nat} (is : Fewest base limit n least k) (above : limit ≤ roundDiv n (base ^ least))
    (le : least' ≤ least) : Fewest base limit n least' k := by
  refine ⟨Nat.le_trans le is.least_le, is.below, fun _ => ?_⟩
  obtain less | rfl := Nat.lt_or_eq_of_le is.least_le
  · exact is.fewest less
  · exact absurd is.below (Nat.not_lt.mpr above)

/-- The digits that were cut off before are among the fewest, where what is left does not fit. -/
theorem Fewest.of_div {cut : Nat} (positive : 0 < base) (even : 2 ∣ base)
    (is : Fewest base limit (n / base ^ cut) 0 k) (above : cut ≠ 0 → limit ≤ n / base ^ cut) :
    Fewest base limit n 0 (cut + k) ∧ roundDiv (n / base ^ cut) (base ^ k) = roundDiv n (base ^ (cut + k)) := by
  by_cases none : cut = 0
  · rw [none, Nat.pow_zero, Nat.div_one] at is ⊢
    rw [Nat.zero_add]
    exact ⟨is, rfl⟩
  · have power : ∀ i, 0 < base ^ i := fun i => Nat.pow_pos positive
    have compose : ∀ {i}, i ≠ 0 → roundDiv (n / base ^ cut) (base ^ i) = roundDiv n (base ^ (cut + i)) := by
      intro i some_
      rw [roundDiv_div (power _) (power _) (Dvd.dvd.trans even (dvd_pow_self base some_)), ← Nat.pow_add]
    have more : k ≠ 0 := by
      rintro rfl
      have below := is.below
      rw [Nat.pow_zero, roundDiv_one] at below
      exact absurd (above none) (Nat.not_le.mpr below)
    refine ⟨⟨Nat.zero_le _, by rw [← compose more]; exact is.below, fun _ => ?_⟩, compose more⟩
    by_cases one : k = 1
    · rw [one, Nat.add_sub_cancel]
      exact Nat.le_trans (above none) (div_le_roundDiv (power _))
    · rw [Nat.add_sub_assoc (by omega), ← compose (by omega)]
      exact is.fewest (by omega)

/-- Where a number can be written below the limit with fewer digits, nothing is lost. -/
theorem Fewest.dvd (is : Fewest base limit n least k) (positive : 0 < base) (enough : least ≤ l)
    (divides : base ^ l ∣ n) (below : n / base ^ l < limit) : base ^ k ∣ n := by
  have le : k ≤ l := is.le positive enough (by rwa [roundDiv_of_dvd (Nat.pow_pos positive) divides])
  exact Nat.dvd_trans (Nat.pow_dvd_pow base le) divides

end Fewest

/-! ### One unit more

A number that should lose its last digits may have got one unit more in exchange for them, as a difference does where
the digits of the smaller operand are cut off. It is rounded as it should be, unless the unit leads it to the middle of
two results. -/

section Excess

variable {base limit n cut k : Nat}

/-- The unit leads to the middle of two results. -/
def Halfway (base n cut k : Nat) : Prop :=
  2 * ((n / base ^ cut + 1) % base ^ k) = base ^ k

/-- Numbers between the last unit below the middle and the middle. -/
def JustBelow (base n cut t : Nat) : Prop :=
  2 * (n % base ^ t) < base ^ t ∧ base ^ t < 2 * (n % base ^ t + base ^ cut)

theorem JustBelow.not_dvd {t : Nat} (is : JustBelow base n cut t) (even : 2 ∣ base) (less : cut < t) :
    ¬ base ^ cut ∣ n := by
  obtain ⟨j, rfl⟩ := Nat.exists_eq_add_of_lt less
  obtain ⟨h, rfl⟩ := even
  intro divides
  obtain ⟨low, high⟩ := is
  have power : (2 * h) ^ (cut + j + 1) = (2 * h) ^ cut * (2 * ((2 * h) ^ j * h)) := by ring
  have dvd : (2 * h) ^ cut ∣ n % (2 * h) ^ (cut + j + 1) :=
    (Nat.dvd_mod_iff (by rw [power]; exact Nat.dvd_mul_right _ _)).mpr divides
  obtain ⟨i, isRest⟩ := dvd
  rw [isRest, power] at low high
  generalize (2 * h) ^ cut = u at *
  have below : u * i < u * ((2 * h) ^ j * h) := by
    rw [Nat.mul_left_comm u 2] at low
    omega
  have above : u * ((2 * h) ^ j * h) < u * (i + 1) := by
    rw [Nat.mul_left_comm u 2] at high
    rw [Nat.mul_succ]
    omega
  have first := Nat.lt_of_mul_lt_mul_left below
  have second := Nat.lt_of_mul_lt_mul_left above
  omega

/-- The unit leads to the middle just where the number itself is less than a unit below it. -/
theorem halfway_iff (positive : 0 < base) (even : 2 ∣ base) (some_ : k ≠ 0) (notDvd : ¬ base ^ cut ∣ n) :
    Halfway base n cut k ↔ JustBelow base n cut (cut + k) := by
  have rest := Nat.mod_lt n (Nat.pow_pos positive : 0 < base ^ cut)
  have split : n % base ^ (cut + k) = n % base ^ cut + base ^ cut * (n / base ^ cut % base ^ k) := by
    rw [Nat.pow_add, Nat.mod_mul]
  obtain ⟨h, half⟩ := Dvd.dvd.trans even (dvd_pow_self base some_)
  have half_pos : 0 < h := by
    have := (Nat.pow_pos positive : 0 < base ^ k)
    omega
  unfold Halfway JustBelow
  rw [split, Nat.pow_add, half]
  have digit := Nat.mod_lt (n / base ^ cut) (by omega : 0 < 2 * h)
  have next : (n / base ^ cut + 1) % (2 * h) = if n / base ^ cut % (2 * h) + 1 = 2 * h then 0 else
      n / base ^ cut % (2 * h) + 1 := by
    rw [Nat.add_mod, Nat.mod_eq_of_lt (by omega : 1 < 2 * h)]
    split
    next wraps => rw [wraps, Nat.mod_self]
    next => exact Nat.mod_eq_of_lt (by omega)
  rw [next]
  generalize n / base ^ cut % (2 * h) = q at *
  generalize base ^ cut = u at *
  have move : u * (2 * h) = 2 * (u * h) := Nat.mul_left_comm u 2 h
  rw [move]
  constructor
  · intro is
    have isHalf : h = q + 1 := by
      split at is <;> omega
    rw [isHalf, Nat.mul_succ]
    omega
  · rintro ⟨low, high⟩
    have below : u * q < u * h := by omega
    have above : u * h < u * (q + 2) := by
      rw [Nat.mul_add]
      omega
    have first := Nat.lt_of_mul_lt_mul_left below
    have second := Nat.lt_of_mul_lt_mul_left above
    rw [if_neg (by omega)]
    omega

theorem Halfway.pred (is : Halfway base n cut (k + 1)) (positive : 0 < base) (even : 2 ∣ base) :
    ¬ Halfway base n cut k := by
  obtain ⟨h, rfl⟩ := even
  have power : 0 < (2 * h) ^ k := Nat.pow_pos positive
  unfold Halfway at *
  have isRest : (n / (2 * h) ^ cut + 1) % (2 * h) ^ (k + 1) = h * (2 * h) ^ k := by
    have split : (2 * h) ^ (k + 1) = 2 * (h * (2 * h) ^ k) := by ring
    omega
  rw [← Nat.mod_mod_of_dvd _ (Nat.pow_dvd_pow (2 * h) (Nat.le_succ k)), isRest, Nat.mul_mod_left]
  omega

theorem roundDiv_of_not_halfway (positive : 0 < base) (even : 2 ∣ base) (some_ : k ≠ 0)
    (not : ¬ Halfway base n cut k) : roundDiv (n / base ^ cut + 1) (base ^ k) = roundDiv n (base ^ (cut + k)) := by
  have power : ∀ i, 0 < base ^ i := fun i => Nat.pow_pos positive
  have even' : 2 ∣ base ^ k := Dvd.dvd.trans even (dvd_pow_self base some_)
  rw [roundDiv_succ (power k) even' not, roundDiv_div (power _) (power _) even', ← Nat.pow_add]

theorem Halfway.roundDiv_eq (is : Halfway base n cut k) (positive : 0 < base) :
    roundDiv (n / base ^ cut + 1) (base ^ k) = n / base ^ (cut + k) + 1 := by
  have power : 0 < base ^ k := Nat.pow_pos positive
  have up : roundsUp (n / base ^ cut + 1) (base ^ k) = true := decide_eq_true (Nat.le_of_eq is.symm)
  have notDvd : ¬ base ^ k ∣ n / base ^ cut + 1 := by
    intro divides
    unfold Halfway at is
    rw [Nat.mod_eq_zero_of_dvd divides] at is
    omega
  rw [HalfUp.roundDiv_eq power, up, Nat.succ_div, if_neg notDvd, Nat.div_div_eq_div_mul, ← Nat.pow_add]
  rfl

theorem Halfway.fewest_iff (is : Halfway base n cut k) (positive : 0 < base) (even : 2 ∣ base) (some_ : k ≠ 0)
    (notDvd : ¬ base ^ cut ∣ n) (above : limit ≤ n / base ^ cut) : Fewest base limit (n / base ^ cut + 1) 0 k ↔
      Fewest base limit n 0 (cut + k) ∧ n / base ^ (cut + k) + 1 < limit := by
  have power : ∀ i, 0 < base ^ i := fun i => Nat.pow_pos positive
  have rounded := is.roundDiv_eq positive
  have down : roundDiv n (base ^ (cut + k)) = n / base ^ (cut + k) := by
    have below := ((halfway_iff positive even some_ notDvd).mp is).1
    rw [HalfUp.roundDiv_eq (power _), roundsUp, decide_eq_false (Nat.not_le.mpr below)]
    rfl
  have before : limit ≤ roundDiv (n / base ^ cut + 1) (base ^ (k - 1)) ↔ limit ≤ roundDiv n (base ^ (cut + k - 1)) := by
    obtain ⟨j, rfl⟩ := Nat.exists_eq_succ_of_ne_zero some_
    rw [Nat.succ_sub_one, Nat.add_succ_sub_one]
    by_cases none : j = 0
    · have first := @div_le_roundDiv n (base ^ cut) (power _)
      rw [none, Nat.pow_zero, roundDiv_one, Nat.add_zero]
      exact ⟨fun _ => Nat.le_trans above first, fun _ => Nat.le_succ_of_le above⟩
    · rw [roundDiv_of_not_halfway positive even none (is.pred positive even)]
  constructor
  · intro fewest
    have below := fewest.below
    rw [rounded] at below
    refine ⟨⟨Nat.zero_le _, by omega, fun _ => before.mp (fewest.fewest (Nat.pos_of_ne_zero some_))⟩, below⟩
  · rintro ⟨fewest, below⟩
    exact ⟨Nat.zero_le _, by rwa [rounded], fun _ => before.mpr (fewest.fewest (by omega))⟩

end Excess

end MonoRuntime.HalfUp
