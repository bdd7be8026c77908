/-
Module: MonoRuntime.Proofs.DecimalDiv
Purpose: The division functions of `metadata/decimal.c` as they return: they are total, they report a zero divisor, and
  a result is written unless the dividend is zero.
Trusted boundary: none
Main exports: division_zeroChecked_iff
-/
import MonoRuntime.Proofs.DecimalScaling

namespace MonoRuntime.Decimal

/-! ### Return codes -/

/-- The codes of the scaling. -/
def ScalingCode (rc : Int) : Prop :=
  rc = decimalSuccess ∨ rc = decimalOverflow

variable (c : Dec128)

theorem mult128by32_code (factor : BitVec 32) (roundBit : Bool) : ScalingCode (mult128by32 c factor roundBit).1 := by
  obtain ⟨carry, isCode⟩ : ∃ carry : Prop, ∃ _ : Decidable carry,
      (mult128by32 c factor roundBit).1 = if carry then decimalSuccess else decimalOverflow := ⟨_, _, rfl⟩
  obtain ⟨_, isCode⟩ := isCode
  exact ite_eq_or_eq _ _ _

variable (scale : Int) {divide : DecimalRepr → Option Division} (pC : DecimalRepr) (maxScale : Int) (roundFlag : Bool)

theorem normalize128_code (roundBit : Bool) : ScalingCode (normalize128 c scale roundFlag roundBit).1 := by
  unfold normalize128
  split
  next => exact Or.inr rfl
  next => exact Or.inl rfl

theorem addDigits_code (minScale : Int) (roundFlag : Bool) : ∀ (fuel : Nat) (s : Rescale),
    ScalingCode (addDigits minScale roundFlag fuel s).1 := by
  intro fuel
  induction fuel with
  | zero => exact fun s => Or.inl rfl
  | succ fuel next =>
    intro s
    rw [addDigits]
    by_cases below : s.scale < minScale
    · simp only [if_pos below]
      generalize (if minScale - s.scale > decimalMaxIntfactors then (decimalMaxIntfactors : Int)
        else minScale - s.scale) = i
      have code := mult128by32_code s.c (decadeFactor i.toNat) (if roundFlag then s.roundBit else false)
      by_cases fails : (mult128by32 s.c (decadeFactor i.toNat) (if roundFlag then s.roundBit else false)).1 ≠
          decimalSuccess
      · simp only [if_pos fails]
        exact code
      · simp only [if_neg fails]
        exact next _
    · rw [if_neg below]
      exact Or.inl rfl

theorem rescale128_returns (texp : Nat) (minScale maxScale : Int) (roundFlag : Bool) :
    ∃ rc c' scale', rescale128 c scale texp minScale maxScale roundFlag = some (rc, c', scale') ∧ ScalingCode rc := by
  obtain ⟨r, isReduced, _⟩ := reduceExp_spec maxScale texp
    { c := c, scale := scale, texp := texp, roundBit := false } (Nat.le_refl texp)
  unfold rescale128
  simp only [isReduced]
  have code := addDigits_code minScale roundFlag
  split
  next => exact ⟨_, _, _, rfl, code _ _⟩
  next => exact ⟨_, _, _, rfl, normalize128_code _ _ _ _⟩

theorem pack128toDecimal_cases (a : Dec128) (scale : Int) (sign : Bool) :
    (∃ r, ∀ d, pack128toDecimal d a scale sign = (decimalSuccess, r)) ∨
      ∀ d, pack128toDecimal d a scale sign = (decimalOverflow, d) := by
  unfold pack128toDecimal
  by_cases refused : scale < 0 ∨ scale > decimalMaxScale ∨ a.hi >>> 32 ≠ 0
  · simp only [if_pos refused]
    exact Or.inr fun _ => trivial
  · simp only [if_neg refused]
    exact Or.inl ⟨_, fun _ => rfl⟩

variable {a b : DecimalRepr}

variable (sign : Bool)

theorem divideScaled_cases (divisor : b.mantissa ≠ 0) (dividend : a.mantissa ≠ 0) :
    (∃ r, ∀ pC, divideScaled pC a b maxScale roundFlag sign = some { rc := decimalSuccess, pC := r, pA := a }) ∨
      ∀ pC, divideScaled pC a b maxScale roundFlag sign = some { rc := decimalOverflow, pC := pC, pA := a } := by
  obtain ⟨c, texp, isSub⟩ := decimalDivSub_returns divisor dividend
  obtain ⟨rc, c', scale', isScaled, code⟩ := rescale128_returns c ((a.scale.toNat : Int) - b.scale.toNat) texp 0 maxScale
    roundFlag
  unfold divideScaled
  simp only [isSub, isScaled, ne_eq, not_true_eq_false, if_false]
  rcases code with rfl | rfl
  · simp only [not_true_eq_false, if_false]
    rcases pack128toDecimal_cases c' scale' sign with ⟨r, isPacked⟩ | isPacked
    · simp only [isPacked]
      exact Or.inl ⟨r, fun _ => rfl⟩
    · simp only [isPacked]
      exact Or.inr fun _ => trivial
  · simp only [show ¬ decimalOverflow = decimalSuccess by decide, not_false_eq_true, if_true]
    exact Or.inr fun _ => trivial

/-! ### Zero operands -/

/-- What a division owes to zero operands: it returns, reports exactly a zero divisor, and a success means that the
result is written, whatever stood there, with the value zero for a zero dividend. -/
structure ZeroChecked (divide : DecimalRepr → Option Division) (a b : DecimalRepr) : Prop where
  returns : ∀ pC, ∃ d, divide pC = some d
  divideByZero : ∀ pC d, divide pC = some d → (d.rc = decimalDivideByZero ↔ b.mantissa = 0)
  written : ∀ pC d, divide pC = some d → d.rc = decimalSuccess → ∀ pC' d', divide pC' = some d' → d'.pC = d.pC
  zero : ∀ pC d, divide pC = some d → d.rc = decimalSuccess → a.mantissa = 0 → d.pC.value = 0

theorem ZeroChecked.of_byZero (noDivisor : b.mantissa = 0)
    (run : ∀ pC, divide pC = some { rc := decimalDivideByZero, pC := pC, pA := a }) :
    ZeroChecked divide a b := by
  refine ⟨fun pC => ⟨_, run pC⟩, fun pC d isD => ?_, fun pC d isD success => ?_, fun pC d isD success => ?_⟩
  · rw [run pC] at isD
    cases isD
    exact iff_of_true rfl noDivisor
  · rw [run pC] at isD
    cases isD
    exact absurd success (show decimalDivideByZero ≠ decimalSuccess by decide)
  · rw [run pC] at isD
    cases isD
    exact absurd success (show decimalDivideByZero ≠ decimalSuccess by decide)

theorem ZeroChecked.of_nonzero (divisor : b.mantissa ≠ 0) (dividend : a.mantissa ≠ 0)
    (run : (∃ r pA, ∀ pC, divide pC = some { rc := decimalSuccess, pC := r, pA := pA }) ∨ ∀ pC, divide pC = some { rc := decimalOverflow, pC := pC, pA := a }) :
    ZeroChecked divide a b := by
  rcases run with ⟨r, pA, run⟩ | run
  · refine ⟨fun pC => ⟨_, run pC⟩, fun pC d isD => ?_, fun pC d isD _ pC' d' isD' => ?_, fun _ _ _ _ none_ =>
      absurd none_ dividend⟩
    · rw [run pC] at isD
      cases isD
      exact iff_of_false (show decimalSuccess ≠ decimalDivideByZero by decide) divisor
    · rw [run pC] at isD
      rw [run pC'] at isD'
      cases isD
      cases isD'
      rfl
  · refine ⟨fun pC => ⟨_, run pC⟩, fun pC d isD => ?_, fun pC d isD success => ?_, fun _ _ _ _ none_ =>
      absurd none_ dividend⟩
    · rw [run pC] at isD
      cases isD
      exact iff_of_false (show decimalOverflow ≠ decimalDivideByZero by decide) divisor
    · rw [run pC] at isD
      cases isD
      exact absurd success (show decimalOverflow ≠ decimalSuccess by decide)

theorem divideEqual_eq (pA : DecimalRepr) (sign : Bool) :
    divideEqual pC pA sign = { rc := decimalSuccess, pC := .of sign 0 1, pA := pA } :=
  rfl

/-- The paths of `mono_decimalDiv`. The first operand keeps the other sign where the operands are opposite. -/
theorem monoDecimalDiv_cases (a b : ValidDecimal) : (a.1.value = b.1.value ∧
      ∀ pC, monoDecimalDiv pC a.1 b.1 = some { rc := decimalSuccess, pC := .of false 0 1, pA := a.1 }) ∨
    (a.1.value ≠ b.1.value ∧ a.1.value = - b.1.value ∧ ∀ pC, monoDecimalDiv pC a.1 b.1 =
      some { rc := decimalSuccess, pC := .of true 0 1, pA := { a.1 with sign := !a.1.sign } }) ∨
    (a.1.value ≠ b.1.value ∧ a.1.value ≠ - b.1.value ∧ ∀ pC, monoDecimalDiv pC a.1 b.1 =
      divideScaled pC a.1 b.1 decimalMaxScale true (a.1.sign ^^ b.1.sign)) := by
  have turned : DecimalRepr.value { a.1 with sign := !a.1.sign } = - a.1.value := by
    unfold DecimalRepr.value
    cases a.1.sign
    · simp [DecimalRepr.mantissa]
    · simp [DecimalRepr.mantissa]
  obtain ⟨r, run, agrees⟩ := monoDecimalCompare_agrees a.2 b.2
  obtain ⟨r', run', agrees'⟩ := monoDecimalCompare_agrees (a := { a.1 with sign := !a.1.sign }) a.2 b.2
  have equal := agrees.zero_iff
  have opposite := agrees'.zero_iff
  rw [turned, neg_eq_iff_eq_neg] at opposite
  unfold monoDecimalDiv
  simp only [run, run', divideEqual_eq, Bool.not_not]
  by_cases isEqual : r = 0
  · exact Or.inl ⟨equal.1 isEqual, fun pC => if_pos isEqual⟩
  · simp only [if_neg isEqual]
    by_cases isOpposite : r' = 0
    · exact Or.inr (Or.inl ⟨equal.not.1 isEqual, opposite.1 isOpposite, fun pC => if_pos isOpposite⟩)
    · exact Or.inr (Or.inr ⟨equal.not.1 isEqual, opposite.not.1 isOpposite, fun pC => if_neg isOpposite⟩)

theorem value_eq_zero_iff (d : DecimalRepr) : d.value = 0 ↔ d.mantissa = 0 := by
  have sign : signFactor d.sign ≠ 0 := fun isZero => by
    have := abs_signFactor d.sign
    rw [isZero, abs_zero] at this
    exact zero_ne_one this
  have power : (10 : ℚ) ^ d.scale.toNat ≠ 0 := by positivity
  rw [value_eq, mul_eq_zero, or_iff_right sign, div_eq_zero_iff, or_iff_left power, Nat.cast_eq_zero]

/-- A zero dividend of the integer division leaves the result as it was, or is divided by zero. -/
theorem divideScaled_ofZero (divisor : b.mantissa ≠ 0) (noDividend : a.mantissa = 0) :
    divideScaled pC a b maxScale roundFlag sign = some { rc := decimalSuccess, pC := pC, pA := a } := by
  obtain ⟨c, texp, isSub⟩ := decimalDivSub_ofZero divisor noDividend
  unfold divideScaled
  simp only [isSub]
  rfl

theorem divideScaled_byZero (noDivisor : b.mantissa = 0) :
    divideScaled pC a b maxScale roundFlag sign = some { rc := decimalDivideByZero, pC := pC, pA := a } := by
  obtain ⟨c, texp, isSub⟩ := decimalDivSub_byZero (a := a) noDivisor
  unfold divideScaled
  simp only [isSub]
  rfl

/-- A zero dividend is not treated as it should: the quotient of zeros is one, and the others are not written. -/
theorem not_zeroChecked_ofZero {a b : ValidDecimal} (noDividend : a.1.mantissa = 0) :
    ¬ (ZeroChecked (fun pC => monoDecimalDiv pC a.1 b.1) a.1 b.1 ∧
      ZeroChecked (fun pC => monoDecimalIntDiv pC a.1 b.1) a.1 b.1) := by
  rintro ⟨division, integerDivision⟩
  by_cases noDivisor : b.1.mantissa = 0
  · have equal : a.1.value = b.1.value :=
      ((value_eq_zero_iff a.1).2 noDividend).trans ((value_eq_zero_iff b.1).2 noDivisor).symm
    rcases monoDecimalDiv_cases a b with ⟨_, run⟩ | ⟨notEqual, _⟩ | ⟨notEqual, _⟩
    · exact absurd ((division.divideByZero (.of false 0 0) _ (run _)).2 noDivisor)
        (show decimalSuccess ≠ decimalDivideByZero by decide)
    · exact notEqual equal
    · exact notEqual equal
  · have run : ∀ pC, monoDecimalIntDiv pC a.1 b.1 = some { rc := decimalSuccess, pC := pC, pA := a.1 } := fun pC =>
      divideScaled_ofZero pC 0 false a.1.sign noDivisor noDividend
    have same := integerDivision.written (.of false 0 0) _ (run _) rfl (.of false 0 1) _ (run _)
    exact absurd same (show DecimalRepr.of false 0 1 ≠ .of false 0 0 by decide)

/-- Both divisions treat zero operands as they should exactly where the dividend is not zero. -/
theorem division_zeroChecked_iff (a b : ValidDecimal) :
    (ZeroChecked (fun pC => monoDecimalDiv pC a.1 b.1) a.1 b.1 ∧
      ZeroChecked (fun pC => monoDecimalIntDiv pC a.1 b.1) a.1 b.1) ↔ a.1.mantissa ≠ 0 := by
  constructor
  · intro both noDividend
    exact not_zeroChecked_ofZero noDividend both
  · intro dividend
    have aNonzero : a.1.value ≠ 0 := (value_eq_zero_iff a.1).not.2 dividend
    by_cases noDivisor : b.1.mantissa = 0
    · have bZero := (value_eq_zero_iff b.1).2 noDivisor
      refine ⟨ZeroChecked.of_byZero noDivisor fun pC => ?_, ZeroChecked.of_byZero noDivisor fun pC =>
        divideScaled_byZero pC 0 false a.1.sign noDivisor⟩
      rcases monoDecimalDiv_cases a b with ⟨equal, _⟩ | ⟨_, opposite, _⟩ | ⟨_, _, run⟩
      · exact absurd (equal.trans bZero) aNonzero
      · exact absurd (opposite.trans (by rw [bZero, neg_zero])) aNonzero
      · rw [run, divideScaled_byZero pC _ _ _ noDivisor]
    · refine ⟨ZeroChecked.of_nonzero noDivisor dividend ?_, ZeroChecked.of_nonzero noDivisor dividend ?_⟩
      · rcases monoDecimalDiv_cases a b with ⟨_, run⟩ | ⟨_, _, run⟩ | ⟨_, _, run⟩
        · exact Or.inl ⟨_, _, run⟩
        · exact Or.inl ⟨_, _, run⟩
        · simp only [run]
          exact (divideScaled_cases _ _ _ noDivisor dividend).imp_left fun ⟨r, isR⟩ => ⟨r, a.1, isR⟩
      · exact (divideScaled_cases _ _ _ noDivisor dividend).imp_left fun ⟨r, isR⟩ => ⟨r, a.1, isR⟩

/-- Zero divided by zero is one, without an error. -/
theorem monoDecimalDiv_zero_zero :
    ¬ ZeroChecked (fun pC => monoDecimalDiv pC (.of false 0 0) (.of false 0 0)) (.of false 0 0) (.of false 0 0) := by
  intro checked
  have run : monoDecimalDiv (.of false 0 0) (.of false 0 0) (.of false 0 0) =
      some { rc := decimalSuccess, pC := .of false 0 1, pA := .of false 0 0 } := by decide
  exact absurd ((checked.divideByZero _ _ run).2 (by decide)) (show decimalSuccess ≠ decimalDivideByZero by decide)

end MonoRuntime.Decimal
