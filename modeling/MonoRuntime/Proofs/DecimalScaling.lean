/-
Module: MonoRuntime.Proofs.DecimalScaling
Purpose: The passes of `rescale128` that replace powers of two by powers of ten: they end, and no assertion fails.
Trusted boundary: none
Main exports: shiftMany_returns
-/
import MonoRuntime.Proofs.DecimalLongDiv

namespace MonoRuntime.Decimal

open BitVec

/-! ### Shifts -/

theorem mask_toNat {n : Nat} (small : n ≤ 64) : (BitVec.ofNat 64 (2 ^ n - 1)).toNat = 2 ^ n - 1 := by
  have le := Nat.pow_le_pow_right (show 0 < 2 by decide) small
  rw [BitVec.toNat_ofNat, Nat.mod_eq_of_lt (by omega)]

theorem shiftBy_toNat (c : Dec128) {n : Nat} (small : n ≤ 64) :
    Dec128.toNat { lo := c.lo >>> n ||| (c.hi &&& BitVec.ofNat 64 (2 ^ n - 1)) <<< (64 - n), hi := c.hi >>> n } =
      c.toNat / 2 ^ n := by
  have split : (2 : Nat) ^ 64 = 2 ^ (64 - n) * 2 ^ n := by rw [← Nat.pow_add, Nat.sub_add_cancel small]
  have low : (c.lo >>> n).toNat = c.lo.toNat / 2 ^ n := by
    rw [toNat_ushiftRight, Nat.shiftRight_eq_div_pow]
  have lowLess : c.lo.toNat / 2 ^ n < 2 ^ (64 - n) :=
    Nat.div_lt_of_lt_mul (by rw [Nat.mul_comm, ← split]; exact c.lo.isLt)
  have highLess := Nat.mod_lt c.hi.toNat (Nat.two_pow_pos n)
  have high : ((c.hi &&& BitVec.ofNat 64 (2 ^ n - 1)) <<< (64 - n)).toNat = 2 ^ (64 - n) * (c.hi.toNat % 2 ^ n) := by
    rw [toNat_shiftLeft, toNat_and, mask_toNat small, Nat.and_two_pow_sub_one_eq_mod, Nat.shiftLeft_eq,
      Nat.mul_comm, Nat.mod_eq_of_lt]
    rw [split]
    exact Nat.mul_lt_mul_of_pos_left highLess (Nat.two_pow_pos _)
  have joined : (c.lo >>> n ||| (c.hi &&& BitVec.ofNat 64 (2 ^ n - 1)) <<< (64 - n)).toNat =
      2 ^ (64 - n) * (c.hi.toNat % 2 ^ n) + c.lo.toNat / 2 ^ n := by
    rw [toNat_or, low, high, Nat.or_comm, ← Nat.two_pow_add_eq_or_of_lt lowLess]
  have isHigh : (c.hi >>> n).toNat = c.hi.toNat / 2 ^ n := by
    rw [toNat_ushiftRight, Nat.shiftRight_eq_div_pow]
  have whole : c.toNat = c.lo.toNat + 2 ^ n * (2 ^ (64 - n) * c.hi.toNat) := by
    rw [Dec128.toNat, split]
    ring
  have parts := Nat.div_add_mod c.hi.toNat (2 ^ n)
  rw [whole, Nat.add_mul_div_left _ _ (Nat.two_pow_pos n)]
  simp only [Dec128.toNat, joined, isHigh]
  calc 2 ^ (64 - n) * (c.hi.toNat % 2 ^ n) + c.lo.toNat / 2 ^ n + 2 ^ 64 * (c.hi.toNat / 2 ^ n)
      = c.lo.toNat / 2 ^ n + 2 ^ (64 - n) * (2 ^ n * (c.hi.toNat / 2 ^ n) + c.hi.toNat % 2 ^ n) := by
        rw [split]
        ring
    _ = c.lo.toNat / 2 ^ n + 2 ^ (64 - n) * c.hi.toNat := by rw [parts]

theorem overhang_large_iff (c : Dec128) :
    c.overhang > BitVec.ofNat 32 (2 <<< decimalMaxIntfactors) ↔ 1025 * 2 ^ 96 ≤ c.toNat := by
  have isOverhang := overhang_toNat c
  have bound : (BitVec.ofNat 32 (2 <<< decimalMaxIntfactors)).toNat = 1024 := rfl
  rw [gt_iff_lt, lt_def, bound]
  omega

theorem overhang_shift (c : Dec128) (n : Nat) {c' : Dec128} (isShifted : c'.toNat = c.toNat / 2 ^ n) :
    c.overhang >>> n = c'.overhang := by
  apply eq_of_toNat_eq
  rw [toNat_ushiftRight, Nat.shiftRight_eq_div_pow, overhang_toNat, overhang_toNat, isShifted,
    Nat.div_div_eq_div_mul, Nat.div_div_eq_div_mul, Nat.mul_comm]

theorem overhangMsf {c : Dec128} (some_ : c.overhang > 0) :
    ∃ msf : Nat, myGBitNthMsf (c.overhang.setWidth 64) = msf ∧ 2 ^ (96 + msf) ≤ c.toNat ∧ msf < 32 := by
  have isOverhang := overhang_toNat c
  have same : (c.overhang.setWidth 64).toNat = c.overhang.toNat := by
    rw [toNat_setWidth, Nat.mod_eq_of_lt (by omega)]
  have nonzero : c.overhang.toNat ≠ 0 := by
    have := lt_def.1 some_
    omega
  have isNonzero : c.overhang.setWidth 64 ≠ 0 := fun isZero => nonzero (by rw [← same, isZero]; rfl)
  obtain ⟨low, _⟩ := (Nat.log2_eq_iff nonzero).1 rfl
  refine ⟨c.overhang.toNat.log2, by rw [myGBitNthMsf, if_neg isNonzero, same], ?_, ?_⟩
  · rw [isOverhang] at low ⊢
    rw [Nat.pow_add]
    exact (Nat.mul_le_mul_left _ low).trans (Nat.mul_div_le _ _)
  · exact (Nat.log2_lt nonzero).2 c.overhang.isLt

/-- Both assertions hold after the shift by several bits. -/
theorem shiftMany_returns (s : Rescale) :
    ∃ s' overhang, shiftMany s = some (s', overhang) ∧ s'.texp ≤ s.texp ∧ s'.scale = s.scale := by
  have stays : ∃ s' overhang, some (s, s.c.overhang) = some (s', overhang) ∧ s'.texp ≤ s.texp ∧ s'.scale = s.scale :=
    ⟨s, _, rfl, Nat.le_refl _, rfl⟩
  unfold shiftMany
  simp only
  by_cases some_ : s.c.overhang > 0
  · rw [if_pos some_]
    obtain ⟨msf, isMsf, low⟩ := overhangMsf some_
    rw [isMsf]
    generalize isShift : (if (msf : Int) - (decimalMaxIntfactors + 2) ≥ s.texp then (s.texp : Int) - 1
      else msf - (decimalMaxIntfactors + 2)) = shift
    have bounds : shift ≤ (s.texp : Int) - 1 ∧ shift ≤ (msf : Int) - 11 := by
      have nine : (decimalMaxIntfactors : Int) = 9 := rfl
      split at isShift <;> omega
    by_cases shifts : shift > 0
    · rw [if_pos shifts]
      obtain ⟨n, isN⟩ : ∃ n : Nat, shift.toNat = n := ⟨_, rfl⟩
      rw [isN]
      have number := shiftBy_toNat s.c (show n ≤ 64 by omega)
      have overhang := overhang_shift s.c n number
      generalize Dec128.mk (s.c.lo >>> n ||| (s.c.hi &&& BitVec.ofNat 64 (2 ^ n - 1)) <<< (64 - n)) (s.c.hi >>> n) = c'
        at *
      have wide : 2 ^ (107 + n) ≤ s.c.toNat :=
        (Nat.pow_le_pow_right (by decide) (show 107 + n ≤ 96 + msf by omega)).trans low.1
      have large : 2 ^ 107 ≤ s.c.toNat / 2 ^ n := by
        rw [Nat.le_div_iff_mul_le (Nat.two_pow_pos n), ← Nat.pow_add]
        exact wide
      have isLarge : c'.overhang > BitVec.ofNat 32 (2 <<< decimalMaxIntfactors) := by
        rw [overhang_large_iff]
        omega
      rw [overhang, if_pos ⟨by omega, isLarge⟩]
      exact ⟨_, _, rfl, Nat.sub_le _ _, rfl⟩
    · rw [if_neg shifts]
      exact stays
  · rw [if_neg some_]
    exact stays

theorem shiftLoop_keeps : ∀ (fuel : Nat) (s : Rescale) (overhang : BitVec 32),
    (shiftLoop fuel s overhang).texp ≤ s.texp ∧ (shiftLoop fuel s overhang).scale = s.scale := by
  intro fuel
  induction fuel with
  | zero => exact fun s _ => ⟨Nat.le_refl _, rfl⟩
  | succ fuel next =>
    intro s overhang
    rw [shiftLoop]
    split
    next =>
      obtain ⟨exponent, scale⟩ := next s.shift (overhang >>> 1)
      exact ⟨exponent.trans (Nat.sub_le _ _), scale⟩
    next => exact ⟨Nat.le_refl _, rfl⟩

theorem fiveFactor_toNat {i : Nat} (inTable : i ≤ 9) : (decadeFactor i >>> i).toNat = 5 ^ i := by
  interval_cases i <;> rfl

/-- The passes go on until the exponent is used up or the greatest scale is reached. No assertion fails. -/
theorem reduceExp_spec (maxScale : Int) : ∀ (fuel : Nat) (s : Rescale), s.texp ≤ fuel →
    ∃ r, reduceExp maxScale fuel s = some r ∧ (r.texp = 0 ∨ maxScale ≤ r.scale) := by
  intro fuel
  induction fuel with
  | zero => exact fun s done => ⟨s, rfl, Or.inl (by omega)⟩
  | succ fuel next =>
    intro s enough
    rw [reduceExp]
    by_cases continues : s.texp > 0 ∧ s.scale ≤ maxScale
    · obtain ⟨many, overhang, isMany, exponent, scale⟩ := shiftMany_returns s
      obtain ⟨exponent', scale'⟩ := shiftLoop_keeps many.texp many overhang
      rw [if_pos continues]
      simp only [isMany]
      generalize shiftLoop many.texp many overhang = shifted at *
      generalize isI : (if shifted.scale + (if shifted.texp > decimalMaxIntfactors then (decimalMaxIntfactors : Int)
        else shifted.texp) > maxScale then maxScale - shifted.scale
        else if shifted.texp > decimalMaxIntfactors then (decimalMaxIntfactors : Int) else shifted.texp) = i
      have nine : decimalMaxIntfactors = 9 := rfl
      have isMin : i = min (min 9 (shifted.texp : Int)) (maxScale - s.scale) := by
        split at isI <;> split at isI <;> omega
      by_cases done : i = 0
      · rw [if_pos done]
        exact ⟨shifted, rfl, by omega⟩
      · rw [if_neg done]
        apply next
        dsimp only
        omega
    · rw [if_neg continues]
      exact ⟨s, rfl, by omega⟩

end MonoRuntime.Decimal
