/-
Module: MonoRuntime.Proofs.DecimalMult
Purpose: `mono_decimalMult` rounds the exact product: the digits that the first scaling step cuts off do not reach the
  half of the later divisions, and the fewest digits are lost. The one exception is a product whose rounding at scale
  28 carries out of the 96 bits, which overflows although a smaller scale would do.
Trusted boundary: none
Main exports: monoDecimalMult_meets_iff
-/
import MonoRuntime.Proofs.DecimalRounding

namespace MonoRuntime.Decimal

open HalfUp BitVec

/-! ### 192-bit arithmetic -/

/-- The number of 192 bits. -/
def Dec192.toNat (a : Dec192) : Nat :=
  a.low.toNat + 2 ^ 64 * a.mid.toNat + 2 ^ 128 * a.high.toNat

theorem mulWords_toNat (x y : BitVec 32) : (mulWords x y).toNat = x.toNat * y.toNat := by
  have isX : (x.setWidth 64).toNat = x.toNat := by
    rw [toNat_setWidth, Nat.mod_eq_of_lt (by omega)]
  rw [mulWords, wordMul_toNat _ y (by omega), isX]

theorem addCarry_spec (a b : BitVec 64) (carry : Nat) :
    (addCarry a b carry).1.toNat + 2 ^ 64 * (addCarry a b carry).2 = a.toNat + b.toNat + 2 ^ 64 * carry ∧
      (addCarry a b carry).2 ≤ carry + 1 := by
  have sum := toNat_add a b
  unfold addCarry
  simp only [lt_def]
  split
  next => omega
  next => omega

theorem mult96by96to192_spec (alo ami ahi blo bmi bhi : BitVec 32) : (mult96by96to192 alo ami ahi blo bmi bhi).toNat =
      (alo.toNat + 2 ^ 32 * ami.toNat + 2 ^ 64 * ahi.toNat) * (blo.toNat + 2 ^ 32 * bmi.toNat + 2 ^ 64 * bhi.toNat) := by
  have bound : ∀ x y : BitVec 32, x.toNat * y.toNat ≤ (2 ^ 32 - 1) * (2 ^ 32 - 1) := fun x y =>
    Nat.mul_le_mul (by omega) (by omega)
  have fits : (alo.toNat + 2 ^ 32 * ami.toNat + 2 ^ 64 * ahi.toNat)
        * (blo.toNat + 2 ^ 32 * bmi.toNat + 2 ^ 64 * bhi.toNat)
      ≤ (2 ^ 96 - 1) * (2 ^ 96 - 1) := Nat.mul_le_mul (by omega) (by omega)
  unfold mult96by96to192
  simp only
  have p0 := mulWords_toNat alo blo
  generalize mulWords alo blo = a0 at *
  -- The second column.
  have p1 := addCarry_spec (a0 >>> 32) (mulWords alo bmi) 0
  rw [mulWords_toNat, highHalf_toNat] at p1
  generalize addCarry (a0 >>> 32) (mulWords alo bmi) 0 = a1 at *
  have p2 := addCarry_spec a1.1 (mulWords ami blo) a1.2
  rw [mulWords_toNat] at p2
  generalize addCarry a1.1 (mulWords ami blo) a1.2 = a2 at *
  -- The third column.
  have p3 := addCarry_spec (a2.1 >>> 32) (mulWords alo bhi) 0
  rw [mulWords_toNat, highHalf_toNat] at p3
  generalize addCarry (a2.1 >>> 32) (mulWords alo bhi) 0 = a3 at *
  have p4 := addCarry_spec a3.1 (mulWords ami bmi) a3.2
  rw [mulWords_toNat] at p4
  generalize addCarry a3.1 (mulWords ami bmi) a3.2 = a4 at *
  have p5 := addCarry_spec a4.1 (mulWords ahi blo) a4.2
  rw [mulWords_toNat] at p5
  generalize addCarry a4.1 (mulWords ahi blo) a4.2 = a5 at *
  -- The fourth column.
  have carried : (a5.1 >>> 32 + BitVec.ofNat 64 a2.2).toNat = a5.1.toNat / 2 ^ 32 + a2.2 := by
    rw [toNat_add, highHalf_toNat, BitVec.toNat_ofNat, Nat.mod_eq_of_lt (by omega : a2.2 < 2 ^ 64),
      Nat.mod_eq_of_lt (by omega)]
  have p6 := addCarry_spec (a5.1 >>> 32 + BitVec.ofNat 64 a2.2) (mulWords ami bhi) 0
  rw [mulWords_toNat, carried] at p6
  generalize addCarry (a5.1 >>> 32 + BitVec.ofNat 64 a2.2) (mulWords ami bhi) 0 = a6 at *
  have p7 := addCarry_spec a6.1 (mulWords ahi bmi) a6.2
  rw [mulWords_toNat] at p7
  generalize addCarry a6.1 (mulWords ahi bmi) a6.2 = a7 at *
  -- The fifth and the sixth.
  have h8 := bound ahi bhi
  have p8 : (a7.1 >>> 32 + BitVec.ofNat 64 a5.2 + mulWords ahi bhi).toNat
      = a7.1.toNat / 2 ^ 32 + a5.2 + ahi.toNat * bhi.toNat := by
    rw [toNat_add, toNat_add, mulWords_toNat, highHalf_toNat, BitVec.toNat_ofNat,
      Nat.mod_eq_of_lt (by omega : a5.2 < 2 ^ 64), Nat.mod_eq_of_lt (by omega : a7.1.toNat / 2 ^ 32 + a5.2 < 2 ^ 64),
      Nat.mod_eq_of_lt (by omega)]
  generalize a7.1 >>> 32 + BitVec.ofNat 64 a5.2 + mulWords ahi bhi = a8 at *
  have p9 : (a8 >>> 32 + BitVec.ofNat 64 a7.2).toNat = a8.toNat / 2 ^ 32 + a7.2 := by
    rw [toNat_add, highHalf_toNat, BitVec.toNat_ofNat, Nat.mod_eq_of_lt (by omega : a7.2 < 2 ^ 64),
      Nat.mod_eq_of_lt (by omega)]
  generalize a8 >>> 32 + BitVec.ofNat 64 a7.2 = a9 at *
  have digits : alo.toNat * blo.toNat + 2 ^ 32 * (alo.toNat * bmi.toNat + ami.toNat * blo.toNat)
        + 2 ^ 64 * (alo.toNat * bhi.toNat + ami.toNat * bmi.toNat + ahi.toNat * blo.toNat)
        + 2 ^ 96 * (ami.toNat * bhi.toNat + ahi.toNat * bmi.toNat) + 2 ^ 128 * (ahi.toNat * bhi.toNat)
      = a0.toNat % 2 ^ 32 + 2 ^ 32 * (a2.1.toNat % 2 ^ 32) + 2 ^ 64 * (a5.1.toNat % 2 ^ 32)
        + 2 ^ 96 * (a7.1.toNat % 2 ^ 32) + 2 ^ 128 * (a8.toNat % 2 ^ 32) + 2 ^ 160 * a9.toNat := by omega
  have whole : (alo.toNat + 2 ^ 32 * ami.toNat + 2 ^ 64 * ahi.toNat)
        * (blo.toNat + 2 ^ 32 * bmi.toNat + 2 ^ 64 * bhi.toNat)
      = a0.toNat % 2 ^ 32 + 2 ^ 32 * (a2.1.toNat % 2 ^ 32) + 2 ^ 64 * (a5.1.toNat % 2 ^ 32)
        + 2 ^ 96 * (a7.1.toNat % 2 ^ 32) + 2 ^ 128 * (a8.toNat % 2 ^ 32) + 2 ^ 160 * a9.toNat := by
    rw [← digits]
    ring
  have last : 2 ^ 160 * a9.toNat < 2 ^ 160 * 2 ^ 32 :=
    calc 2 ^ 160 * a9.toNat
        ≤ (alo.toNat + 2 ^ 32 * ami.toNat + 2 ^ 64 * ahi.toNat)
            * (blo.toNat + 2 ^ 32 * bmi.toNat + 2 ^ 64 * bhi.toNat) := by
          rw [whole]
          exact Nat.le_add_left _ _
      _ ≤ (2 ^ 96 - 1) * (2 ^ 96 - 1) := fits
      _ < 2 ^ 160 * 2 ^ 32 := by decide
  unfold Dec192.toNat
  simp only [joinWords_toNat, toNat_setWidth]
  rw [Nat.mod_eq_of_lt (Nat.lt_of_mul_lt_mul_left last), whole]
  ring

theorem div192by32_spec (x : Dec192) (factor : BitVec 32) (positive : 0 < factor.toNat) :
    (div192by32 x factor).toNat = x.toNat / factor.toNat := by
  obtain ⟨high, highRest⟩ := @divWord_spec 0 x.high factor positive
  obtain ⟨mid, midRest⟩ := @divWord_spec _ x.mid factor highRest
  obtain ⟨low, lowRest⟩ := @divWord_spec _ x.low factor midRest
  unfold div192by32 Dec192.toNat
  simp only
  generalize divWord 0 x.high factor = first at *
  generalize divWord first.2 x.mid factor = second at *
  generalize divWord second.2 x.low factor = third at *
  have zero : (0 : BitVec 64).toNat = 0 := rfl
  have whole : (third.1.toNat + 2 ^ 64 * second.1.toNat + 2 ^ 128 * first.1.toNat) * factor.toNat + third.2.toNat
      = x.low.toNat + 2 ^ 64 * x.mid.toNat + 2 ^ 128 * x.high.toNat := by
    calc (third.1.toNat + 2 ^ 64 * second.1.toNat + 2 ^ 128 * first.1.toNat) * factor.toNat + third.2.toNat
        = third.1.toNat * factor.toNat + third.2.toNat + 2 ^ 64 * (second.1.toNat * factor.toNat)
          + 2 ^ 128 * (first.1.toNat * factor.toNat) := by ring
      _ = x.low.toNat + 2 ^ 64 * x.mid.toNat + 2 ^ 128 * x.high.toNat := by omega
  rw [← whole]
  exact (Nat.div_eq_of_lt_le (Nat.le_add_right _ _) (by rw [Nat.succ_mul]; omega)).symm

/-! ### The first scaling step -/

/-- What the first scaling step leaves: some digits are cut off, and where they are, what is left still has more than
96 bits. -/
structure ScaledDown (n : Nat) (scale : Int) (result : Dec192 × Int) (cut : Nat) : Prop where
  quotient : result.1.toNat = n / 10 ^ cut
  scale : result.2 = scale - cut
  small : result.1.high = 0
  above : cut ≠ 0 → 2 ^ 96 ≤ result.1.toNat

theorem scaleDown_continues {c : Dec192} {factor : BitVec 32} :
    c.high ≠ 0 ∨ c.mid >>> 32 ≥ factor.setWidth 64 ↔ 2 ^ 96 * factor.toNat ≤ c.toNat := by
  have zero : (0 : BitVec 64).toNat = 0 := rfl
  have isFactor : (factor.setWidth 64).toNat = factor.toNat := by
    rw [toNat_setWidth, Nat.mod_eq_of_lt (by omega)]
  rw [Ne, ← toNat_inj, zero, ge_iff_le, le_def, isFactor, highHalf_toNat]
  unfold Dec192.toNat
  omega

theorem scaleDown_done {fuel : Nat} {c : Dec192} {factor : BitVec 32} {scale : Int}
    (fits : c.toNat < 2 ^ 96 * factor.toNat) : scaleDown (fuel + 1) c factor scale = some (c, scale) ∧ c.high = 0 := by
  have stop := mt (@scaleDown_continues c factor).mp (Nat.not_le.mpr fits)
  refine ⟨by rw [scaleDown, if_neg stop], ?_⟩
  by_contra some_
  exact stop (Or.inl some_)

/-- A number that is not far above takes one more pass, with the smaller factor. -/
theorem scaleDown_last {fuel : Nat} {c : Dec192} {scale : Int} (below : c.toNat < 2 ^ 128 * 100) :
    ∃ result cut, scaleDown (fuel + 2) c (decadeFactor 9) scale = some result ∧ ScaledDown c.toNat scale result cut := by
  have six : (decadeFactor 9 / 1000).toNat = 10 ^ 6 := rfl
  by_cases fits : c.toNat < 2 ^ 96 * 10 ^ 9
  · obtain ⟨run, small⟩ := @scaleDown_done (fuel + 1) c (decadeFactor 9) scale fits
    refine ⟨_, 0, run, ⟨?_, ?_, small, fun wrong => absurd rfl wrong⟩⟩
    · rw [Nat.pow_zero, Nat.div_one]
    · exact (Int.sub_zero scale).symm
  · have quotient := div192by32_spec c (decadeFactor 9 / 1000) (by decide)
    rw [six] at quotient
    have less : c.high < 100 := by
      have hundred : (100 : BitVec 64).toNat = 100 := rfl
      rw [lt_def, hundred]
      unfold Dec192.toNat at below
      omega
    obtain ⟨run, small⟩ := @scaleDown_done fuel (div192by32 c (decadeFactor 9 / 1000)) (decadeFactor 9 / 1000)
      (scale - (decimalMaxIntfactors - 3)) (by omega)
    refine ⟨(div192by32 c (decadeFactor 9 / 1000), scale - (decimalMaxIntfactors - 3)), 6, ?_,
      ⟨quotient, rfl, small, fun _ => ?_⟩⟩
    · rw [scaleDown, if_pos (scaleDown_continues.mpr (Nat.not_lt.mp fits)), if_pos less, run]
    · show 2 ^ 96 ≤ (div192by32 c (decadeFactor 9 / 1000)).toNat
      omega

theorem scaleDown_spec : ∀ (passes : Nat) (c : Dec192) (scale : Int), c.toNat < 2 ^ 128 * 100 * 10 ^ (9 * passes) →
    ∃ result cut, scaleDown (passes + 2) c (decadeFactor 9) scale = some result ∧ ScaledDown c.toNat scale result cut
  | 0, c, scale, below => scaleDown_last (by rwa [Nat.mul_zero, Nat.pow_zero, Nat.mul_one] at below)
  | passes + 1, c, scale, below => by
      by_cases few : c.toNat < 2 ^ 128 * 100
      · exact scaleDown_last few
      · have nine : (decadeFactor 9).toNat = 10 ^ 9 := rfl
        have hundred : (100 : BitVec 64).toNat = 100 := rfl
        have many : ¬ c.high < 100 := by
          rw [lt_def, hundred]
          unfold Dec192.toNat at few
          omega
        have continues : 2 ^ 96 * (decadeFactor 9).toNat ≤ c.toNat := by
          omega
        have quotient := div192by32_spec c (decadeFactor 9) (by decide)
        rw [nine] at quotient
        obtain ⟨result, cut, run, scaled⟩ := scaleDown_spec passes (div192by32 c (decadeFactor 9))
          (scale - decimalMaxIntfactors) (by
            rw [quotient, Nat.div_lt_iff_lt_mul (by decide), Nat.mul_assoc, ← Nat.pow_add]
            exact below)
        refine ⟨result, 9 + cut, ?_, ⟨?_, ?_, scaled.small, fun _ => ?_⟩⟩
        · rw [scaleDown, if_pos (scaleDown_continues.mpr continues), if_neg many, run]
        · rw [scaled.quotient, quotient, Nat.div_div_eq_div_mul, ← Nat.pow_add]
        · rw [scaled.scale]
          unfold decimalMaxIntfactors
          omega
        · by_cases none : cut = 0
          · have is := scaled.quotient
            rw [none, Nat.pow_zero, Nat.div_one] at is
            omega
          · exact scaled.above none

/-! ### The multiplication -/

/-- The product of the mantissas. -/
def mantissaProduct (a b : DecimalRepr) : Nat :=
  a.mantissa * b.mantissa

/-- The digits behind the point of the exact product. -/
def scaleSum (a b : DecimalRepr) : Nat :=
  a.scale.toNat + b.scale.toNat

/-- The product has digits behind the 28th, and what is before them is all ones and is rounded up. -/
def CarriesOut (a b : DecimalRepr) : Prop :=
  28 < scaleSum a b ∧ (2 ^ 97 - 1) * 10 ^ (scaleSum a b - 28) ≤ 2 * mantissaProduct a b ∧
    mantissaProduct a b < 2 ^ 96 * 10 ^ (scaleSum a b - 28)

theorem carriesOut_iff {a b : DecimalRepr} :
    CarriesOut a b ↔ 28 < scaleSum a b ∧ 2 ^ 96 ≤ roundDiv (mantissaProduct a b) (10 ^ (scaleSum a b - 28)) ∧
      mantissaProduct a b / 10 ^ (scaleSum a b - 28) < 2 ^ 96 := by
  have positive : 0 < 10 ^ (scaleSum a b - 28) := Nat.pow_pos (by decide)
  rw [CarriesOut, le_roundDiv_iff positive, Nat.div_lt_iff_lt_mul positive]
  generalize 10 ^ (scaleSum a b - 28) = unit
  omega

theorem scaleDown_product (a b : DecimalRepr) (scale : Int) :
    ∃ result cut, scaleDown 4 (mult96by96to192 a.lo32 a.mid32 a.hi32 b.lo32 b.mid32 b.hi32)
        (decadeFactor decimalMaxIntfactors) scale = some result ∧ ScaledDown (mantissaProduct a b) scale result cut := by
  have product := mult96by96to192_spec a.lo32 a.mid32 a.hi32 b.lo32 b.mid32 b.hi32
  have fits : a.mantissa * b.mantissa < 2 ^ 96 * 2 ^ 96 := Nat.mul_lt_mul'' a.mantissa_lt b.mantissa_lt
  unfold mantissaProduct
  rw [DecimalRepr.mantissa, DecimalRepr.mantissa, ← product] at fits ⊢
  exact scaleDown_spec 2 _ scale (Nat.lt_of_lt_of_le fits (by decide))

/-- The second scaling step rounds the exact product, where its rounding at scale 28 does not carry out of 96 bits. -/
theorem normalize128_product {n total cut : Nat} {c : Dec128} {roundBit : Bool} (le : cut ≤ total)
    (above : cut ≠ 0 → 2 ^ 96 ≤ n / 10 ^ cut) (quotient : c.toNat = n / 10 ^ cut / 10 ^ (total - cut - 28))
    (round : roundBit = if 28 < total - cut then roundsUp (n / 10 ^ cut) (10 ^ (total - cut - 28)) else false)
    (stays : ¬ (28 < total ∧ 2 ^ 96 ≤ roundDiv n (10 ^ (total - 28)) ∧ n / 10 ^ (total - 28) < 2 ^ 96)) :
    ((normalize128 c (min (total - cut) 28 : Nat) true roundBit).1 = decimalOverflow ∧ 2 ^ 96 ≤ roundDiv n (10 ^ total)) ∨
      ∃ k, Shortened n (total - 28) total (normalize128 c (min (total - cut) 28 : Nat) true roundBit) k := by
  by_cases more : 28 < total - cut
  · -- The digits behind the 28th are dropped at once.
    have all : cut + (total - cut - 28) = total - 28 := by omega
    have even : 2 ∣ 10 ^ (total - cut - 28) := two_dvd_ten_pow (by omega)
    rw [Nat.div_div_eq_div_mul, ← Nat.pow_add, all] at quotient
    rw [if_pos more, roundsUp_div (ten_pow_pos _) even, ← Nat.pow_add, all] at round
    refine normalize128_cases (by omega) (Dropped.intro quotient (fun _ => round) fun last => ?_)
    rw [← Bool.not_eq_true]
    intro up
    refine stays ⟨by omega, ?_, by omega⟩
    rw [roundDiv_eq (ten_pow_pos _), ← quotient, ← round, up, Bool.toNat_true, last]
  · have none : total - cut - 28 = 0 := by omega
    rw [none, Nat.pow_zero, Nat.div_one] at quotient
    rw [if_neg more] at round
    have dropped : Dropped n cut c roundBit c.overhang := by
      refine Dropped.intro quotient (fun below => ?_) fun _ => round
      have noCut : cut = 0 := by
        by_contra some_
        have := above some_
        omega
      rw [round, noCut, Nat.pow_zero, roundsUp_one]
    have isScale : min (total - cut) 28 = total - cut := by omega
    rw [isScale]
    obtain overflow | ⟨k, shortened⟩ := normalize128_cases (Nat.add_sub_cancel' le) dropped
    · exact Or.inl overflow
    · refine Or.inr ⟨k, ?_, shortened.le_total, shortened.success, shortened.scale, shortened.mantissa⟩
      obtain noCut | some_ := Nat.eq_zero_or_pos cut
      · have same : total - 28 = cut := by omega
        rw [same]
        exact shortened.fewest
      · have least := @div_le_roundDiv n (10 ^ cut) (ten_pow_pos _)
        exact shortened.fewest.of_above (Nat.le_trans (above (by omega)) least) (by omega)

theorem normalize128_small {c : Dec128} (scale : Int) (roundBit : Bool) (small : c.toNat < 2 ^ 96) :
    normalize128 c scale true roundBit = (decimalSuccess, if roundBit then roundUp128 c else c, scale) := by
  have zero : (0 : BitVec 32).toNat = 0 := rfl
  have none : c.overhang = 0 := by
    apply eq_of_toNat_eq
    rw [overhang_toNat, zero, Nat.div_eq_of_lt small]
  rw [normalize128, normalizeLoop, if_pos none]
  simp only [true_and]

theorem monoDecimalMult_cases (a b : DecimalRepr) : (monoDecimalMult a b = some (decimalOverflow, a) ∧
        (CarriesOut a b ∨ 2 ^ 96 ≤ roundDiv (mantissaProduct a b) (10 ^ scaleSum a b))) ∨
      ¬ CarriesOut a b ∧ ∃ k r, monoDecimalMult a b = some (decimalSuccess, r) ∧
        Fewest 10 (2 ^ 96) (mantissaProduct a b) (scaleSum a b - 28) k ∧ k ≤ scaleSum a b ∧
        r.sign = (a.sign ^^ b.sign) ∧ r.scale.toNat = scaleSum a b - k ∧
        r.mantissa = roundDiv (mantissaProduct a b) (10 ^ k) := by
  have isScale : (a.scale.toNat : Int) + b.scale.toNat = (scaleSum a b : Nat) := by
    unfold scaleSum
    omega
  obtain ⟨⟨c, scale⟩, cut, run, scaled⟩ := scaleDown_product a b (scaleSum a b : Nat)
  rw [carriesOut_iff]
  unfold monoDecimalMult
  rw [isScale]
  simp only [run]
  generalize mantissaProduct a b = n at *
  generalize scaleSum a b = total at *
  have isCut : ({ lo := c.low, hi := c.mid } : Dec128).toNat = n / 10 ^ cut := by
    have small := scaled.small
    rw [← scaled.quotient]
    unfold Dec128.toNat Dec192.toNat
    rw [small]
    rfl
  have above := scaled.above
  rw [scaled.quotient] at above
  have isScale := scaled.scale
  generalize ({ lo := c.low, hi := c.mid } : Dec128) = c at *
  by_cases many : total < cut
  · -- More digits were cut off than there are behind the point.
    have above := above (by omega)
    obtain ⟨c', scale', run⟩ := @rescale128_negative c scale (by omega) (by rwa [isCut])
    refine Or.inl ⟨?_, Or.inr ?_⟩
    · rw [run]
      rfl
    · calc 2 ^ 96 ≤ n / 10 ^ cut := above
        _ ≤ n / 10 ^ total := Nat.div_le_div_left (Nat.pow_le_pow_right (by decide) (Nat.le_of_lt many)) (ten_pow_pos _)
        _ ≤ roundDiv n (10 ^ total) := div_le_roundDiv (ten_pow_pos _)
  · have isScale : scale = (total - cut : Nat) := by omega
    obtain ⟨c', roundBit, run, quotient, round⟩ := rescale128_spec c (total - cut)
    rw [isScale, run]
    rw [isCut] at quotient round
    simp only
    by_cases carries : 28 < total ∧ 2 ^ 96 ≤ roundDiv n (10 ^ (total - 28)) ∧ n / 10 ^ (total - 28) < 2 ^ 96
    · -- The number fits, so that the normalization does not look at the carry.
      refine Or.inl ⟨?_, Or.inl carries⟩
      obtain ⟨large, up, fits⟩ := carries
      have less : cut < total - 28 := by
        by_contra more
        have down : n / 10 ^ cut ≤ n / 10 ^ (total - 28) :=
          Nat.div_le_div_left (Nat.pow_le_pow_right (by decide) (Nat.not_lt.mp more)) (ten_pow_pos _)
        have := above (by omega)
        omega
      have all : cut + (total - cut - 28) = total - 28 := by omega
      have even : 2 ∣ 10 ^ (total - cut - 28) := two_dvd_ten_pow (by omega)
      rw [Nat.div_div_eq_div_mul, ← Nat.pow_add, all] at quotient
      rw [if_pos (by omega), roundsUp_div (ten_pow_pos _) even, ← Nat.pow_add, all] at round
      rw [roundDiv_eq (ten_pow_pos _), ← quotient, ← round] at up
      have isUp : roundBit = true := by
        rw [← Bool.not_eq_false]
        intro down
        rw [down, Bool.toNat_false] at up
        omega
      rw [isUp, Bool.toNat_true] at up
      rw [normalize128_small _ _ (by omega), isUp, if_pos rfl, if_neg (not_not.mpr rfl),
        pack128toDecimal_overflow a _ _ (by rw [roundUp128_toNat (by omega)]; exact up)]
    · obtain ⟨overflow, isAbove⟩ | ⟨k, shortened⟩ :=
        normalize128_product (Nat.not_lt.mp many) above quotient round carries
      · refine Or.inl ⟨?_, Or.inr isAbove⟩
        rw [overflow, if_pos (by decide)]
      · have below := shortened.fewest.below
        have least := shortened.fewest.least_le
        obtain ⟨r, isPacked, isSign, isScale, isMantissa⟩ := @pack128toDecimal_fits a
          (normalize128 c' (min (total - cut) 28 : Nat) true roundBit).2.1 (total - k) (a.sign ^^ b.sign) (by omega)
          (by rwa [shortened.mantissa])
        refine Or.inr ⟨carries, k, r, ?_, shortened.fewest, shortened.le_total, isSign, isScale, ?_⟩
        · rw [shortened.success, if_neg (not_not.mpr rfl), shortened.scale, isPacked]
        · rw [isMantissa, shortened.mantissa]

/-! ### The result -/

/-- What the return code and the result owe to the exact product. -/
structure MultMeets (a b : DecimalRepr) (rc : Int) (r : DecimalRepr) : Prop where
  succeeds : |a.value * b.value| < overflowBound → rc = decimalSuccess
  near : rc = decimalSuccess → |r.value - a.value * b.value| ≤ r.halfUnit
  exact : Representable (a.value * b.value) → rc = decimalSuccess ∧ r.value = a.value * b.value
  scale_le : rc = decimalSuccess → r.scale.toNat ≤ 28
  sign : rc = decimalSuccess → r.sign = (a.sign ^^ b.sign)
  overflow : rc = decimalOverflow → overflowBound ≤ |a.value * b.value|

theorem value_mul (a b : DecimalRepr) :
    a.value * b.value = signFactor (a.sign ^^ b.sign) * (mantissaProduct a b / 10 ^ scaleSum a b) := by
  have signs : signFactor (a.sign ^^ b.sign) = signFactor a.sign * signFactor b.sign := by
    cases a.sign <;> cases b.sign <;> norm_num [signFactor]
  rw [value_eq, value_eq, signs, mantissaProduct, scaleSum, pow_add, Nat.cast_mul, ← div_mul_div_comm]
  ring

theorem CarriesOut.lt_bound {a b : DecimalRepr} (carries : CarriesOut a b) :
    roundDiv (mantissaProduct a b) (10 ^ scaleSum a b) < 2 ^ 96 := by
  obtain ⟨large, _, fits⟩ := carries
  have split : 10 ^ scaleSum a b = 10 ^ (scaleSum a b - 28) * 10 ^ 28 := by
    rw [← Nat.pow_add, Nat.sub_add_cancel (Nat.le_of_lt large)]
  rw [roundDiv_lt_iff (Nat.pow_pos (by decide)), split]
  omega

/-- The multiplication does what it should exactly where the rounding at scale 28 does not carry out of 96 bits. -/
theorem monoDecimalMult_meets_iff (a b : DecimalRepr) :
    (∃ rc r, monoDecimalMult a b = some (rc, r) ∧ MultMeets a b rc r) ↔ ¬ CarriesOut a b := by
  have magnitude : |a.value * b.value| = (mantissaProduct a b : ℚ) / 10 ^ scaleSum a b := by
    rw [value_mul, abs_signed]
  constructor
  · rintro ⟨rc, r, run, meets⟩ carries
    obtain ⟨overflow, _⟩ | ⟨stays, _⟩ := monoDecimalMult_cases a b
    · rw [run] at overflow
      cases overflow
      have bound := meets.overflow rfl
      rw [magnitude, ← le_roundDiv_iff_value] at bound
      exact absurd carries.lt_bound (Nat.not_lt.mpr bound)
    · exact stays carries
  · intro stays
    obtain ⟨run, above⟩ | ⟨_, k, r, run, fewest, le, isSign, isScale, isMantissa⟩ := monoDecimalMult_cases a b
    · have bound := le_roundDiv_iff_value.mp (above.resolve_left stays)
      rw [← magnitude] at bound
      refine ⟨_, _, run, fun below => absurd below (not_lt.mpr bound), fun wrong => absurd wrong (by decide),
        fun is => absurd is.lt (not_lt.mpr bound), fun wrong => absurd wrong (by decide),
        fun wrong => absurd wrong (by decide), fun _ => bound⟩
    · have rounded := Rounded.of_fewest fewest le isScale isMantissa
      rw [isSign, ← value_mul] at rounded
      have least := fewest.least_le
      exact ⟨_, _, run, fun _ => rfl, fun _ => rounded.near, fun is => ⟨rfl, rounded.exact is⟩, fun _ => by omega,
        fun _ => isSign, fun wrong => absurd wrong (by decide)⟩

/-- 5723.5 times 0.0013842607235828485645766393 overflows, although the product is below eight. -/
theorem monoDecimalMult_carries :
    ¬ ∃ rc r, monoDecimalMult (.of false 1 57235) (.of false 28 13842607235828485645766393) = some (rc, r) ∧
      MultMeets (.of false 1 57235) (.of false 28 13842607235828485645766393) rc r := by
  rintro ⟨rc, r, run, meets⟩
  have overflow : monoDecimalMult (.of false 1 57235) (.of false 28 13842607235828485645766393)
      = some (decimalOverflow, .of false 1 57235) := by decide
  cases run
  have bound := meets.overflow rfl
  rw [value_of false (by decide) (by decide), value_of false (by decide) (by decide), overflowBound] at bound
  norm_num [signFactor] at bound

end MonoRuntime.Decimal
