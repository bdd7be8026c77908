/-
Module: MonoRuntime.Proofs.StrengthReduction
Purpose: The instructions that the strength reduction of `mono_local_cprop` substitutes compute what the replaced instruction
  does, for every content of the registers, but for the most negative immediate, which counts as a power of two, and for the
  back end whose `OP_SHL_IMM` shifts less than the whole register.
Trusted boundary: none (fully proved)
Main exports: strengthReduce_meets_iff, strengthReduce_misses
-/
import MonoRuntime.Mini.StrengthReduction
import MonoRuntime.Lib.Bitmap
import MonoRuntime.Lib.WordDivision

namespace MonoRuntime.LocalCprop

open MonoRuntime.Bitmap Function
open MonoRuntime.WordDivision

/-! ### Powers of two -/

section Powers

variable {val : BitVec 32}

theorem getLsbD_behind {i b : Nat} (word : b < 32) : (0xfffffffe#32 <<< i).getLsbD b = decide (i < b) := by
  have above : 0xfffffffe#32 = ~~~ 1#32 := by decide
  rw [above, BitVec.getLsbD_shiftLeft, BitVec.getLsbD_not, BitVec.getLsbD_one, decide_eq_true word, Bool.true_and]
  by_cases lower : b < i
  · simp [lower, Nat.le_of_lt lower]
  · by_cases same : b = i
    · simp [same]
    · have later : i < b := by omega
      have inside : b - i < 32 := by omega
      have first : b - i ≠ 0 := by omega
      simp [lower, later, inside, first]

theorem twoPow_ne_zero {p : Nat} (small : p < 32) : BitVec.twoPow 32 p ≠ 0 := by
  intro zero
  have value := BitVec.toNat_twoPow_of_lt small
  rw [zero] at value
  exact (Nat.two_pow_pos p).ne value

theorem toInt_twoPow {p : Nat} (small : p < 31) : 0 < (BitVec.twoPow 32 p).toInt := by
  rw [BitVec.toInt_twoPow, if_neg (by omega), if_neg (by omega)]
  exact_mod_cast Nat.two_pow_pos p

theorem twoPow_ne_min {p : Nat} (small : p < 31) : BitVec.twoPow 32 p ≠ minInt32 := by
  intro same
  have positive := toInt_twoPow small
  rw [same] at positive
  contradiction

theorem twoPow_ne_neg_one {p : Nat} (small : p < 32) : BitVec.twoPow 32 p ≠ -1 := by
  intro same
  by_cases last : p = 31
  · subst last
    contradiction
  · have positive := toInt_twoPow (show p < 31 by omega)
    rw [same] at positive
    contradiction

theorem powerOfTwoLoop_spec (val : BitVec 32) : ∀ rounds i, i + rounds = 32 → (∀ b < i, val.getLsbD b = false) →
      ∃ stop ≤ 32, powerOfTwoLoop val rounds i (1#32 <<< i) (0xfffffffe#32 <<< i) = (stop, 0xfffffffe#32 <<< stop) ∧
        (∀ b < stop, val.getLsbD b = false) ∧ (stop < 32 → val.getLsbD stop = true)
  | 0, i, total, clear => ⟨i, by omega, rfl, clear, by omega⟩
  | rounds + 1, i, total, clear => by
      have bit : val &&& 1#32 <<< i = 0 ↔ val.getLsbD i = false := and_bit_eq_zero_iff (by omega)
      unfold powerOfTwoLoop
      by_cases set : val.getLsbD i = true
      · rw [if_pos (by rw [Ne, bit, set]; decide)]
        exact ⟨i, by omega, rfl, clear, fun _ => set⟩
      · rw [if_neg (not_not.mpr (bit.mpr (Bool.eq_false_iff.mpr set))), ← BitVec.shiftLeft_add, ← BitVec.shiftLeft_add]
        refine powerOfTwoLoop_spec val rounds (i + 1) (by omega) fun b lower => ?_
        rcases Nat.lt_succ_iff_lt_or_eq.mp lower with earlier | rfl
        · exact clear b earlier
        · exact Bool.eq_false_iff.mpr set

theorem monoIsPowerOfTwo_spec (val : BitVec 32) : (∃ p : Nat, p < 32 ∧ monoIsPowerOfTwo val = p ∧ val = 1#32 <<< p) ∨
      monoIsPowerOfTwo val = -1 ∧ ∀ p : Nat, p < 32 → val ≠ 1#32 <<< p := by
  obtain ⟨stop, le, stops, clear, set⟩ := powerOfTwoLoop_spec val 32 0 rfl (by simp)
  unfold monoIsPowerOfTwo
  rw [BitVec.shiftLeft_zero, BitVec.shiftLeft_zero] at stops
  rw [stops]
  simp only
  have bit : ∀ p : Nat, p < 32 → ∀ b < 32, (1#32 <<< p).getLsbD b = decide (p = b) := by
    intro p small b word
    rw [← BitVec.twoPow_eq, BitVec.getLsbD_twoPow, decide_eq_true small, Bool.true_and]
  by_cases none : stop = 32
  · rw [if_pos (Or.inl none)]
    refine Or.inr ⟨rfl, fun p small is => ?_⟩
    have unset := clear p (by omega)
    rw [is, bit p small p small] at unset
    simp at unset
  · have small : stop < 32 := by omega
    by_cases more : val &&& 0xfffffffe#32 <<< stop = 0
    · rw [if_neg (by simp [none, more])]
      refine Or.inl ⟨stop, small, rfl, BitVec.eq_of_getLsbD_eq fun b word => ?_⟩
      rw [bit stop small b word]
      rcases Nat.lt_trichotomy b stop with earlier | rfl | later
      · rw [clear b earlier, decide_eq_false (by omega)]
      · rw [set small, decide_eq_true rfl]
      · have masked := congrArg (fun word => word.getLsbD b) more
        rw [BitVec.getLsbD_and, getLsbD_behind word, decide_eq_true later, Bool.and_true] at masked
        rw [masked, decide_eq_false (by omega)]
        exact BitVec.getLsbD_zero
    · rw [if_pos (Or.inr more)]
      refine Or.inr ⟨rfl, fun p word is => more (BitVec.eq_of_getLsbD_eq fun b inside => ?_)⟩
      have place : stop = p := by
        by_contra other
        have first := set small
        rw [is, bit p word stop small] at first
        exact other (of_decide_eq_true first).symm
      subst place
      rw [is, BitVec.getLsbD_and, getLsbD_behind inside, bit stop small b inside]
      by_cases same : stop = b
      · simp [same]
      · simp [same]

end Powers

/-! ### Words of a register -/

section Words

variable {x imm : BitVec 64} {high high' word word' : BitVec 32} {p : Nat}

@[simp]
theorem low_append : low (high ++ word) = word :=
  BitVec.setWidth_append_eq_right

theorem low_meant {isInt : Bool} : low (meant isInt x) = low x := by
  cases isInt with
  | false => rfl
  | true => exact BitVec.setWidth_setWidth_of_le (low x) (show 32 ≤ 64 by decide)

theorem meant_int_iff {y : BitVec 64} : meant true x = meant true y ↔ low x = low y := by
  constructor
  · intro same
    rw [← low_meant, same, low_meant]
  · intro same
    unfold meant
    rw [if_pos rfl, if_pos rfl, same]

@[simp]
theorem low_signExtend : low (word.signExtend 64) = word := by
  apply BitVec.eq_of_getLsbD_eq
  intro b inside
  rw [low, BitVec.getLsbD_setWidth, BitVec.getLsbD_signExtend]
  simp [inside, Nat.lt_trans inside (show 32 < 64 by decide)]

theorem low_mul : low (x * imm) = low x * low imm :=
  BitVec.setWidth_mul x imm (by decide)

theorem toInt_low (accepted : monoArchIsInstImm imm) : (low imm).toInt = imm.toInt := by
  obtain ⟨lower, upper⟩ := of_decide_eq_true accepted
  have unsigned := BitVec.toInt_eq_toNat_cond imm
  have turns : ∃ turns : Int, (imm.toNat : Int) = imm.toInt + turns * ((2 ^ 32 : Nat) : Int) := by
    split at unsigned
    · exact ⟨0, by omega⟩
    · exact ⟨2 ^ 32, by omega⟩
  obtain ⟨turns, same⟩ := turns
  rw [low, BitVec.toInt_setWidth, same, Int.add_mul_bmod_self_right, Int.bmod_eq_of_le (by omega) (by omega)]

theorem eq_twoPow (accepted : monoArchIsInstImm imm) (small : p < 31) (power : low imm = BitVec.twoPow 32 p) :
    imm = BitVec.twoPow 64 p := by
  apply BitVec.eq_of_toInt_eq
  rw [← toInt_low accepted, power, BitVec.toInt_twoPow, BitVec.toInt_twoPow, if_neg (by omega), if_neg (by omega),
    if_neg (by omega), if_neg (by omega)]

theorem eq_neg_twoPow (accepted : monoArchIsInstImm imm) (power : low imm = minInt32) : imm = -BitVec.twoPow 64 31 := by
  apply BitVec.eq_of_toInt_eq
  rw [← toInt_low accepted, power]
  decide

/-- With the most negative immediate a shift has the other sign, and it is right where nothing is left below the sign. -/
theorem mul_min_eq_iff (accepted : monoArchIsInstImm imm) (power : low imm = minInt32) :
    x * imm = x <<< 31 ↔ low x = 0 := by
  rw [eq_neg_twoPow accepted power, BitVec.mul_neg, BitVec.mul_twoPow_eq_shiftLeft, low, ← BitVec.toNat_inj,
    ← BitVec.toNat_inj, BitVec.toNat_neg, BitVec.toNat_shiftLeft, BitVec.toNat_setWidth, Nat.shiftLeft_eq]
  change _ ↔ _ = 0
  omega

/-- A shift of the register computes the product but for the most negative immediate. -/
theorem mul_eq_shiftLeft_iff (accepted : monoArchIsInstImm imm) (small : p < 32)
    (power : low imm = BitVec.twoPow 32 p) : x * imm = x <<< p ↔ (low imm = minInt32 → low x = 0) := by
  by_cases last : p = 31
  · subst last
    rw [mul_min_eq_iff accepted power]
    exact ⟨fun zero _ => zero, fun only => only power⟩
  · rw [eq_twoPow accepted (by omega) power, BitVec.mul_twoPow_eq_shiftLeft]
    refine iff_of_true rfl fun least => absurd (power.symm.trans ?_) (twoPow_ne_min (by omega))
    rw [eq_twoPow accepted (by omega) power]
    exact least

theorem mul_eq_shift_iff (power : low imm = BitVec.twoPow 32 p) :
    x * imm = ShlSize.fourBytes.shift x p ↔ (x * imm).toNat < 2 ^ 32 := by
  have word : low (x * imm) = low x <<< p := by rw [low_mul, power, BitVec.mul_twoPow_eq_shiftLeft]
  unfold ShlSize.shift
  rw [← word]
  constructor
  · intro same
    rw [same, BitVec.toNat_setWidth]
    exact lt_of_le_of_lt (Nat.mod_le _ _) (low (x * imm)).isLt
  · intro fits
    apply BitVec.eq_of_toNat_eq
    rw [low, BitVec.toNat_setWidth, BitVec.toNat_setWidth, Nat.mod_eq_of_lt fits, Nat.mod_eq_of_lt (x * imm).isLt]

end Words

/-! ### One instruction for another -/

section Runs

variable {shl : ShlSize} {high : MonoInst → BitVec 32} {nextVreg dreg : Int} {ins ins' : MonoInst} {s s' : Regs}

theorem run_one (ins : MonoInst) : run shl high [ins] s = step shl high s ins := by
  simp [run]

/-- Two runs that write the same register leave the same where the values are the same, as far as they are meant. -/
theorem sameResult_iff {isInt : Bool} {value value' : BitVec 64} (others : ∀ r < nextVreg, s' r = s r) :
    SameResult nextVreg dreg isInt (some (Function.update s dreg value)) (some (Function.update s' dreg value')) ↔
      meant isInt value = meant isInt value' := by
  unfold SameResult
  simp only [update_self]
  refine and_iff_left fun r allocated other => ?_
  rw [update_of_ne other, update_of_ne other, others r allocated]

theorem sameResult_refl {isInt : Bool} (result : Option Regs) : SameResult nextVreg dreg isInt result result := by
  cases result with
  | none => trivial
  | some s => exact ⟨rfl, fun _ _ _ => rfl⟩

theorem reduceMul_eq (zero : ins.instImm ≠ 0) (one : ins.instImm ≠ 1)
    (sign : ins.opcode = .mulImm ∨ ins.instImm ≠ -1) : reduceMul ins =
      if 0 ≤ monoIsPowerOfTwo (low ins.instImm) then
        { ins with
          opcode := if ins.opcode = .mulImm then .shlImm else if ins.opcode = .lmulImm then .lshlImm else .ishlImm
          instImm := BitVec.ofInt 64 (monoIsPowerOfTwo (low ins.instImm)) }
      else ins := by
  have other : ∀ opcode : Opcode, opcode ≠ .mulImm → ¬(ins.opcode = opcode ∧ ins.instImm = -1) := by
    rintro opcode notMul ⟨op, minus⟩
    exact sign.elim (fun mul => notMul (op.symm.trans mul)) fun notMinus => notMinus minus
  unfold reduceMul
  rw [if_neg zero, if_neg one, if_neg (other .imulImm nofun), if_neg (other .lmulImm nofun)]

theorem reduceMul_shift_iff (accepted : monoArchIsInstImm ins.instImm)
    (op : ins.opcode = .mulImm ∨ ins.opcode = .imulImm ∨ ins.opcode = .lmulImm) (zero : ins.instImm ≠ 0)
    (one : ins.instImm ≠ 1) (sign : ins.opcode = .mulImm ∨ ins.instImm ≠ -1) :
    SameResult nextVreg ins.dreg ins.opcode.isInt (run shl high [ins] s) (run shl high [reduceMul ins] s) ↔
      ins.Holds shl (s ins.sreg1) := by
  rw [reduceMul_eq zero one sign]
  obtain ⟨opcode, dreg, sreg1, sreg2, c0, imm⟩ := ins
  rcases monoIsPowerOfTwo_spec (low imm) with ⟨p, small, exponent, power⟩ | ⟨exponent, other⟩
  · have places : (BitVec.ofInt 64 (p : Int)).toNat = p := by
      rw [BitVec.ofInt_natCast, BitVec.toNat_ofNat, Nat.mod_eq_of_lt (by omega)]
    rw [← BitVec.twoPow_eq] at power
    rw [exponent, if_pos (Int.natCast_nonneg p)]
    rcases op with rfl | rfl | rfl
    · change SameResult _ _ false (some (Function.update s dreg (s sreg1 * imm)))
        (some (Function.update s dreg (shl.shift (s sreg1) (BitVec.ofInt 64 (p : Int)).toNat))) ↔ _
      rw [sameResult_iff fun _ _ => rfl, places]
      cases shl with
      | fourBytes =>
        refine (mul_eq_shift_iff power).trans ?_
        simp only [MonoInst.Holds, exponent, one, ne_eq, not_false_eq_true, Int.natCast_nonneg, forall_const]
      | eightBytes => exact mul_eq_shiftLeft_iff accepted small power
    · change SameResult _ _ true (some (Function.update s dreg (high _ ++ low (s sreg1) * low imm)))
        (some (Function.update s dreg (high _ ++ low (s sreg1) <<< (BitVec.ofInt 64 (p : Int)).toNat))) ↔ _
      rw [sameResult_iff fun _ _ => rfl, places, meant_int_iff, low_append, low_append]
      refine iff_of_true ?_ trivial
      rw [power, BitVec.mul_twoPow_eq_shiftLeft]
    · change SameResult _ _ false (some (Function.update s dreg (s sreg1 * imm)))
        (some (Function.update s dreg (s sreg1 <<< (BitVec.ofInt 64 (p : Int)).toNat))) ↔ _
      rw [sameResult_iff fun _ _ => rfl, places]
      exact mul_eq_shiftLeft_iff accepted small power
  · have least : low imm ≠ minInt32 := other 31 (by decide)
    rw [exponent, if_neg (by decide)]
    refine iff_of_true (sameResult_refl _) ?_
    rcases op with rfl | rfl | rfl
    · cases shl with
      | fourBytes => simp [MonoInst.Holds, exponent]
      | eightBytes => exact fun is => absurd is least
    · trivial
    · exact fun is => absurd is least

theorem holds_of_mul (op : ins.opcode = .mulImm ∨ ins.opcode = .imulImm ∨ ins.opcode = .lmulImm)
    (least : low ins.instImm ≠ minInt32)
    (product : ins.instImm ≠ 1 → ins.instImm ≠ 0 → monoIsPowerOfTwo (low ins.instImm) = -1) (x : BitVec 64) :
    ins.Holds shl x := by
  obtain ⟨opcode, dreg, sreg1, sreg2, c0, imm⟩ := ins
  rcases op with rfl | rfl | rfl
  · cases shl with
    | fourBytes =>
      intro one power
      by_cases zero : imm = 0
      · rw [zero]
        simp
      · rw [product one zero] at power
        contradiction
    | eightBytes => exact fun is => absurd is least
  · trivial
  · exact fun is => absurd is least

theorem reduceMul_meets_iff (accepted : monoArchIsInstImm ins.instImm)
    (op : ins.opcode = .mulImm ∨ ins.opcode = .imulImm ∨ ins.opcode = .lmulImm) :
    SameResult nextVreg ins.dreg ins.opcode.isInt (run shl high [ins] s) (run shl high [reduceMul ins] s) ↔
      ins.Holds shl (s ins.sreg1) := by
  by_cases zero : ins.instImm = 0
  · refine iff_of_true ?_ (holds_of_mul op (by rw [zero]; decide) (fun _ other => absurd zero other) _)
    obtain ⟨opcode, dreg, sreg1, sreg2, c0, imm⟩ := ins
    subst zero
    rcases op with rfl | rfl | rfl
    · change SameResult _ _ false (some (Function.update s dreg (s sreg1 * 0#64))) (some (Function.update s dreg 0#64))
      rw [sameResult_iff fun _ _ => rfl, BitVec.mul_zero]
    · change SameResult _ _ true (some (Function.update s dreg (high _ ++ low (s sreg1) * low 0#64)))
        (some (Function.update s dreg 0#64))
      rw [sameResult_iff fun _ _ => rfl, meant_int_iff, low_append, ← low_mul, BitVec.mul_zero]
    · change SameResult _ _ false (some (Function.update s dreg (s sreg1 * 0#64))) (some (Function.update s dreg 0#64))
      rw [sameResult_iff fun _ _ => rfl, BitVec.mul_zero]
  by_cases one : ins.instImm = 1
  · refine iff_of_true ?_ (holds_of_mul op (by rw [one]; decide) (fun other => absurd one other) _)
    obtain ⟨opcode, dreg, sreg1, sreg2, c0, imm⟩ := ins
    subst one
    rcases op with rfl | rfl | rfl
    · change SameResult _ _ false (some (Function.update s dreg (s sreg1 * 1#64))) (some (Function.update s dreg (s sreg1)))
      rw [sameResult_iff fun _ _ => rfl, BitVec.mul_one]
    · change SameResult _ _ true (some (Function.update s dreg (high _ ++ low (s sreg1) * low 1#64)))
        (some (Function.update s dreg (s sreg1)))
      rw [sameResult_iff fun _ _ => rfl, meant_int_iff, low_append, ← low_mul, BitVec.mul_one]
    · change SameResult _ _ false (some (Function.update s dreg (s sreg1 * 1#64))) (some (Function.update s dreg (s sreg1)))
      rw [sameResult_iff fun _ _ => rfl, BitVec.mul_one]
  by_cases sign : ins.opcode = .mulImm ∨ ins.instImm ≠ -1
  · exact reduceMul_shift_iff accepted op zero one sign
  rw [not_or, not_not] at sign
  obtain ⟨other, minus⟩ := sign
  refine iff_of_true ?_ (holds_of_mul op (by rw [minus]; decide) (fun _ _ => by rw [minus]; decide) _)
  obtain ⟨opcode, dreg, sreg1, sreg2, c0, imm⟩ := ins
  subst minus
  rcases op with rfl | rfl | rfl
  · exact absurd rfl other
  · change SameResult _ _ true (some (Function.update s dreg (high _ ++ low (s sreg1) * low (-1))))
      (some (Function.update s dreg (high _ ++ -low (s sreg1))))
    rw [sameResult_iff fun _ _ => rfl, meant_int_iff, low_append, low_append]
    rw [show low (-1) = -1#32 by decide, BitVec.mul_neg, BitVec.mul_one]
  · change SameResult _ _ false (some (Function.update s dreg (s sreg1 * -1#64))) (some (Function.update s dreg (-s sreg1)))
    rw [sameResult_iff fun _ _ => rfl, BitVec.mul_neg, BitVec.mul_one]

theorem moveOfAdd_meets (op : ins.opcode = .addImm ∨ ins.opcode = .iaddImm ∨ ins.opcode = .laddImm ∨ ins.opcode = .subImm ∨
      ins.opcode = .isubImm ∨ ins.opcode = .lsubImm) (zero : ins.instImm = 0) :
    SameResult nextVreg ins.dreg ins.opcode.isInt (run shl high [ins] s)
      (run shl high [{ ins with opcode := .move }] s) := by
  obtain ⟨opcode, dreg, sreg1, sreg2, c0, imm⟩ := ins
  subst zero
  have word : low (0 : BitVec 64) = 0#32 := by decide
  rcases op with rfl | rfl | rfl | rfl | rfl | rfl
  · change SameResult _ _ false (some (Function.update s dreg (s sreg1 + 0#64))) (some (Function.update s dreg (s sreg1)))
    rw [sameResult_iff fun _ _ => rfl, BitVec.add_zero]
  · change SameResult _ _ true (some (Function.update s dreg (high _ ++ (low (s sreg1) + low 0))))
      (some (Function.update s dreg (s sreg1)))
    rw [sameResult_iff fun _ _ => rfl, meant_int_iff, low_append, word, BitVec.add_zero]
  · change SameResult _ _ false (some (Function.update s dreg (s sreg1 + 0#64))) (some (Function.update s dreg (s sreg1)))
    rw [sameResult_iff fun _ _ => rfl, BitVec.add_zero]
  · change SameResult _ _ false (some (Function.update s dreg (s sreg1 - 0#64))) (some (Function.update s dreg (s sreg1)))
    rw [sameResult_iff fun _ _ => rfl, BitVec.sub_zero]
  · change SameResult _ _ true (some (Function.update s dreg (high _ ++ (low (s sreg1) - low 0))))
      (some (Function.update s dreg (s sreg1)))
    rw [sameResult_iff fun _ _ => rfl, meant_int_iff, low_append, word, BitVec.sub_zero]
  · change SameResult _ _ false (some (Function.update s dreg (s sreg1 - 0#64))) (some (Function.update s dreg (s sreg1)))
    rw [sameResult_iff fun _ _ => rfl, BitVec.sub_zero]

theorem reduceUnsigned_meets (op : ins.opcode = .idivUnImm ∨ ins.opcode = .iremUnImm) :
    SameResult nextVreg ins.dreg ins.opcode.isInt (run shl high [ins] s) (run shl high [reduceUnsigned ins] s) := by
  obtain ⟨opcode, dreg, sreg1, sreg2, c0, imm⟩ := ins
  unfold reduceUnsigned
  simp only
  rcases monoIsPowerOfTwo_spec (low imm) with ⟨p, small, exponent, power⟩ | ⟨exponent, -⟩
  · have places : (BitVec.ofInt 64 (p : Int)).toNat = p := by
      rw [BitVec.ofInt_natCast, BitVec.toNat_ofNat, Nat.mod_eq_of_lt (by omega)]
    rw [← BitVec.twoPow_eq] at power
    have divisor : low imm ≠ 0 := power ▸ twoPow_ne_zero small
    rw [exponent, if_pos (Int.natCast_nonneg p)]
    rcases op with rfl | rfl
    · rw [run_one, run_one]
      change SameResult _ _ true
        ((if low imm = 0 then none else some (high _ ++ low (s sreg1) / low imm)).map (Function.update s dreg))
        (some (Function.update s dreg (high _ ++ low (s sreg1) >>> (BitVec.ofInt 64 (p : Int)).toNat)))
      rw [if_neg divisor, Option.map_some, sameResult_iff fun _ _ => rfl, meant_int_iff, low_append, low_append, places,
        power, BitVec.udiv_twoPow_eq_of_lt small]
    · rw [run_one, run_one]
      change SameResult _ _ true
        ((if low imm = 0 then none else some (high _ ++ low (s sreg1) % low imm)).map (Function.update s dreg))
        (some (Function.update s dreg
          (high _ ++ (low (s sreg1) &&& low ((1#32 <<< (p : Int).toNat - 1).signExtend 64)))))
      have mask : low ((1#32 <<< (p : Int).toNat - 1).signExtend 64) = BitVec.twoPow 32 p - 1#32 := by
        rw [low_signExtend, Int.toNat_natCast, ← BitVec.twoPow_eq]
        rfl
      rw [if_neg divisor, Option.map_some, sameResult_iff fun _ _ => rfl, meant_int_iff, low_append, low_append, mask,
        power, umod_twoPow small]
  · rw [exponent, if_neg (by decide)]
    exact sameResult_refl _

/-- What the instructions for a signed division leave: a dividend that is biased and shifted, and the registers in use as
they were. -/
theorem run_reduceDiv (shl : ShlSize) (high : MonoInst → BitVec 32) (s : Regs) (allocated : ins.sreg1 < nextVreg)
    {p : Nat} (positive : 0 < p) (small : p < 32) (exponent : monoIsPowerOfTwo (low ins.instImm) = p) :
    ∃ bias, IsBias (low (s ins.sreg1)) bias p ∧ ∃ (above : BitVec 32) (s' : Regs), (∀ r < nextVreg, s' r = s r) ∧
      run shl high (reduceDiv nextVreg ins) s =
        some (Function.update s' ins.dreg (above ++ (bias + low (s ins.sreg1)).sshiftRight p)) := by
  have source : ins.sreg1 ≠ nextVreg := allocated.ne
  have places : (BitVec.ofInt 64 (p : Int)).toNat = p := by
    rw [BitVec.ofInt_natCast, BitVec.toNat_ofNat, Nat.mod_eq_of_lt (by omega)]
  unfold reduceDiv
  simp only [exponent]
  by_cases one : p = 1
  · subst one
    let s₁ : Regs := Function.update s nextVreg
      (high (newBialuImm .ishrUnImm nextVreg ins.sreg1 31) ++ low (s ins.sreg1) >>> 31)
    let s₂ : Regs := Function.update s₁ nextVreg
      (high (newBialu .iadd nextVreg nextVreg ins.sreg1) ++ (low (s₁ nextVreg) + low (s₁ ins.sreg1)))
    have sum : low (s₂ nextVreg) = low (s ins.sreg1) >>> 31 + low (s ins.sreg1) := by
      simp only [s₂, s₁, update_self, update_of_ne source, low_append]
    refine ⟨_, isBias_sign (by decide), high (newBialuImm .ishrImm ins.dreg nextVreg 1), s₂, fun r inUse => ?_, ?_⟩
    · simp only [s₂, s₁, update_of_ne inUse.ne]
    · change some (Function.update s₂ ins.dreg (high _ ++ (low (s₂ nextVreg)).sshiftRight 1)) = _
      rw [sum]
  · let s₁ : Regs := Function.update s nextVreg
      (high (newBialuImm .ishrImm nextVreg ins.sreg1 31) ++ (low (s ins.sreg1)).sshiftRight 31)
    let s₂ : Regs := Function.update s₁ nextVreg
      (high (newBialuImm .ishrUnImm nextVreg nextVreg (BitVec.ofInt 64 (32 - p))) ++
        low (s₁ nextVreg) >>> (BitVec.ofInt 64 (32 - p)).toNat)
    let s₃ : Regs := Function.update s₂ nextVreg
      (high (newBialu .iadd nextVreg nextVreg ins.sreg1) ++ (low (s₂ nextVreg) + low (s₂ ins.sreg1)))
    have complement : (BitVec.ofInt 64 (32 - p)).toNat = 32 - p := by
      rw [BitVec.toNat_ofInt]
      omega
    have sum : low (s₃ nextVreg) = (low (s ins.sreg1)).sshiftRight 31 >>> (32 - p) + low (s ins.sreg1) := by
      simp only [s₃, s₂, s₁, update_self, update_of_ne source, low_append, complement]
    rw [if_neg (by omega), if_pos (by omega)]
    refine ⟨_, isBias_signs positive small.le,
      high (newBialuImm .ishrImm ins.dreg nextVreg (BitVec.ofInt 64 p)), s₃, fun r inUse => ?_, ?_⟩
    · simp only [s₃, s₂, s₁, update_of_ne inUse.ne]
    · change some (Function.update s₃ ins.dreg
        (high _ ++ (low (s₃ nextVreg)).sshiftRight (BitVec.ofInt 64 (p : Int)).toNat)) = _
      rw [sum, places]

theorem reduceDiv_meets_iff (allocated : ins.sreg1 < nextVreg) (op : ins.opcode = .idivImm) :
    SameResult nextVreg ins.dreg ins.opcode.isInt (run shl high [ins] s) (run shl high (reduceDiv nextVreg ins) s) ↔
      ins.Holds shl (s ins.sreg1) := by
  have holds : ins.Holds shl (s ins.sreg1) ↔ (low ins.instImm = minInt32 → low (s ins.sreg1) ≠ minInt32) := by
    unfold MonoInst.Holds
    rw [op]
  have alone (le : monoIsPowerOfTwo (low ins.instImm) ≤ 0) : reduceDiv nextVreg ins = [ins] := by
    unfold reduceDiv
    rw [if_neg (by omega), if_neg (by omega)]
  rw [holds]
  rcases monoIsPowerOfTwo_spec (low ins.instImm) with ⟨p, small, exponent, power⟩ | ⟨exponent, other⟩
  · rw [← BitVec.twoPow_eq] at power
    by_cases positive : 0 < p
    · obtain ⟨bias, isBias, above, s', others, runs⟩ :=
        run_reduceDiv shl high s allocated positive small exponent
      have divides : step shl high s ins = some
          (Function.update s ins.dreg (high ins ++ (low (s ins.sreg1)).sdiv (BitVec.twoPow 32 p))) := by
        unfold step
        rw [op, if_neg (by decide)]
        change (if _ then none else some _).map _ = _
        rw [power, if_neg ?_, Option.map_some]
        rintro (zero | ⟨-, minus⟩)
        · exact twoPow_ne_zero small zero
        · exact twoPow_ne_neg_one small minus
      rw [run_one, divides, runs, op, sameResult_iff others]
      change meant true _ = meant true _ ↔ _
      rw [meant_int_iff, low_append, low_append]
      by_cases last : p = 31
      · subst last
        exact (sdiv_twoPow_last_iff (by decide) isBias).trans ⟨fun fits _ => fits, fun fits => fits power⟩
      · have below : p < 31 := by omega
        rw [power]
        exact iff_of_true (sdiv_twoPow (by omega) isBias) fun least => absurd least (twoPow_ne_min below)
    · rw [alone (by omega), power]
      exact iff_of_true (sameResult_refl _) fun least => absurd least (twoPow_ne_min (by omega))
  · rw [alone (by omega)]
    exact iff_of_true (sameResult_refl _) fun least => absurd least (other 31 (by decide))

end Runs

/-! ### The pass -/

/-- The instructions that stand in the place of an instruction compute what it does, where they hold. -/
theorem strengthReduce_meets_iff (shl : ShlSize) (high : MonoInst → BitVec 32) (s : Regs) (nextVreg : Int)
    (ins : MonoInst) (accepted : monoArchIsInstImm ins.instImm) (allocated : ins.sreg1 < nextVreg) :
    SameResult nextVreg ins.dreg ins.opcode.isInt (run shl high [ins] s)
      (run shl high (strengthReduce nextVreg ins) s) ↔ ins.Holds shl (s ins.sreg1) := by
  have alone : SameResult nextVreg ins.dreg ins.opcode.isInt (run shl high [ins] s) (run shl high [ins] s) :=
    sameResult_refl _
  cases op : ins.opcode with
  | mulImm | imulImm | lmulImm =>
    have replaced : strengthReduce nextVreg ins = [reduceMul ins] := by
      unfold strengthReduce
      rw [op]
    rw [replaced, ← op]
    exact reduceMul_meets_iff accepted (by simp [op])
  | idivImm =>
    have replaced : strengthReduce nextVreg ins = reduceDiv nextVreg ins := by
      unfold strengthReduce
      rw [op]
    rw [replaced, ← op]
    exact reduceDiv_meets_iff allocated op
  | idivUnImm | iremUnImm =>
    have replaced : strengthReduce nextVreg ins = [reduceUnsigned ins] := by
      unfold strengthReduce
      rw [op]
    have holds : ins.Holds shl (s ins.sreg1) := by
      unfold MonoInst.Holds
      rw [op]
      trivial
    rw [replaced, ← op]
    exact iff_of_true (reduceUnsigned_meets (by simp [op])) holds
  | addImm | iaddImm | laddImm | subImm | isubImm | lsubImm =>
    have holds : ins.Holds shl (s ins.sreg1) := by
      unfold MonoInst.Holds
      rw [op]
      trivial
    have replaced : strengthReduce nextVreg ins = if ins.instImm = 0 then [{ ins with opcode := .move }] else [ins] := by
      unfold strengthReduce
      rw [op]
    rw [← op, replaced]
    refine iff_of_true ?_ holds
    split
    next zero => exact moveOfAdd_meets (by simp [op]) zero
    next => exact alone
  | move =>
    have holds : ins.Holds shl (s ins.sreg1) := by
      unfold MonoInst.Holds
      rw [op]
      trivial
    have replaced : strengthReduce nextVreg ins = if ins.dreg = ins.sreg1 then [] else [ins] := by
      unfold strengthReduce
      rw [op]
    rw [← op, replaced]
    refine iff_of_true ?_ holds
    split
    next same =>
      have moves : run shl high [ins] s = run shl high [] s := by
        rw [run_one, step, op, if_neg (by decide), same]
        exact congrArg some (update_eq_self _ s)
      rw [moves]
      exact sameResult_refl _
    next => exact alone
  | _ =>
    have holds : ins.Holds shl (s ins.sreg1) := by
      unfold MonoInst.Holds
      rw [op]
      trivial
    have replaced : strengthReduce nextVreg ins = [ins] := by
      unfold strengthReduce
      rw [op]
    rw [replaced, ← op]
    exact iff_of_true alone holds

/-- A signed division by eight, which is shifted after a bias. -/
theorem strengthReduce_meets_eight :
    SameResult 5 0 true (run .fourBytes (fun _ => 0) [newBialuImm .idivImm 0 1 8] fun _ => -7)
        (run .fourBytes (fun _ => 0) (strengthReduce 5 (newBialuImm .idivImm 0 1 8)) fun _ => -7) ↔
      (newBialuImm .idivImm 0 1 8).Holds .fourBytes (-7) :=
  strengthReduce_meets_iff .fourBytes (fun _ => 0) (fun _ => -7) 5 (newBialuImm .idivImm 0 1 8) (by decide) (by decide)

/-- The most negative immediate counts as a power of two: a multiplication of eight bytes by it becomes a shift, and the
product of one loses its sign. -/
theorem strengthReduce_misses :
    ∃ ins s, monoArchIsInstImm ins.instImm ∧ ins.sreg1 < 5 ∧ ∀ shl high,
      ¬SameResult 5 ins.dreg ins.opcode.isInt (run shl high [ins] s) (run shl high (strengthReduce 5 ins) s) := by
  refine ⟨newBialuImm .lmulImm 0 1 (-2 ^ 31), fun _ => 1, by decide, by decide, fun shl high same => ?_⟩
  exact absurd same.1 (by decide)

end MonoRuntime.LocalCprop
