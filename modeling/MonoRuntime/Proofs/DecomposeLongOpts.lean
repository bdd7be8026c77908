/-
Module: MonoRuntime.Proofs.DecomposeLongOpts
Purpose: What `mono_decompose_long_opts` emits computes the 64-bit operations of the CLI on pairs of words, for all operands,
  but for two conversions that accept a band of unsigned values. For these the operands are given.
Trusted boundary: none (fully proved)
Main exports: decomposeLongOpts_meets_iff, decomposeLongOpts_misses
-/
import MonoRuntime.Lib.DoubleWord
import MonoRuntime.Mini.DecomposeLongOpts
import MonoRuntime.Proofs.DecomposeOpcode

namespace MonoRuntime.DecomposeLong

open WordMachine
open Decompose (IntType Result conv convOvf addOvf subOvf signExtend_of_fits)

/-! ### Registers -/

section Registers

variable {s : State 32} {dreg reg : Nat} {value hi lo : BitVec 32} {flags flags' : Flags}

@[simp] theorem writeFlags_self : (writeFlags s dreg value flags).reg dreg = value :=
  State.set_self ..

theorem writeFlags_of_ne (other : reg ≠ dreg) : (writeFlags s dreg value flags).reg reg = s.reg reg :=
  State.set_of_ne other

@[simp] theorem writeFlags_flags : (writeFlags s dreg value flags).flags = flags :=
  rfl

theorem long_lowFirst : long (writeFlags (writeFlags s (dreg + 1) lo flags) (dreg + 2) hi flags') dreg = hi ++ lo := by
  rw [long, writeFlags_self, writeFlags_of_ne (by omega), writeFlags_self]

theorem long_highFirst : long (writeFlags (writeFlags s (dreg + 2) hi flags) (dreg + 1) lo flags') dreg = hi ++ lo := by
  rw [long, writeFlags_self, writeFlags_of_ne (by omega), writeFlags_self]

/-- A register that is allocated behind others has nothing in common with them. -/
theorem allocIreg_apart {nextVreg size : Nat} (before : reg + size ≤ nextVreg) :
    Apart (allocIreg nextVreg).1 1 reg size ∧ (allocIreg nextVreg).1 + 1 ≤ (allocIreg nextVreg).2 :=
  ⟨Or.inr (Or.inr before), le_rfl⟩

theorem Apart.words {sreg : Nat} (apart : Apart dreg 3 sreg 3) : sreg + 2 ≠ dreg + 1 ∧ sreg + 1 ≠ dreg + 2 := by
  unfold Apart at apart
  omega

theorem Apart.int {sreg : Nat} (apart : Apart dreg 3 sreg 1) : sreg ≠ dreg + 1 ∧ sreg ≠ dreg + 2 := by
  unfold Apart at apart
  omega

theorem toInt_long {sreg : Nat} : (long s sreg).toInt = (s.reg (sreg + 2)).toInt * 4294967296 + (s.reg (sreg + 1)).toNat :=
  @toInt_pair 32 _ _ (by decide)

theorem toNat_long {sreg : Nat} : (long s sreg).toNat = (s.reg (sreg + 2)).toNat * 4294967296 + (s.reg (sreg + 1)).toNat :=
  @toNat_pair 32 _ _

theorem low_long {sreg : Nat} : Decompose.low (long s sreg) = s.reg (sreg + 1) :=
  BitVec.setWidth_append_eq_right

theorem words_eq (imm : BitVec 64) : msWord imm ++ lsWord imm = imm :=
  @BitVec.extractLsb'_append_extractLsb' 32 32 imm

end Registers

/-! ### Outcomes -/

section Outcomes

variable {dreg : Nat} {s : State 32} {type : IntType} {value : Int}

theorem meets_i4 {word : BitVec 32} (left : s.reg dreg = word) : Meets dreg (.i4 word) (.finished s) :=
  left ▸ .i4

theorem meets_i8 {word : BitVec 64} (left : long s dreg = word) : Meets dreg (.i8 word) (.finished s) :=
  left ▸ .i8

theorem meets_int (bits : type.bits ≤ 32) (left : s.reg dreg = BitVec.ofInt 32 value) :
    Meets dreg (.of type value) (.finished s) := by
  rw [Result.of, if_pos bits]
  exact meets_i4 left

theorem meets_long (bits : ¬ type.bits ≤ 32) (left : long s dreg = BitVec.ofInt 64 value) :
    Meets dreg (.of type value) (.finished s) := by
  rw [Result.of, if_neg bits]
  exact meets_i8 left

theorem Meets.eq_raises {result : Result} (meets : Meets dreg result .raised) : result = .raises := by
  cases meets
  rfl

theorem not_meets_of_raised : ¬ Meets dreg (.of type value) .raised := by
  intro meets
  have raises := meets.eq_raises
  unfold Result.of at raises
  split at raises
  all_goals cases raises

theorem meets_raised : Meets dreg (.checked type value) .raised ↔ ¬ type.Fits value := by
  unfold Result.checked
  split
  next fits => exact iff_of_false not_meets_of_raised fun unfit => unfit fits
  next unfit => exact iff_of_true .raises unfit

theorem meets_fit (fits : type.Fits value) (result : Meets dreg (.of type value) (.finished s)) :
    Meets dreg (.checked type value) (.finished s) := by
  rw [Result.checked, if_pos fits]
  exact result

theorem Meets.fits (meets : Meets dreg (.checked type value) (.finished s)) : type.Fits value := by
  unfold Result.checked at meets
  split at meets
  next fits => exact fits
  next => cases meets

end Outcomes

/-! ### Moves, logical operations, sums and differences -/

section Pairs

variable {clobber : Flags → Flags} {s : State 32} {dreg sreg1 sreg2 : Nat} {imm : BitVec 64}

theorem long_move (apart : Apart dreg 3 sreg1 3) :
    long (step clobber (.unalu .move (dreg + 2) (sreg1 + 2)) (step clobber (.unalu .move (dreg + 1) (sreg1 + 1)) s)) dreg =
      long s sreg1 := by
  rw [step, step, long_lowFirst, writeFlags_of_ne apart.words.1]
  rfl

theorem long_not (apart : Apart dreg 3 sreg1 3) :
    long (step clobber (.unalu .inot (dreg + 2) (sreg1 + 2)) (step clobber (.unalu .inot (dreg + 1) (sreg1 + 1)) s)) dreg =
      ~~~ long s sreg1 := by
  rw [step, step, long_lowFirst, writeFlags_of_ne apart.words.1]
  exact BitVec.not_append.symm

variable {op : LogicOp} {hi lo hi' lo' : BitVec 32}

theorem logic_pair : op.value hi hi' ++ op.value lo lo' = op.value (hi ++ lo) (hi' ++ lo') := by
  cases op with
  | and => exact BitVec.and_append.symm
  | or => exact BitVec.or_append.symm
  | xor => exact BitVec.xor_append.symm

theorem long_logic (apart : Apart dreg 3 sreg1 3) (apart' : Apart dreg 3 sreg2 3) :
    long (step clobber (.logic op (dreg + 2) (sreg1 + 2) (sreg2 + 2))
        (step clobber (.logic op (dreg + 1) (sreg1 + 1) (sreg2 + 1)) s)) dreg = op.value (long s sreg1) (long s sreg2) := by
  rw [step, step, long_lowFirst, writeFlags_of_ne apart.words.1, writeFlags_of_ne apart'.words.1]
  exact logic_pair

theorem long_logicImm (apart : Apart dreg 3 sreg1 3) :
    long (step clobber (.logicImm op (dreg + 2) (sreg1 + 2) (msWord imm))
        (step clobber (.logicImm op (dreg + 1) (sreg1 + 1) (lsWord imm)) s)) dreg = op.value (long s sreg1) imm := by
  rw [step, step, long_lowFirst, writeFlags_of_ne apart.words.1, logic_pair, words_eq]
  rfl

/-- The state behind the two instructions of a sum or a difference: the second takes the carry of the first. -/
theorem step_arith {low high : ArithOp} (apart : Apart dreg 3 sreg1 3) (apart' : Apart dreg 3 sreg2 3) :
    step clobber (.arith high (dreg + 2) (sreg1 + 2) (sreg2 + 2))
        (step clobber (.arith low (dreg + 1) (sreg1 + 1) (sreg2 + 1)) s) = writeFlags
        (writeFlags s (dreg + 1) (low.value (s.reg (sreg1 + 1)) (s.reg (sreg2 + 1)) s.flags.carry)
          (low.flags (s.reg (sreg1 + 1)) (s.reg (sreg2 + 1)) s.flags.carry)) (dreg + 2)
        (high.value (s.reg (sreg1 + 2)) (s.reg (sreg2 + 2))
          (low.flags (s.reg (sreg1 + 1)) (s.reg (sreg2 + 1)) s.flags.carry).carry)
        (high.flags (s.reg (sreg1 + 2)) (s.reg (sreg2 + 2))
          (low.flags (s.reg (sreg1 + 1)) (s.reg (sreg2 + 1)) s.flags.carry).carry) := by
  rw [step, step, writeFlags_of_ne apart.words.1, writeFlags_of_ne apart'.words.1, writeFlags_flags]

theorem step_arithImm {low high : ArithOp} (apart : Apart dreg 3 sreg1 3) :
    step clobber (.arithImm high (dreg + 2) (sreg1 + 2) (msWord imm))
        (step clobber (.arithImm low (dreg + 1) (sreg1 + 1) (lsWord imm)) s) = writeFlags
        (writeFlags s (dreg + 1) (low.value (s.reg (sreg1 + 1)) (lsWord imm) s.flags.carry)
          (low.flags (s.reg (sreg1 + 1)) (lsWord imm) s.flags.carry)) (dreg + 2)
        (high.value (s.reg (sreg1 + 2)) (msWord imm) (low.flags (s.reg (sreg1 + 1)) (lsWord imm) s.flags.carry).carry)
        (high.flags (s.reg (sreg1 + 2)) (msWord imm)
          (low.flags (s.reg (sreg1 + 1)) (lsWord imm) s.flags.carry).carry) := by
  rw [step, step, writeFlags_of_ne apart.words.1, writeFlags_flags]

theorem adc_pair {carry : Bool} :
    ArithOp.adc.value hi hi' (ArithOp.addcc.flags lo lo' carry).carry ++ ArithOp.addcc.value lo lo' carry =
      (hi ++ lo) + (hi' ++ lo') :=
  pair_add.symm ▸ congrArg _ adc_false

theorem sbb_pair {carry : Bool} :
    ArithOp.sbb.value hi hi' (ArithOp.subcc.flags lo lo' carry).carry ++ ArithOp.subcc.value lo lo' carry =
      (hi ++ lo) - (hi' ++ lo') :=
  pair_sub.symm ▸ congrArg _ sbb_false

theorem ladd_left (apart : Apart dreg 3 sreg1 3) (apart' : Apart dreg 3 sreg2 3) :
    long (step clobber (.arith .adc (dreg + 2) (sreg1 + 2) (sreg2 + 2))
        (step clobber (.arith .addcc (dreg + 1) (sreg1 + 1) (sreg2 + 1)) s)) dreg = long s sreg1 + long s sreg2 := by
  rw [step_arith apart apart', long_lowFirst]
  exact adc_pair

theorem lsub_left (apart : Apart dreg 3 sreg1 3) (apart' : Apart dreg 3 sreg2 3) :
    long (step clobber (.arith .sbb (dreg + 2) (sreg1 + 2) (sreg2 + 2))
        (step clobber (.arith .subcc (dreg + 1) (sreg1 + 1) (sreg2 + 1)) s)) dreg = long s sreg1 - long s sreg2 := by
  rw [step_arith apart apart', long_lowFirst]
  exact sbb_pair

theorem laddImm_left (apart : Apart dreg 3 sreg1 3) :
    long (step clobber (.arithImm .adc (dreg + 2) (sreg1 + 2) (msWord imm))
        (step clobber (.arithImm .addcc (dreg + 1) (sreg1 + 1) (lsWord imm)) s)) dreg = long s sreg1 + imm := by
  rw [step_arithImm apart, long_lowFirst]
  conv_rhs => rw [← words_eq imm]
  exact adc_pair

theorem lsubImm_left (apart : Apart dreg 3 sreg1 3) :
    long (step clobber (.arithImm .sbb (dreg + 2) (sreg1 + 2) (msWord imm))
        (step clobber (.arithImm .subcc (dreg + 1) (sreg1 + 1) (lsWord imm)) s)) dreg = long s sreg1 - imm := by
  rw [step_arithImm apart, long_lowFirst]
  conv_rhs => rw [← words_eq imm]
  exact sbb_pair

end Pairs

/-! ### Comparisons -/

/-- What the instructions of a comparison do on a state where the operands have certain words. -/
structure Reads (clobber : Flags → Flags) (comparison : Comparison) (s : State 32) (hi lo hi' lo' : BitVec 32) : Prop where
  high : step clobber comparison.high s = { s with flags := compareFlags hi hi' }
  low : step clobber comparison.low s = { s with flags := compareFlags lo lo' }
  xorLow (d1 : Nat) : step clobber (comparison.xorLow d1) s = writeFlags s d1 (lo ^^^ lo') (clobber s.flags)
  xorHigh (d2 : Nat) : step clobber (comparison.xorHigh d2) s = writeFlags s d2 (hi ^^^ hi') (clobber s.flags)

section Comparisons

variable {clobber : Flags → Flags} {s : State 32} {nextVreg dreg sreg1 sreg2 : Nat} {comparison : Comparison}
  {hi lo hi' lo' : BitVec 32}

/-- States that agree on what was allocated before, but for the destination. -/
def Agree (nextVreg dreg : Nat) (s s' : State 32) : Prop :=
  ∀ reg, reg < nextVreg → reg ≠ dreg → s'.reg reg = s.reg reg

theorem Agree.refl : Agree nextVreg dreg s s :=
  fun _ _ _ => rfl

variable {s' : State 32} {high low : Cond} {next : LongSet} {x y : BitVec 64}

theorem Agree.write {reg : Nat} {value : BitVec 32} {flags : Flags} (agree : Agree nextVreg dreg s s')
    (outside : nextVreg ≤ reg ∨ reg = dreg) :
    Agree nextVreg dreg s (writeFlags s' reg value flags) := fun reg' before other =>
  (writeFlags_of_ne (by omega)).trans (agree reg' before other)

theorem Agree.withFlags {flags : Flags} (agree : Agree nextVreg dreg s s') :
    Agree nextVreg dreg s { s' with flags := flags } :=
  agree

theorem lcompare_reads (apart : Apart dreg 1 sreg1 3) (before : sreg1 + 3 ≤ nextVreg)
    (apart' : Apart dreg 1 sreg2 3) (before' : sreg2 + 3 ≤ nextVreg) (agree : Agree nextVreg dreg s s') :
    Reads clobber (lcompare sreg1 sreg2) s' (s.reg (sreg1 + 2)) (s.reg (sreg1 + 1)) (s.reg (sreg2 + 2))
      (s.reg (sreg2 + 1)) := by
  unfold Apart at apart apart'
  rw [← agree (sreg1 + 2) (by omega) (by omega), ← agree (sreg1 + 1) (by omega) (by omega),
    ← agree (sreg2 + 2) (by omega) (by omega), ← agree (sreg2 + 1) (by omega) (by omega)]
  exact ⟨rfl, rfl, fun _ => rfl, fun _ => rfl⟩

theorem lcompareImm_reads {imm : BitVec 64} (apart : Apart dreg 1 sreg1 3) (before : sreg1 + 3 ≤ nextVreg)
    (agree : Agree nextVreg dreg s s') :
    Reads clobber (lcompareImm sreg1 imm) s' (s.reg (sreg1 + 2)) (s.reg (sreg1 + 1)) (msWord imm) (lsWord imm) := by
  unfold Apart at apart
  rw [← agree (sreg1 + 2) (by omega) (by omega), ← agree (sreg1 + 1) (by omega) (by omega)]
  exact ⟨rfl, rfl, fun _ => rfl, fun _ => rfl⟩

theorem xor_or_eq_zero : (lo ^^^ lo') ||| (hi ^^^ hi') = 0#32 ↔ hi ++ lo = hi' ++ lo' := by
  rw [pair_inj, BitVec.or_eq_zero_iff, BitVec.xor_eq_zero_iff, BitVec.xor_eq_zero_iff, and_comm]

theorem run_emitXor (reads : ∀ s', Agree nextVreg dreg s s' → Reads clobber comparison s' hi lo hi' lo')
    (code : List LongCode) :
    ∃ s', run (step clobber) (emitXor nextVreg comparison ++ code) s = run (step clobber) code s' ∧
      s'.flags = compareFlags ((lo ^^^ lo') ||| (hi ^^^ hi')) 0 := by
  have first := (reads s .refl).xorLow nextVreg
  have second :=
    (reads (writeFlags s nextVreg (lo ^^^ lo') (clobber s.flags)) (Agree.refl.write (Or.inl le_rfl))).xorHigh (nextVreg + 1)
  refine ⟨_, rfl, ?_⟩
  rw [first, second]
  change compareFlags (writeFlags _ nextVreg _ _ |>.reg nextVreg) 0 = _
  rw [writeFlags_self, LogicOp.value, writeFlags_self, writeFlags_of_ne (by omega), writeFlags_self]

theorem holds_eq_xor : Cond.eq.holds (compareFlags ((lo ^^^ lo') ||| (hi ^^^ hi')) 0) = true ↔ hi ++ lo = hi' ++ lo' :=
  holds_eq.trans xor_or_eq_zero

theorem holds_neUn_xor :
    Cond.neUn.holds (compareFlags ((lo ^^^ lo') ||| (hi ^^^ hi')) 0) = true ↔ hi ++ lo ≠ hi' ++ lo' :=
  holds_neUn.trans (not_congr xor_or_eq_zero)

theorem meets_branch {cond : Cond} {taken : Bool} (is : cond.holds s.flags = taken) :
    Meets dreg (.branches taken) (run (step clobber) [.branch cond .trueBB, .br .falseBB] s) := by
  rw [run_branch, is]
  cases taken with
  | false | true => exact .branches

/-- The entries of `lbr_decomp`: signed orders compare the ms words as signed ones, and all compare the ls words as unsigned
ones. -/
theorem lbrDecomp_taken {next : LongBranch} (entry : lbrDecomp next = some (high, low)) :
    next.taken (hi ++ lo) (hi' ++ lo') = true ↔
      high.holds (compareFlags hi hi') = true ∨ hi = hi' ∧ low.holds (compareFlags lo lo') = true := by
  have sym : hi = hi' ↔ hi' = hi := eq_comm
  cases next with
  | lbeq | lbneUn => cases entry
  | lbge =>
    cases entry
    rw [LongBranch.taken, decide_eq_true_iff, toInt_pair_le (by decide), holds_gt, holds_geUn, sym]
  | lbgt =>
    cases entry
    rw [LongBranch.taken, decide_eq_true_iff, toInt_pair_lt (by decide), holds_gt, holds_gtUn, sym]
  | lble =>
    cases entry
    rw [LongBranch.taken, decide_eq_true_iff, toInt_pair_le (by decide), holds_lt, holds_leUn]
  | lblt =>
    cases entry
    rw [LongBranch.taken, decide_eq_true_iff, toInt_pair_lt (by decide), holds_lt, holds_ltUn]
  | lbgeUn =>
    cases entry
    rw [LongBranch.taken, decide_eq_true_iff, toNat_pair_le, holds_gtUn, holds_geUn, sym]
  | lbgtUn =>
    cases entry
    rw [LongBranch.taken, decide_eq_true_iff, toNat_pair_lt, holds_gtUn, holds_gtUn, sym]
  | lbleUn =>
    cases entry
    rw [LongBranch.taken, decide_eq_true_iff, toNat_pair_le, holds_ltUn, holds_leUn]
  | lbltUn =>
    cases entry
    rw [LongBranch.taken, decide_eq_true_iff, toNat_pair_lt, holds_ltUn, holds_ltUn]

theorem lcsetDecomp_taken (entry : lcsetDecomp next = some (high, low)) : next.taken (hi ++ lo) (hi' ++ lo') = true ↔
      ¬ (high.holds (compareFlags hi hi') = true ∨ hi = hi' ∧ low.holds (compareFlags lo lo') = true) := by
  have sym : hi = hi' ↔ hi' = hi := eq_comm
  cases next with
  | lceq => cases entry
  | lcgt =>
    cases entry
    rw [LongSet.taken, decide_eq_true_iff, ← Int.not_le, toInt_pair_le (by decide), holds_lt, holds_leUn]
  | lcgtUn =>
    cases entry
    rw [LongSet.taken, decide_eq_true_iff, ← Nat.not_le, toNat_pair_le, holds_ltUn, holds_leUn]
  | lclt =>
    cases entry
    rw [LongSet.taken, decide_eq_true_iff, ← Int.not_le, toInt_pair_le (by decide), holds_gt, holds_geUn, sym]
  | lcltUn =>
    cases entry
    rw [LongSet.taken, decide_eq_true_iff, ← Nat.not_le, toNat_pair_le, holds_gtUn, holds_geUn, sym]

theorem run_ordered {dreg' : Nat} (reads : ∀ s', Agree nextVreg dreg s s' → Reads clobber comparison s' hi lo hi' lo')
    {taken : Bool} (is : taken = true ↔
      high.holds (compareFlags hi hi') = true ∨ hi = hi' ∧ low.holds (compareFlags lo lo') = true) :
    Meets dreg' (.branches taken) (run (step clobber)
        [.op comparison.high, .branch high .trueBB, .op comparison.high, .branch .neUn .falseBB, .op comparison.low,
          .branch low .trueBB, .br .falseBB] s) := by
  have highs (s' : State 32) (agree : Agree nextVreg dreg s s') := (reads s' agree).high
  have lows (s' : State 32) (agree : Agree nextVreg dreg s s') := (reads s' agree).low
  rw [run_op, highs s .refl, run_branch]
  by_cases above : high.holds (compareFlags hi hi') = true
  · rw [if_pos above, is.mpr (Or.inl above)]
    exact .branches
  rw [if_neg above, run_op, highs _ (.withFlags .refl), run_branch]
  by_cases other : hi = hi'
  · rw [if_neg (fun differ => holds_neUn.mp differ other), run_op, lows _ (.withFlags .refl)]
    refine meets_branch (Bool.eq_iff_iff.mpr ?_)
    rw [is]
    exact ⟨fun below => Or.inr ⟨other, below⟩, fun either => (either.resolve_left above).2⟩
  · have none_ : taken = false := by
      rw [← Bool.not_eq_true, is]
      tauto
    rw [if_pos (holds_neUn.mpr other), none_]
    exact .branches

theorem value_of_taken (taken : next.taken x y = true) : next.value x y = 1 :=
  if_pos taken

theorem value_of_not_taken (skipped : ¬ next.taken x y = true) : next.value x y = 0 :=
  if_neg skipped

/-- The same comparisons where a register is set, to 0 where the first or the last condition holds. -/
theorem set_ordered (reads : ∀ s', Agree nextVreg dreg s s' → Reads clobber comparison s' hi lo hi' lo')
    (is : next.taken x y = true ↔
      ¬ (high.holds (compareFlags hi hi') = true ∨ hi = hi' ∧ low.holds (compareFlags lo lo') = true)) :
    Meets dreg (.i4 (next.value x y)) (run (step clobber)
        [.op (.iconst dreg 0), .op comparison.high, .branch high .setTo0, .op comparison.high, .branch .neUn .setTo1,
          .op comparison.low, .branch low .setTo0, .startBB .setTo1, .op (.iconst dreg 1), .startBB .setTo0] s) := by
  have zeroed : Agree nextVreg dreg s (writeFlags s dreg 0 (clobber s.flags)) := Agree.refl.write (Or.inr rfl)
  have highs (s' : State 32) (agree : Agree nextVreg dreg s s') := (reads s' agree).high
  have lows (s' : State 32) (agree : Agree nextVreg dreg s s') := (reads s' agree).low
  rw [run_op, step, run_op, highs _ zeroed, run_branch]
  by_cases above : high.holds (compareFlags hi hi') = true
  · rw [if_pos above, value_of_not_taken (fun taken => is.mp taken (Or.inl above))]
    exact meets_i4 writeFlags_self
  rw [if_neg above, run_op, highs _ zeroed.withFlags, run_branch]
  by_cases other : hi = hi'
  · rw [if_neg (fun differ => holds_neUn.mp differ other), run_op, lows _ zeroed.withFlags, run_branch]
    by_cases below : low.holds (compareFlags lo lo') = true
    · rw [if_pos below, value_of_not_taken (fun taken => is.mp taken (Or.inr ⟨other, below⟩))]
      exact meets_i4 writeFlags_self
    · rw [if_neg below, value_of_taken (is.mpr (by tauto))]
      exact meets_i4 writeFlags_self
  · rw [if_pos (holds_neUn.mpr other), value_of_taken (is.mpr (by tauto))]
    exact meets_i4 writeFlags_self

/-- A comparison with a branch behind it takes the branch that the order says. -/
theorem emitBranch_meets {dreg' : Nat} {next : LongBranch} {code : List LongCode}
    (reads : ∀ s', Agree nextVreg dreg s s' → Reads clobber comparison s' hi lo hi' lo')
    (emitted : emitBranch nextVreg comparison next = some code) :
    Meets dreg' (.branches (next.taken (hi ++ lo) (hi' ++ lo'))) (run (step clobber) code s) := by
  unfold emitBranch at emitted
  split at emitted
  · obtain ⟨s', left, flags⟩ := run_emitXor (s := s) reads [.branch .eq .trueBB, .br .falseBB]
    rw [← Option.some.inj emitted, left]
    refine meets_branch (Bool.eq_iff_iff.mpr ?_)
    rw [flags, holds_eq_xor]
    exact beq_iff_eq.symm
  · obtain ⟨s', left, flags⟩ := run_emitXor (s := s) reads [.branch .neUn .trueBB, .br .falseBB]
    rw [← Option.some.inj emitted, left]
    refine meets_branch (Bool.eq_iff_iff.mpr ?_)
    rw [flags, holds_neUn_xor]
    exact bne_iff_ne.symm
  · obtain ⟨⟨high, low⟩, entry, is⟩ := Option.map_eq_some_iff.mp emitted
    rw [← is]
    exact run_ordered reads (lbrDecomp_taken entry)

/-- A comparison with an instruction behind it that sets a register sets it as the order says. -/
theorem emitSet_meets {code : List LongCode}
    (reads : ∀ s', Agree nextVreg dreg s s' → Reads clobber comparison s' hi lo hi' lo')
    (emitted : emitSet nextVreg dreg comparison next = some code) :
    Meets dreg (.i4 (next.value (hi ++ lo) (hi' ++ lo'))) (run (step clobber) code s) := by
  unfold emitSet at emitted
  split at emitted
  · obtain ⟨s', left, flags⟩ := run_emitXor (s := s) reads [.op (.setCond .eq dreg)]
    rw [← Option.some.inj emitted, left, run_op, run_nil]
    refine meets_i4 ?_
    rw [step, writeFlags_self, flags, LongSet.value]
    exact if_congr (holds_eq_xor.trans beq_iff_eq.symm) rfl rfl
  · obtain ⟨⟨high, low⟩, entry, is⟩ := Option.map_eq_some_iff.mp emitted
    rw [← is]
    exact set_ordered reads (lcsetDecomp_taken entry)

end Comparisons

/-! ### Conversions to an `int` -/

section Narrowing

variable {clobber : Flags → Flags} {s : State 32} {dreg sreg1 : Nat} {type source : IntType} {value : Int}
  {code : List LongCode}

/-- A probe of a word: the values for which the condition holds do not fit, and for the others the rest is run. -/
theorem meets_probe {cond : Cond} {r : Nat} {imm : BitVec 32} {P : Prop}
    (is : cond.holds (compareFlags (s.reg r) imm) = true ↔ P) (raise : P → ¬ type.Fits value) (rest : ¬ P →
      Meets dreg (.checked type value) (run (step clobber) code { s with flags := compareFlags (s.reg r) imm })) :
    Meets dreg (.checked type value) (run (step clobber) (.op (.compareImm r imm) :: .condExc cond :: code) s) := by
  change Meets dreg _ (if cond.holds (compareFlags (s.reg r) imm) = true then _ else run (step clobber) code _)
  by_cases holds : cond.holds (compareFlags (s.reg r) imm) = true
  · rw [if_pos holds]
    exact meets_raised.mpr (raise (is.mp holds))
  · rw [if_neg holds]
    exact rest fun isSo => holds (is.mpr isSo)

theorem ofInt_read_reg (bits : 32 ≤ source.bits) : BitVec.ofInt 32 (source.read (long s sreg1)) = s.reg (sreg1 + 1) :=
  (Decompose.ofInt_read source bits).trans low_long

/-- A long is a small value that is not negative where its ms word is 0, whichever way it is read. -/
theorem read_lt_iff {upper : Int} (is : source = .i8 ∨ source = .u8) (most : upper ≤ 4294967296) :
    (0 ≤ source.read (long s sreg1) ∧ source.read (long s sreg1) < upper) ↔
      s.reg (sreg1 + 2) = 0 ∧ ((s.reg (sreg1 + 1)).toNat : Int) < upper := by
  obtain rfl | rfl := is
  · have zero : (0 : BitVec 32).toInt = 0 := rfl
    rw [Decompose.read_i8, toInt_long, ← BitVec.toInt_inj, zero]
    omega
  · have zero : (0 : BitVec 32).toNat = 0 := rfl
    rw [Decompose.read_u8, toNat_long, ← BitVec.toNat_inj, zero]
    omega

/-- The conversions to unsigned bytes and words: the ms word has to be 0, and the ls word in the range of the type. -/
theorem toUnsigned_meets {n : Nat} {mask : BitVec 32} (is : source = .i8 ∨ source = .u8)
    (bits : mask.toNat = 2 ^ n - 1) (narrow : n ≤ 16) : Meets dreg (convOvf source ⟨n, false⟩ (long s sreg1))
      (run (step clobber)
        [.op (.compareImm (sreg1 + 2) 0), .condExc .neUn, .op (.compareImm (sreg1 + 1) mask), .condExc .gtUn,
          .op (.logicImm .and dreg (sreg1 + 1) mask)] s) := by
  have most : (2 : Int) ^ n ≤ 2 ^ 16 := pow_le_pow_right₀ (by decide) narrow
  have cast : ((2 ^ n : Nat) : Int) = 2 ^ n := Nat.cast_pow 2 n
  have positive : 0 < 2 ^ n := Nat.two_pow_pos n
  have word : (2 : Int) ^ n ≤ 4294967296 := most.trans (by decide)
  have wide : 32 ≤ source.bits := by
    obtain rfl | rfl := is
    all_goals decide
  have fits : IntType.Fits ⟨n, false⟩ (source.read (long s sreg1)) ↔
      s.reg (sreg1 + 2) = 0 ∧ ((s.reg (sreg1 + 1)).toNat : Int) < 2 ^ n :=
    read_lt_iff is word
  refine meets_probe holds_neUn (fun differs fit => differs (fits.mp fit).1) fun same => ?_
  refine meets_probe (P := mask.toNat < (s.reg (sreg1 + 1)).toNat) holds_gtUn (fun above fit => ?_) fun below => ?_
  · have inside := (fits.mp fit).2
    omega
  · have small : (s.reg (sreg1 + 1)).toNat < 2 ^ n := by omega
    refine meets_fit (fits.mpr ⟨not_not.mp same, by omega⟩) (meets_int (narrow.trans (by decide)) ?_)
    rw [step, writeFlags_self, ofInt_read_reg wide]
    exact and_mask bits small

/-- The conversions to a signed byte or word. The ms word has to be 0 or -1, and the ls word is in the range of the type for
each of these. -/
theorem emitNarrow_meets {n : Nat} {op : UnaluOp} {lower upper : BitVec 32}
    (converts : ∀ word, op.value word = (word.setWidth n).signExtend 32) (lower_ : lower.toNat = 2 ^ 32 - 2 ^ (n - 1))
    (upper_ : upper.toNat = 2 ^ (n - 1) - 1) (narrow : n ≤ 16) (bits : 0 < n) :
    Meets dreg (convOvf .i8 ⟨n, true⟩ (long s sreg1)) (run (step clobber) (emitNarrow op lower upper dreg sreg1) s) := by
  have cast : ((2 ^ (n - 1) : Nat) : Int) = 2 ^ (n - 1) := Nat.cast_pow 2 (n - 1)
  have fits : IntType.Fits ⟨n, true⟩ (IntType.i8.read (long s sreg1)) ↔
      -2 ^ (n - 1) ≤ (s.reg (sreg1 + 2)).toInt * 4294967296 + (s.reg (sreg1 + 1)).toNat ∧
        (s.reg (sreg1 + 2)).toInt * 4294967296 + (s.reg (sreg1 + 1)).toNat < 2 ^ (n - 1) := by
    rw [Decompose.read_i8, toInt_long]
    exact Iff.rfl
  -- what is left for both signs
  have left (s' : State 32) (same : s'.reg = s.reg) (fit : IntType.Fits ⟨n, true⟩ (IntType.i8.read (long s sreg1))) :
      Meets dreg (.checked ⟨n, true⟩ (IntType.i8.read (long s sreg1)))
        (.finished (step clobber (.unalu op dreg (sreg1 + 1)) s')) := by
    refine meets_fit fit (meets_int (narrow.trans (by decide)) ?_)
    rw [step, writeFlags_self, converts, same]
    exact signExtend_of_fits (ofInt_read_reg (by decide)) narrow bits fit
  refine meets_probe (P := 0 < (s.reg (sreg1 + 2)).toInt) holds_gt (fun above fit => ?_) fun notAbove => ?_
  · have inside := fits.mp fit
    omega
  refine meets_probe (P := (s.reg (sreg1 + 2)).toInt < -1) holds_lt (fun below fit => ?_) fun notBelow => ?_
  · have inside := fits.mp fit
    omega
  rw [run_op, step, run_branch]
  by_cases negative : (s.reg (sreg1 + 2)).toInt < 0
  · rw [if_pos (holds_lt.mpr negative)]
    change Meets dreg _ (run (step clobber)
      [.op (.compareImm (sreg1 + 1) lower), .condExc .ltUn, .startBB .endLabel, .op (.unalu op dreg (sreg1 + 1))] _)
    refine meets_probe (P := (s.reg (sreg1 + 1)).toNat < lower.toNat) holds_ltUn (fun small fit => ?_) fun large => ?_
    · have inside := fits.mp fit
      omega
    · exact left _ rfl (fits.mpr (by omega))
  · rw [if_neg (fun holds => negative (holds_lt.mp holds))]
    refine meets_probe (P := upper.toNat < (s.reg (sreg1 + 1)).toNat) holds_gtUn (fun large fit => ?_) fun small => ?_
    · have inside := fits.mp fit
      omega
    · exact left _ rfl (fits.mpr (by omega))

theorem toU4_meets (is : source = .i8 ∨ source = .u8) : Meets dreg (convOvf source .u4 (long s sreg1)) (run (step clobber)
        [.op (.compareImm (sreg1 + 2) 0), .condExc .neUn, .op (.unalu .move dreg (sreg1 + 1))] s) := by
  have wide : 32 ≤ source.bits := by
    obtain rfl | rfl := is
    all_goals decide
  have fits : IntType.u4.Fits (source.read (long s sreg1)) ↔
      s.reg (sreg1 + 2) = 0 ∧ ((s.reg (sreg1 + 1)).toNat : Int) < 4294967296 :=
    read_lt_iff is le_rfl
  refine meets_probe holds_neUn (fun differs fit => differs (fits.mp fit).1) fun same => ?_
  refine meets_fit (fits.mpr ⟨not_not.mp same, by omega⟩) (meets_int (by decide) ?_)
  rw [step, writeFlags_self, ofInt_read_reg wide]
  rfl

theorem toI4Un_meets : Meets dreg (convOvf .u8 .i4 (long s sreg1)) (run (step clobber)
        [.op (.compareImm (sreg1 + 2) 0), .condExc .neUn, .op (.compareImm (sreg1 + 1) 0), .condExc .lt,
          .op (.unalu .move dreg (sreg1 + 1))] s) := by
  have sign := BitVec.toInt_pos_iff (x := s.reg (sreg1 + 1))
  have fits : IntType.i4.Fits (IntType.u8.read (long s sreg1)) ↔
      s.reg (sreg1 + 2) = 0 ∧ ((s.reg (sreg1 + 1)).toNat : Int) < 2147483648 := by
    rw [← read_lt_iff (Or.inr rfl) (by decide), Decompose.fits_i4, Decompose.read_u8]
    omega
  refine meets_probe holds_neUn (fun differs fit => differs (fits.mp fit).1) fun same => ?_
  refine meets_probe (P := (s.reg (sreg1 + 1)).toInt < 0) holds_lt (fun negative fit => ?_) fun positive => ?_
  · have inside := (fits.mp fit).2
    omega
  · refine meets_fit (fits.mpr ⟨not_not.mp same, by omega⟩) (meets_int (by decide) ?_)
    rw [step, writeFlags_self, ofInt_read_reg (by decide)]
    rfl

theorem toLong_meets (is : source = .i8 ∧ type = .u8 ∨ source = .u8 ∧ type = .i8) (apart : Apart dreg 3 sreg1 3) :
    Meets dreg (convOvf source type (long s sreg1)) (run (step clobber)
        [.op (.compareImm (sreg1 + 2) 0), .condExc .lt, .op (.unalu .move (dreg + 1) (sreg1 + 1)),
          .op (.unalu .move (dreg + 2) (sreg1 + 2))] s) := by
  have bits : source.bits = 64 ∧ type.bits = 64 := by
    obtain ⟨rfl, rfl⟩ | ⟨rfl, rfl⟩ := is
    all_goals exact ⟨rfl, rfl⟩
  have sign := BitVec.toInt_pos_iff (x := s.reg (sreg1 + 2))
  have bound' := (s.reg (sreg1 + 2)).toInt_lt
  have fits : type.Fits (source.read (long s sreg1)) ↔ ¬ (s.reg (sreg1 + 2)).toInt < 0 := by
    obtain ⟨rfl, rfl⟩ | ⟨rfl, rfl⟩ := is
    · rw [Decompose.fits_u8, Decompose.read_i8, toInt_long]
      omega
    · rw [Decompose.fits_i8, Decompose.read_u8, toNat_long]
      omega
  refine meets_probe holds_lt (fun negative fit => fits.mp fit negative) fun positive => ?_
  refine meets_fit (fits.mpr positive) (meets_long (by rw [bits.2]; decide) ?_)
  rw [Decompose.ofInt_read_long bits.1]
  exact long_move apart

theorem run_probe {cond : Cond} {r : Nat} {imm : BitVec 32} (passes : ¬ cond.holds (compareFlags (s.reg r) imm) = true) :
    run (step clobber) (.op (.compareImm r imm) :: .condExc cond :: code) s =
      run (step clobber) code { s with flags := compareFlags (s.reg r) imm } :=
  if_neg passes

/-- The `.un` conversions to a signed byte or word compare the ls word as a signed one: unsigned values are accepted whose ls
word is negative in the range of the type. -/
theorem toSignedUn_meets_iff {n : Nat} {op : UnaluOp} {lower upper : BitVec 32}
    (converts : ∀ word, op.value word = (word.setWidth n).signExtend 32) (lower_ : lower.toInt = -2 ^ (n - 1))
    (upper_ : upper.toInt = 2 ^ (n - 1) - 1) (narrow : n ≤ 16) (bits : 0 < n) :
    Meets dreg (convOvf .u8 ⟨n, true⟩ (long s sreg1)) (run (step clobber)
          [.op (.compareImm (sreg1 + 2) 0), .condExc .neUn, .op (.compareImm (sreg1 + 1) upper), .condExc .gt,
            .op (.compareImm (sreg1 + 1) lower), .condExc .lt, .op (.unalu op dreg (sreg1 + 1))] s) ↔
      ¬ (2 ^ 32 - 2 ^ (n - 1) ≤ (long s sreg1).toNat ∧ (long s sreg1).toNat < 2 ^ 32) := by
  have most : (2 : Int) ^ (n - 1) ≤ 2 ^ 16 := pow_le_pow_right₀ (by decide) (by omega)
  have cast : ((2 ^ (n - 1) : Nat) : Int) = 2 ^ (n - 1) := Nat.cast_pow 2 (n - 1)
  have signed := BitVec.toInt_eq_toNat_cond (s.reg (sreg1 + 1))
  have value : (long s sreg1).toNat = _ := toNat_long
  have zero : s.reg (sreg1 + 2) = 0 ↔ (s.reg (sreg1 + 2)).toNat = 0 := BitVec.toNat_inj.symm
  have fits : IntType.Fits ⟨n, true⟩ (IntType.u8.read (long s sreg1)) ↔ (long s sreg1).toNat < 2 ^ (n - 1) := by
    change (-2 ^ (n - 1) ≤ ((long s sreg1).toNat : Int) ∧ ((long s sreg1).toNat : Int) < 2 ^ (n - 1)) ↔ _
    omega
  constructor
  · rintro meets ⟨least, small⟩
    -- the ls word is negative: no probe raises
    have same : s.reg (sreg1 + 2) = 0 := zero.mpr (by omega)
    have negative : (s.reg (sreg1 + 1)).toInt = (s.reg (sreg1 + 1)).toNat - 2 ^ 32 := by
      rw [signed, if_neg (by omega)]
      rfl
    have notAbove : ¬ upper.toInt < (s.reg (sreg1 + 1)).toInt := by omega
    have notBelow : ¬ (s.reg (sreg1 + 1)).toInt < lower.toInt := by omega
    rw [convOvf, run_probe (fun differs => holds_neUn.mp differs same), run_probe, run_probe] at meets
    · have inside := fits.mp meets.fits
      omega
    · exact fun below => notBelow (holds_lt.mp below)
    · exact fun above => notAbove (holds_gt.mp above)
  · intro outside
    refine meets_probe holds_neUn (fun differs fit => ?_) fun same => ?_
    · have inside := fits.mp fit
      exact differs (zero.mpr (by omega))
    have same := zero.mp (not_not.mp same)
    refine meets_probe (P := upper.toInt < (s.reg (sreg1 + 1)).toInt) holds_gt (fun above fit => ?_) fun notAbove => ?_
    · have inside := fits.mp fit
      omega
    refine meets_probe (P := (s.reg (sreg1 + 1)).toInt < lower.toInt) holds_lt (fun below fit => ?_) fun notBelow => ?_
    · have inside := fits.mp fit
      omega
    have fit := fits.mpr (by omega)
    refine meets_fit fit (meets_int (narrow.trans (by decide)) ?_)
    rw [step, writeFlags_self, converts]
    exact signExtend_of_fits (ofInt_read_reg (by decide)) narrow bits fit

theorem read_long (narrow : type.bits ≤ 32) : type.read (long s sreg1) = type.read (s.reg (sreg1 + 1)) := by
  have low : (s.reg (sreg1 + 1)).setWidth type.bits = (long s sreg1).setWidth type.bits := by
    rw [← low_long, Decompose.low, BitVec.setWidth_setWidth_of_le _ narrow]
  rw [IntType.read, IntType.read, low]

theorem ofInt_read_word (word : BitVec 32) (bits : type.bits = 32) : word = BitVec.ofInt 32 (type.read word) := by
  unfold IntType.read
  rw [bits, BitVec.setWidth_eq]
  split
  · exact BitVec.ofInt_toInt.symm
  · rw [ofInt_toNat, BitVec.setWidth_eq]

theorem lconv_meets {op : UnaluOp} (narrow : type.bits ≤ 32)
    (left : ∀ word, op.value word = BitVec.ofInt 32 (type.read word)) :
    Meets dreg (conv .i8 type (long s sreg1)) (run (step clobber) [.op (.unalu op dreg (sreg1 + 1))] s) := by
  refine meets_int narrow ?_
  rw [step, writeFlags_self, left, Decompose.ofInt_read_long rfl, read_long narrow]

end Narrowing

/-! ### Conversions to a `long` -/

section Widening

variable {clobber : Flags → Flags} {s : State 32} {nextVreg dreg sreg1 : Nat} {source type : IntType}
  {word : BitVec 32}

theorem read_i4 : IntType.i4.read word = word.toInt :=
  congrArg BitVec.toInt (BitVec.setWidth_eq word)

theorem read_u4 : IntType.u4.read word = word.toNat :=
  congrArg (fun bits : BitVec 32 => (bits.toNat : Int)) (BitVec.setWidth_eq word)

theorem ofInt_toNat_pair : BitVec.ofInt 64 word.toNat = (0 : BitVec 32) ++ word := by
  have pair : BitVec.ofInt 64 (0 * 2 ^ 32 + word.toNat) = _ := @ofInt_pair 32 word 0
  rw [Int.zero_mul, Int.zero_add] at pair
  exact pair

theorem ofInt_toInt_pair :
    BitVec.ofInt 64 word.toInt = (if word.toInt < 0 then -1 else 0 : BitVec 32) ++ word := by
  have signed := BitVec.toInt_eq_toNat_cond word
  split
  next negative =>
    have is : word.toInt = -1 * 2 ^ 32 + word.toNat := by
      split at signed
      all_goals omega
    rw [is]
    exact @ofInt_pair 32 word (-1)
  next positive =>
    have is : word.toInt = word.toNat := by
      split at signed
      all_goals omega
    rw [is]
    exact ofInt_toNat_pair

theorem meets_widened {w : Nat} {x : BitVec w} (bits : type.bits = 64)
    (left : long s dreg = BitVec.ofInt 64 (source.read x)) : Meets dreg (conv source type x) (.finished s) := by
  refine meets_long (by rw [bits]; decide) ?_
  rw [left, Decompose.ofInt_read_long bits]

/-- The branchless sign: the ms word is 1 - 1 where the `int` is above -1, and 0 - 1 elsewhere. -/
theorem iconvToI8_meets (fresh : dreg + 3 ≤ nextVreg) : Meets dreg (conv .i4 .i8 (s.reg sreg1)) (run (step clobber)
        [.op (.unalu .move (dreg + 1) sreg1), .op (.compareImm (dreg + 1) (-1)), .op (.setCond .gt nextVreg),
          .op (.isubImm (dreg + 2) nextVreg 1)] s) := by
  refine meets_widened rfl ?_
  simp only [step, long, writeFlags_self, UnaluOp.value]
  rw [writeFlags_of_ne (by omega : dreg + 1 ≠ dreg + 2), writeFlags_of_ne (by omega : dreg + 1 ≠ nextVreg),
    writeFlags_self, read_i4, ofInt_toInt_pair]
  congr 1
  by_cases negative : (s.reg sreg1).toInt < 0
  · have skips : ¬ Cond.gt.holds (compareFlags (s.reg sreg1) (-1)) = true := by
      rw [holds_gt]
      exact not_lt.mpr (Int.le_sub_one_of_lt negative)
    rw [if_neg skips, if_pos negative]
    rfl
  · have sets : Cond.gt.holds (compareFlags (s.reg sreg1) (-1)) = true :=
      holds_gt.mpr (Int.sub_one_lt_of_le (not_lt.mp negative))
    rw [if_pos sets, if_neg negative]
    rfl

theorem sshiftRight_sign : word.sshiftRight 31 = if word.toInt < 0 then -1 else 0 := by
  have lower := word.le_toInt
  have upper := word.toInt_lt
  apply BitVec.eq_of_toInt_eq
  rw [BitVec.toInt_sshiftRight, Int.shiftRight_eq_div_pow]
  split
  next negative => exact Int.ediv_eq_neg_one_of_neg_of_le negative (by omega)
  next positive => exact Int.ediv_eq_zero_of_lt (not_lt.mp positive) upper

theorem iconvToOvfI8_meets (apart : Apart dreg 3 sreg1 1) : Meets dreg (convOvf .i4 .i8 (s.reg sreg1))
      (run (step clobber) [.op (.shrImm (dreg + 2) sreg1 31), .op (.unalu .move (dreg + 1) sreg1)] s) := by
  have lower := (s.reg sreg1).le_toInt
  have upper := (s.reg sreg1).toInt_lt
  have fits : IntType.i8.Fits (IntType.i4.read (s.reg sreg1)) := by
    rw [Decompose.fits_i8, read_i4]
    omega
  refine meets_fit fits (meets_long (by decide) ?_)
  rw [step, step, long_highFirst, writeFlags_of_ne apart.int.2, sshiftRight_sign, read_i4, ofInt_toInt_pair]
  rfl

theorem zext_left (apart : Apart dreg 3 sreg1 1) :
    long (step clobber (.unalu .move (dreg + 1) sreg1) (step clobber (.iconst (dreg + 2) 0) s)) dreg =
      (0 : BitVec 32) ++ s.reg sreg1 := by
  rw [step, step, long_highFirst, writeFlags_of_ne apart.int.2]
  rfl

theorem iconvToOvfUn_meets (is : type = .i8 ∨ type = .u8) (apart : Apart dreg 3 sreg1 1) :
    Meets dreg (convOvf .u4 type (s.reg sreg1))
      (run (step clobber) [.op (.iconst (dreg + 2) 0), .op (.unalu .move (dreg + 1) sreg1)] s) := by
  have bits : type.bits = 64 := by
    obtain rfl | rfl := is
    all_goals rfl
  have fits : type.Fits (IntType.u4.read (s.reg sreg1)) := by
    obtain rfl | rfl := is
    · rw [Decompose.fits_i8, read_u4]
      omega
    · rw [Decompose.fits_u8, read_u4]
      omega
  refine meets_fit fits (meets_long (by rw [bits]; decide) ?_)
  rw [zext_left apart, read_u4, ofInt_toNat_pair]

theorem iconvToOvfU8_meets (apart : Apart dreg 3 sreg1 1) : Meets dreg (convOvf .i4 .u8 (s.reg sreg1)) (run (step clobber)
        [.op (.compareImm sreg1 0), .condExc .lt, .op (.iconst (dreg + 2) 0), .op (.unalu .move (dreg + 1) sreg1)] s) := by
  have upper := (s.reg sreg1).toInt_lt
  have fits : IntType.u8.Fits (IntType.i4.read (s.reg sreg1)) ↔ ¬ (s.reg sreg1).toInt < 0 := by
    rw [Decompose.fits_u8, read_i4]
    omega
  refine meets_probe holds_lt (fun negative fit => fits.mp fit negative) fun positive => ?_
  have fit := fits.mpr positive
  refine meets_fit fit (meets_long (by decide) ?_)
  rw [zext_left apart, read_i4, ofInt_toInt_pair, if_neg (fits.mp fit)]

theorem iconvToU8_meets : Meets dreg (conv .u4 .u8 (s.reg sreg1))
      (run (step clobber) [.op (.unalu .move (dreg + 1) sreg1), .op (.iconst (dreg + 2) 0)] s) := by
  refine meets_widened rfl ?_
  rw [step, step, long_lowFirst, read_u4, ofInt_toNat_pair]
  rfl

end Widening

/-! ### Checked sums and differences -/

section Checked

variable {clobber : Flags → Flags} {s : State 32} {dreg sreg1 sreg2 : Nat} {type : IntType} {value : Int}

theorem meets_flags {cond : Cond} {low high : Ins}
    (left : long (step clobber high (step clobber low s)) dreg = BitVec.ofInt 64 value) (bits : ¬ type.bits ≤ 32)
    (raise : cond.holds (step clobber high (step clobber low s)).flags = true ↔ ¬ type.Fits value) :
    Meets dreg (.checked type value) (run (step clobber) [.op low, .op high, .condExc cond] s) := by
  rw [run_op, run_op, run_condExc, run_nil]
  by_cases holds : cond.holds (step clobber high (step clobber low s)).flags = true
  · rw [if_pos holds]
    exact meets_raised.mpr (raise.mp holds)
  · rw [if_neg holds]
    exact meets_fit (by_contra fun unfit => holds (raise.mpr unfit)) (meets_long bits left)

theorem laddOvf_meets (apart : Apart dreg 3 sreg1 3) (apart' : Apart dreg 3 sreg2 3) :
    Meets dreg (addOvf .i8 (long s sreg1) (long s sreg2)) (run (step clobber)
        [.op (.arith .addcc (dreg + 1) (sreg1 + 1) (sreg2 + 1)), .op (.arith .adc (dreg + 2) (sreg1 + 2) (sreg2 + 2)),
          .condExc .ov] s) := by
  refine meets_flags ?_ (by decide) ?_
  · rw [ladd_left apart apart', BitVec.ofInt_add, Decompose.ofInt_read_long rfl, Decompose.ofInt_read_long rfl]
  · rw [step_arith apart apart', writeFlags_flags, Decompose.read_i8, Decompose.read_i8]
    exact holds_pair_ov_adc (by decide)

theorem laddOvfUn_meets (apart : Apart dreg 3 sreg1 3) (apart' : Apart dreg 3 sreg2 3) :
    Meets dreg (addOvf .u8 (long s sreg1) (long s sreg2)) (run (step clobber)
        [.op (.arith .addcc (dreg + 1) (sreg1 + 1) (sreg2 + 1)), .op (.arith .adc (dreg + 2) (sreg1 + 2) (sreg2 + 2)),
          .condExc .c] s) := by
  refine meets_flags ?_ (by decide) ?_
  · rw [ladd_left apart apart', BitVec.ofInt_add, Decompose.ofInt_read_long rfl, Decompose.ofInt_read_long rfl]
  · rw [step_arith apart apart', writeFlags_flags, Decompose.read_u8, Decompose.read_u8, Decompose.fits_u8]
    refine holds_pair_c_adc.trans ?_
    change 2 ^ 64 ≤ (long s sreg1).toNat + (long s sreg2).toNat ↔ _
    omega

theorem lsubOvf_meets (apart : Apart dreg 3 sreg1 3) (apart' : Apart dreg 3 sreg2 3) :
    Meets dreg (subOvf .i8 (long s sreg1) (long s sreg2)) (run (step clobber)
        [.op (.arith .subcc (dreg + 1) (sreg1 + 1) (sreg2 + 1)), .op (.arith .sbb (dreg + 2) (sreg1 + 2) (sreg2 + 2)),
          .condExc .ov] s) := by
  refine meets_flags ?_ (by decide) ?_
  · rw [lsub_left apart apart', ofInt_sub, Decompose.ofInt_read_long rfl, Decompose.ofInt_read_long rfl]
  · rw [step_arith apart apart', writeFlags_flags, Decompose.read_i8, Decompose.read_i8]
    exact holds_pair_ov_sbb (by decide)

theorem lsubOvfUn_meets (apart : Apart dreg 3 sreg1 3) (apart' : Apart dreg 3 sreg2 3) :
    Meets dreg (subOvf .u8 (long s sreg1) (long s sreg2)) (run (step clobber)
        [.op (.arith .subcc (dreg + 1) (sreg1 + 1) (sreg2 + 1)), .op (.arith .sbb (dreg + 2) (sreg1 + 2) (sreg2 + 2)),
          .condExc .c] s) := by
  refine meets_flags ?_ (by decide) ?_
  · rw [lsub_left apart apart', ofInt_sub, Decompose.ofInt_read_long rfl, Decompose.ofInt_read_long rfl]
  · rw [step_arith apart apart', writeFlags_flags, Decompose.read_u8, Decompose.read_u8, Decompose.fits_u8]
    refine holds_pair_c_sbb.trans ?_
    change (long s sreg1).toNat < (long s sreg2).toNat ↔ _
    omega

end Checked

/-! ### Main result -/

section Main

variable {clobber : Flags → Flags} {s : State 32} {nextVreg dreg sreg1 sreg2 : Nat} {code : List LongCode}

/-- What is emitted for an opcode meets the meaning of it. -/
def Met (clobber : Flags → Flags) (dreg sreg1 sreg2 : Nat) (s : State 32) (op : Opcode) (code : List LongCode) : Prop :=
  Meets dreg (op.meaning (s.reg sreg1) (long s sreg1) (long s sreg2)) (run (step clobber) code s)

/-- A comparison of two longs, with a branch behind it. No register is written but fresh ones. -/
theorem lcompareBranch_met {next : LongBranch} (operands : Operands (.lcompareBranch next) nextVreg dreg sreg1 sreg2)
    (emitted : decomposeLongOpts nextVreg dreg sreg1 sreg2 (.lcompareBranch next) = some code) :
    Met clobber dreg sreg1 sreg2 s (.lcompareBranch next) code := by
  have before : sreg1 + 3 ≤ nextVreg := operands.sreg1_le
  have before' : sreg2 + 3 ≤ nextVreg := operands.sreg2_le
  have reads (s' : State 32) (agree : Agree nextVreg nextVreg s s') :=
    @lcompare_reads clobber s nextVreg nextVreg sreg1 sreg2 s' (allocIreg_apart before).1 before
      (allocIreg_apart before').1 before' agree
  exact emitBranch_meets reads emitted

theorem lcompareImmBranch_met {imm : BitVec 64} {next : LongBranch}
    (operands : Operands (.lcompareImmBranch imm next) nextVreg dreg sreg1 sreg2)
    (emitted : decomposeLongOpts nextVreg dreg sreg1 sreg2 (.lcompareImmBranch imm next) = some code) :
    Met clobber dreg sreg1 sreg2 s (.lcompareImmBranch imm next) code := by
  have before : sreg1 + 3 ≤ nextVreg := operands.sreg1_le
  have reads (s' : State 32) (agree : Agree nextVreg nextVreg s s') :=
    @lcompareImm_reads clobber s nextVreg nextVreg sreg1 s' imm (allocIreg_apart before).1 before agree
  have meets : Meets dreg (.branches (next.taken (long s sreg1) (msWord imm ++ lsWord imm))) _ :=
    emitBranch_meets reads emitted
  rw [words_eq] at meets
  exact meets

/-- A comparison with an instruction behind it that sets a register, which is no operand. -/
theorem lcompareSet_met {next : LongSet} (operands : Operands (.lcompareSet next) nextVreg dreg sreg1 sreg2)
    (emitted : decomposeLongOpts nextVreg dreg sreg1 sreg2 (.lcompareSet next) = some code) :
    Met clobber dreg sreg1 sreg2 s (.lcompareSet next) code := by
  have reads (s' : State 32) (agree : Agree nextVreg dreg s s') :=
    @lcompare_reads clobber s nextVreg dreg sreg1 sreg2 s' operands.dreg_sreg1 operands.sreg1_le operands.dreg_sreg2
      operands.sreg2_le agree
  exact emitSet_meets reads emitted

theorem lcompareImmSet_met {imm : BitVec 64} {next : LongSet}
    (operands : Operands (.lcompareImmSet imm next) nextVreg dreg sreg1 sreg2)
    (emitted : decomposeLongOpts nextVreg dreg sreg1 sreg2 (.lcompareImmSet imm next) = some code) :
    Met clobber dreg sreg1 sreg2 s (.lcompareImmSet imm next) code := by
  have reads (s' : State 32) (agree : Agree nextVreg dreg s s') :=
    @lcompareImm_reads clobber s nextVreg dreg sreg1 s' imm operands.dreg_sreg1 operands.sreg1_le agree
  have meets := emitSet_meets (s := s) reads emitted
  rw [words_eq] at meets
  exact meets

theorem meets_emitPair {low high : Ins} {value : BitVec 64}
    (left : long (step clobber high (step clobber low s)) dreg = value) :
    Meets dreg (.i8 value) (run (step clobber) (emitPair low high) s) :=
  meets_i8 left

theorem copy_left {source : IntType} (apart : Apart dreg 3 sreg1 3) (bits : source.bits = 64) :
    long (step clobber (.unalu .move (dreg + 2) (sreg1 + 2)) (step clobber (.unalu .move (dreg + 1) (sreg1 + 1)) s)) dreg =
      BitVec.ofInt 64 (source.read (long s sreg1)) :=
  (long_move apart).trans (Decompose.ofInt_read_long bits).symm

theorem copyOvf_meets {type : IntType} (is : type = .i8 ∨ type = .u8) (apart : Apart dreg 3 sreg1 3) :
    Meets dreg (convOvf type type (long s sreg1)) (run (step clobber)
        (emitPair (.unalu .move (dreg + 1) (sreg1 + 1)) (.unalu .move (dreg + 2) (sreg1 + 2))) s) := by
  have lower := (long s sreg1).le_toInt
  have upper := (long s sreg1).toInt_lt
  obtain rfl | rfl := is
  · refine meets_fit ?_ (meets_long (by decide) (copy_left apart rfl))
    rw [Decompose.fits_i8, Decompose.read_i8]
    omega
  · refine meets_fit ?_ (meets_long (by decide) (copy_left apart rfl))
    rw [Decompose.fits_u8, Decompose.read_u8]
    omega

theorem lshrUnImm_met {amount : Nat}
    (emitted : decomposeLongOpts nextVreg dreg sreg1 sreg2 (.lshrUnImm amount) = some code) :
    Met clobber dreg sreg1 sreg2 s (.lshrUnImm amount) code := by
  change (if amount = 32 then _ else none) = some code at emitted
  split at emitted
  next is =>
    subst is
    rw [← Option.some.inj emitted]
    refine meets_i8 ?_
    rw [step, step, long_lowFirst]
    exact pair_ushiftRight.symm
  next => cases emitted

theorem lshlImm_met {amount : Nat} (emitted : decomposeLongOpts nextVreg dreg sreg1 sreg2 (.lshlImm amount) = some code) :
    Met clobber dreg sreg1 sreg2 s (.lshlImm amount) code := by
  change (if amount = 32 then _ else none) = some code at emitted
  split at emitted
  next is =>
    subst is
    rw [← Option.some.inj emitted]
    refine meets_i8 ?_
    rw [step, step, long_highFirst]
    exact pair_shiftLeft.symm
  next => cases emitted

end Main

/-! ### All opcodes -/

/-- For every opcode and whatever the registers hold, the emitted instructions leave the value, take the branch and raise the
exception that the CLI operation on 64 bits prescribes, where the condition of the opcode holds and only there. -/
theorem decomposeLongOpts_meets_iff (clobber : Flags → Flags) (nextVreg dreg sreg1 sreg2 : Nat) (s : State 32) (op : Opcode)
    {code : List LongCode}
    (operands : Operands op nextVreg dreg sreg1 sreg2)
    (emitted : decomposeLongOpts nextVreg dreg sreg1 sreg2 op = some code) :
    Meets dreg (op.meaning (s.reg sreg1) (long s sreg1) (long s sreg2)) (run (step clobber) code s) ↔
      op.Holds (long s sreg1) := by
  have first := operands.dreg_sreg1
  have second := operands.dreg_sreg2
  cases op with
  | i8const value =>
      cases emitted
      refine iff_of_true (meets_emitPair ?_) trivial
      rw [step, step, long_lowFirst, words_eq]
  | lmove =>
      cases emitted
      exact iff_of_true (meets_emitPair (long_move first)) trivial
  | lconvToU8 | lconvToI8 =>
      cases emitted
      exact iff_of_true (meets_widened rfl (copy_left first rfl)) trivial
  | lconvToOvfU8Un =>
      cases emitted
      exact iff_of_true (copyOvf_meets (Or.inr rfl) first) trivial
  | lconvToOvfI8 =>
      cases emitted
      exact iff_of_true (copyOvf_meets (Or.inl rfl) first) trivial
  | iconvToI8 =>
      cases emitted
      exact iff_of_true (iconvToI8_meets operands.dreg_le) trivial
  | iconvToU8 =>
      cases emitted
      exact iff_of_true iconvToU8_meets trivial
  | iconvToOvfI8 =>
      cases emitted
      exact iff_of_true (iconvToOvfI8_meets first) trivial
  | iconvToOvfU8 =>
      cases emitted
      exact iff_of_true (iconvToOvfU8_meets first) trivial
  | iconvToOvfI8Un =>
      cases emitted
      exact iff_of_true (iconvToOvfUn_meets (Or.inl rfl) first) trivial
  | iconvToOvfU8Un =>
      cases emitted
      exact iff_of_true (iconvToOvfUn_meets (Or.inr rfl) first) trivial
  | lconvToI1 | lconvToI2 =>
      cases emitted
      exact iff_of_true (lconv_meets (by decide) fun _ => rfl) trivial
  | lconvToU1 | lconvToU2 =>
      cases emitted
      exact iff_of_true (lconv_meets (by decide) fun _ => ofInt_toNat.symm) trivial
  | lconvToI4 | lconvToI | lconvToU4 | lconvToU =>
      cases emitted
      exact iff_of_true (lconv_meets (by decide) (ofInt_read_word · rfl)) trivial
  | lconvToOvfI1 | lconvToOvfI2 =>
      cases emitted
      exact iff_of_true (emitNarrow_meets (fun _ => rfl) rfl rfl (by decide) (by decide)) trivial
  | lconvToOvfI1Un | lconvToOvfI2Un =>
      cases emitted
      exact toSignedUn_meets_iff (fun _ => rfl) rfl rfl (by decide) (by decide)
  | lconvToOvfU1 | lconvToOvfU2 =>
      cases emitted
      exact iff_of_true (toUnsigned_meets (Or.inl rfl) rfl (by decide)) trivial
  | lconvToOvfU1Un | lconvToOvfU2Un =>
      cases emitted
      exact iff_of_true (toUnsigned_meets (Or.inr rfl) rfl (by decide)) trivial
  | lconvToOvfU4 | lconvToOvfU =>
      cases emitted
      exact iff_of_true (toU4_meets (Or.inl rfl)) trivial
  | lconvToOvfU4Un | lconvToOvfUUn =>
      cases emitted
      exact iff_of_true (toU4_meets (Or.inr rfl)) trivial
  | lconvToOvfIUn | lconvToOvfI4Un =>
      cases emitted
      exact iff_of_true (toI4Un_meets) trivial
  | lconvToOvfU8 =>
      cases emitted
      exact iff_of_true (toLong_meets (Or.inl ⟨rfl, rfl⟩) first) trivial
  | lconvToOvfI8Un =>
      cases emitted
      exact iff_of_true (toLong_meets (Or.inr ⟨rfl, rfl⟩) first) trivial
  | ladd =>
      cases emitted
      exact iff_of_true (meets_emitPair (ladd_left first second)) trivial
  | lsub =>
      cases emitted
      exact iff_of_true (meets_emitPair (lsub_left first second)) trivial
  | laddOvf =>
      cases emitted
      exact iff_of_true (laddOvf_meets first second) trivial
  | laddOvfUn =>
      cases emitted
      exact iff_of_true (laddOvfUn_meets first second) trivial
  | lsubOvf =>
      cases emitted
      exact iff_of_true (lsubOvf_meets first second) trivial
  | lsubOvfUn =>
      cases emitted
      exact iff_of_true (lsubOvfUn_meets first second) trivial
  | land | lor | lxor =>
      cases emitted
      exact iff_of_true (meets_emitPair (long_logic first second)) trivial
  | lnot =>
      cases emitted
      exact iff_of_true (meets_emitPair (long_not first)) trivial
  | laddImm imm =>
      cases emitted
      exact iff_of_true (meets_emitPair (laddImm_left first)) trivial
  | lsubImm imm =>
      cases emitted
      exact iff_of_true (meets_emitPair (lsubImm_left first)) trivial
  | landImm imm | lorImm imm | lxorImm imm =>
      cases emitted
      exact iff_of_true (meets_emitPair (long_logicImm first)) trivial
  | lshrUnImm amount => exact iff_of_true (lshrUnImm_met emitted) trivial
  | lshlImm amount => exact iff_of_true (lshlImm_met emitted) trivial
  | lcompareBranch next => exact iff_of_true (lcompareBranch_met operands emitted) trivial
  | lcompareSet next => exact iff_of_true (lcompareSet_met operands emitted) trivial
  | lcompareImmBranch imm next => exact iff_of_true (lcompareImmBranch_met operands emitted) trivial
  | lcompareImmSet imm next => exact iff_of_true (lcompareImmSet_met operands emitted) trivial

/-- Registers that all hold one word, but for one. -/
def holding (word : BitVec 32) (reg : Nat) (other : BitVec 32) : State 32 where
  reg r := if r = reg then other else word
  flags := ⟨false, false, false, false⟩

/-- The sum of two longs in the registers 0 and 3. -/
theorem decomposeLongOpts_meets_iff_ladd :
    Meets 6 (.i8 0xfffffffe)
      (run (step id) (emitPair (.arith .addcc 7 1 4) (.arith .adc 8 2 5)) (holding 0xffffffff 2 0)) := by
  have operands : Operands .ladd 9 6 0 3 :=
    ⟨Or.inr (Or.inr (by decide)), Or.inr (Or.inr (by decide)), by decide, by decide, by decide⟩
  have sum : long (holding 0xffffffff 2 0) 0 + long (holding 0xffffffff 2 0) 3 = 0xfffffffe := by decide
  exact (decomposeLongOpts_meets_iff id 9 6 0 3 (holding 0xffffffff 2 0) .ladd operands rfl).mpr trivial

/-- An unsigned long of 32 bits, whose ls word is negative in the range of a signed byte, is converted without an
exception. -/
theorem decomposeLongOpts_misses :
    Operands .lconvToOvfI1Un 4 3 0 0 ∧
      Opcode.lconvToOvfI1Un.meaning 0 0xffffff80 0 = .raises ∧
      long (holding 0 1 0xffffff80) 0 = 0xffffff80 ∧
      ∃ code s, decomposeLongOpts 4 3 0 0 .lconvToOvfI1Un = some code ∧
        run (step id) code (holding 0 1 0xffffff80) = .finished s ∧ s.reg 3 = 0xffffff80 := by
  refine ⟨?_, by decide, by decide, _, _, rfl, rfl, writeFlags_self.trans (by decide)⟩
  exact ⟨Or.inr (Or.inr (by decide)), Or.inr (Or.inr (by decide)), by decide, by decide, by decide⟩

end MonoRuntime.DecomposeLong
