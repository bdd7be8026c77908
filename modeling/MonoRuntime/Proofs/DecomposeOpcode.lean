/-
Module: MonoRuntime.Proofs.DecomposeOpcode
Purpose: The instructions that `mono_decompose_opcode` emits do what the CLI says, for every content of the registers, but
  for four opcodes whose comparison looks at the whole register where an `int` is meant. For these the registers on which
  they do are given.
Trusted boundary: none (fully proved)
Main exports: decomposeOpcode_meets_iff, decomposeOpcode_misses
-/
import MonoRuntime.Mini.DecomposeOpcode

namespace MonoRuntime.Decompose

open WordMachine

/-! ### Values of the integer types -/

section Values

variable {x : BitVec 64} {value : Int}

theorem read_i4 : IntType.i4.read x = (low x).toInt :=
  rfl

theorem read_u4 : IntType.u4.read x = (low x).toNat :=
  rfl

theorem read_i8 : IntType.i8.read x = x.toInt :=
  congrArg BitVec.toInt (BitVec.setWidth_eq x)

theorem read_u8 : IntType.u8.read x = x.toNat :=
  congrArg (fun word : BitVec 64 => (word.toNat : Int)) (BitVec.setWidth_eq x)

theorem fits_i4 : IntType.i4.Fits value ↔ -2147483648 ≤ value ∧ value < 2147483648 :=
  Iff.rfl

theorem fits_u4 : IntType.u4.Fits value ↔ 0 ≤ value ∧ value < 4294967296 :=
  Iff.rfl

theorem fits_i8 : IntType.i8.Fits value ↔ -9223372036854775808 ≤ value ∧ value < 9223372036854775808 :=
  Iff.rfl

theorem fits_u8 : IntType.u8.Fits value ↔ 0 ≤ value ∧ value < 18446744073709551616 :=
  Iff.rfl

theorem read_fits (type : IntType) : type.Fits (type.read x) := by
  unfold IntType.Fits IntType.read
  split
  · exact ⟨BitVec.le_toInt _, BitVec.toInt_lt⟩
  · exact ⟨Int.natCast_nonneg _, mod_cast BitVec.isLt _⟩

/-- Whichever way a register is read as a `long`, it is the word of its value. -/
theorem ofInt_read_long {type : IntType} (bits : type.bits = 64) : BitVec.ofInt 64 (type.read x) = x := by
  unfold IntType.read
  rw [bits, BitVec.setWidth_eq]
  split
  · exact BitVec.ofInt_toInt
  · rw [ofInt_toNat, BitVec.setWidth_eq]

theorem low_ofInt : low (BitVec.ofInt 64 value) = BitVec.ofInt 32 value := by
  apply BitVec.eq_of_toInt_eq
  rw [low, ← ofInt_toInt_of_le (by decide), BitVec.toInt_ofInt, BitVec.toInt_ofInt, BitVec.toInt_ofInt,
    Int.bmod_bmod_of_dvd (by decide)]

/-- Whichever way the operand is read, the low word of its value is that of the register. -/
theorem ofInt_read (source : IntType) (bits : 32 ≤ source.bits) : BitVec.ofInt 32 (source.read x) = low x := by
  unfold IntType.read
  split
  · rw [ofInt_toInt_of_le bits, BitVec.setWidth_setWidth_of_le x bits, low]
  · rw [ofInt_toNat, BitVec.setWidth_setWidth_of_le x bits, low]

end Values

/-! ### Outcomes -/

section Outcomes

variable {dreg : Nat} {s : State 64} {type : IntType} {value : Int}

theorem meets_i4 {word : BitVec 32} : Meets dreg (.i4 word) (.finished s) ↔ low (s.reg dreg) = word :=
  ⟨fun meets => by cases meets; rfl, fun is => is ▸ .i4⟩

theorem meets_i8 {word : BitVec 64} : Meets dreg (.i8 word) (.finished s) ↔ s.reg dreg = word :=
  ⟨fun meets => by cases meets; rfl, fun is => is ▸ .i8⟩

theorem meets_int (bits : type.bits ≤ 32) :
    Meets dreg (.of type value) (.finished s) ↔ low (s.reg dreg) = BitVec.ofInt 32 value := by
  rw [Result.of, if_pos bits]
  exact meets_i4

theorem meets_long (bits : ¬ type.bits ≤ 32) :
    Meets dreg (.of type value) (.finished s) ↔ s.reg dreg = BitVec.ofInt 64 value := by
  rw [Result.of, if_neg bits]
  exact meets_i8

theorem Meets.eq_raises {result : Result} (meets : Meets dreg result .raised) : result = .raises := by
  cases meets
  rfl

theorem not_meets_of_raised : ¬ Meets dreg (.of type value) .raised := by
  intro meets
  have raises := meets.eq_raises
  unfold Result.of at raises
  split at raises
  all_goals cases raises

/-- A checked value is met where the exception is raised for the values that do not fit. -/
theorem meets_checked {raise : Prop} [Decidable raise]
    (result : type.Fits value → Meets dreg (.of type value) (.finished s)) :
    Meets dreg (.checked type value) (if raise then .raised else .finished s) ↔ (raise ↔ ¬ type.Fits value) := by
  unfold Result.checked
  by_cases fits : type.Fits value
  · rw [if_pos fits]
    by_cases raised : raise
    · rw [if_pos raised]
      exact iff_of_false not_meets_of_raised fun same => same.mp raised fits
    · rw [if_neg raised]
      exact iff_of_true (result fits) (iff_of_false raised fun unfit => unfit fits)
  · rw [if_neg fits]
    by_cases raised : raise
    · rw [if_pos raised]
      exact iff_of_true .raises (iff_of_true raised fits)
    · rw [if_neg raised]
      exact iff_of_false (by rintro ⟨⟩) fun same => raised (same.mpr fits)

theorem meets_unchecked (fits : type.Fits value) (result : Meets dreg (.of type value) (.finished s)) :
    Meets dreg (.checked type value) (.finished s) := by
  rw [Result.checked, if_pos fits]
  exact result

end Outcomes

/-! ### Emitted sequences -/

section Sequences

variable {high : BitVec 32} {dreg : Nat} {type : IntType} {value : Int} {cond cond' : Cond} {compare compare' last : Ins}
  {s : State 64}

theorem meets_arith (result : Meets dreg (.of type value) (.finished (step high last s)))
    (raise : cond.holds (step high last s).flags = true ↔ ¬ type.Fits value) :
    Meets dreg (.checked type value) (run (step high) [.op last, .condExc cond] s) := by
  exact (meets_checked fun _ => result).mpr raise

theorem run_check : run (step high) ([.op compare, .condExc cond, .op last] : List (Code Ins Empty)) s =
      if cond.holds (step high compare s).flags then .raised else .finished (step high last (step high compare s)) :=
  rfl

theorem meets_check
    (result : type.Fits value → Meets dreg (.of type value) (.finished (step high last (step high compare s))))
    (raise : cond.holds (step high compare s).flags = true ↔ ¬ type.Fits value) :
    Meets dreg (.checked type value) (run (step high) [.op compare, .condExc cond, .op last] s) :=
  run_check ▸ (meets_checked result).mpr raise

theorem meets_check₂ (result : type.Fits value →
      Meets dreg (.of type value) (.finished (step high last (step high compare' (step high compare s)))))
    (raise : (cond.holds (step high compare s).flags = true ∨
        cond'.holds (step high compare' (step high compare s)).flags = true) ↔ ¬ type.Fits value) :
    Meets dreg (.checked type value)
      (run (step high) [.op compare, .condExc cond, .op compare', .condExc cond', .op last] s) := by
  have either : run (step high) ([.op compare, .condExc cond, .op compare', .condExc cond', .op last] : List (Code Ins Empty)) s =
      if cond.holds (step high compare s).flags ∨ cond'.holds (step high compare' (step high compare s)).flags then .raised
      else .finished (step high last (step high compare' (step high compare s))) := by
    simp only [run_op, run_condExc, run_nil]
    split_ifs
    all_goals tauto
  rw [either]
  exact (meets_checked result).mpr raise

end Sequences

/-! ### Conditions -/

section Conditions

variable {w n : Nat} {word word' upper lower : BitVec w} {value value' : Int}

/-- Two probes against the bounds of a signed type. -/
theorem outside_iff (is : value = word.toInt) (upper_ : upper.toInt = 2 ^ (n - 1) - 1)
    (lower_ : lower.toInt = -2 ^ (n - 1)) :
    (Cond.gt.holds (compareFlags word upper) = true ∨ Cond.lt.holds (compareFlags word lower) = true) ↔
      ¬ IntType.Fits ⟨n, true⟩ value := by
  rw [holds_gt, holds_lt, upper_, lower_, is]
  change _ ↔ ¬ (-2 ^ (n - 1) ≤ word.toInt ∧ word.toInt < 2 ^ (n - 1))
  omega

/-- A probe of an unsigned value against the upper bound of a signed type. -/
theorem above_signed_iff (is : value = word.toNat) (upper_ : upper.toNat = 2 ^ (n - 1) - 1) :
    Cond.gtUn.holds (compareFlags word upper) = true ↔ ¬ IntType.Fits ⟨n, true⟩ value := by
  have positive := Nat.two_pow_pos (n - 1)
  have cast : ((2 ^ (n - 1) : Nat) : Int) = 2 ^ (n - 1) := Nat.cast_pow 2 (n - 1)
  rw [holds_gtUn, upper_, is]
  change _ ↔ ¬ (-2 ^ (n - 1) ≤ (word.toNat : Int) ∧ (word.toNat : Int) < 2 ^ (n - 1))
  omega

/-- A negative value is a large unsigned one. -/
theorem fits_unsigned (is : value = word.toNat ∨ n < w ∧ value = word.toInt) :
    IntType.Fits ⟨n, false⟩ value ↔ word.toNat < 2 ^ n := by
  have cast : ((2 ^ n : Nat) : Int) = 2 ^ n := Nat.cast_pow 2 n
  obtain is | ⟨narrow, is⟩ := is
  · change (0 ≤ value ∧ value < 2 ^ n) ↔ _
    omega
  · rw [is, toNat_lt_iff narrow]
    rfl

theorem above_iff (is : value = word.toNat ∨ n < w ∧ value = word.toInt) (upper_ : upper.toNat = 2 ^ n - 1) :
    Cond.gtUn.holds (compareFlags word upper) = true ↔ ¬ IntType.Fits ⟨n, false⟩ value := by
  have positive := Nat.two_pow_pos n
  rw [holds_gtUn, upper_, fits_unsigned is]
  omega

/-- A probe of the sign, where the type is unsigned and the value is not. -/
theorem negative_iff (is : value = word.toInt) :
    Cond.lt.holds (compareFlags word 0) = true ↔ ¬ IntType.Fits ⟨w, false⟩ value := by
  have bound : word.toInt < 2 ^ w := word.toInt_lt.trans_le (pow_le_pow_right₀ (by decide) (Nat.sub_le w 1))
  have zero : (0 : BitVec w).toInt = 0 := BitVec.toInt_zero
  rw [holds_lt, zero, is]
  change _ ↔ ¬ (0 ≤ word.toInt ∧ word.toInt < 2 ^ w)
  omega

/-- A probe of the sign, where the value is unsigned and the type is not. -/
theorem negative_signed_iff (bits : 0 < w) (is : value = word.toNat) :
    Cond.lt.holds (compareFlags word 0) = true ↔ ¬ IntType.Fits ⟨w, true⟩ value := by
  obtain ⟨k, rfl⟩ : ∃ k, w = k + 1 := ⟨w - 1, by omega⟩
  have sign := BitVec.toInt_pos_iff (x := word)
  have zero : (0 : BitVec (k + 1)).toInt = 0 := BitVec.toInt_zero
  have cast : ((2 ^ k : Nat) : Int) = 2 ^ k := Nat.cast_pow 2 k
  rw [holds_lt, zero, is]
  change _ ↔ ¬ (-2 ^ k ≤ (word.toNat : Int) ∧ (word.toNat : Int) < 2 ^ k)
  omega

/-- The sum of two words overflows where the sum of their values is none of the type. -/
theorem adc_signed (is : value = word.toInt) (is' : value' = word'.toInt) (bits : 0 < w) :
    adc word word' false = BitVec.ofInt w (value + value') ∧
      (Cond.ov.holds (adcFlags word word' false) = true ↔ ¬ IntType.Fits ⟨w, true⟩ (value + value')) := by
  have same : value + value' = word.toInt + word'.toInt + (false.toNat : Int) := is ▸ is' ▸ (Int.add_zero _).symm
  exact ⟨same ▸ adc_eq_ofInt, same ▸ holds_ov_adc bits⟩

theorem sbb_signed (is : value = word.toInt) (is' : value' = word'.toInt) (bits : 0 < w) :
    sbb word word' false = BitVec.ofInt w (value - value') ∧
      (Cond.ov.holds (sbbFlags word word' false) = true ↔ ¬ IntType.Fits ⟨w, true⟩ (value - value')) := by
  have same : value - value' = word.toInt - word'.toInt - (false.toNat : Int) := is ▸ is' ▸ (Int.sub_zero _).symm
  exact ⟨same ▸ sbb_eq_ofInt, same ▸ holds_ov_sbb bits⟩

theorem adc_unsigned (is : value = word.toNat) (is' : value' = word'.toNat) :
    adc word word' false = BitVec.ofInt w (value + value') ∧
      (Cond.c.holds (adcFlags word word' false) = true ↔ ¬ IntType.Fits ⟨w, false⟩ (value + value')) := by
  have cast : ((2 ^ w : Nat) : Int) = 2 ^ w := Nat.cast_pow 2 w
  have same : value + value' = word.toNat + word'.toNat + (false.toNat : Int) := is ▸ is' ▸ (Int.add_zero _).symm
  refine ⟨same ▸ adc_eq_ofNat, holds_c_adc.trans ?_⟩
  change _ ↔ ¬ (0 ≤ value + value' ∧ value + value' < 2 ^ w)
  omega

theorem sbb_unsigned (is : value = word.toNat) (is' : value' = word'.toNat) :
    sbb word word' false = BitVec.ofInt w (value - value') ∧
      (Cond.c.holds (sbbFlags word word' false) = true ↔ ¬ IntType.Fits ⟨w, false⟩ (value - value')) := by
  have cast : ((2 ^ w : Nat) : Int) = 2 ^ w := Nat.cast_pow 2 w
  have same : value - value' = word.toNat - word'.toNat - (false.toNat : Int) := is ▸ is' ▸ (Int.sub_zero _).symm
  refine ⟨same ▸ sbb_eq_ofNat, holds_c_sbb.trans ?_⟩
  change _ ↔ ¬ (0 ≤ value - value' ∧ value - value' < 2 ^ w)
  omega

end Conditions

/-! ### Values that are left -/

section Left

variable {high : BitVec 32} {dreg sreg1 sreg2 n : Nat} {s : State 64} {source target : IntType} {value : Int}
  {x : BitVec 64}

@[simp] theorem low_withHigh {word : BitVec 32} : low (withHigh high word) = word :=
  BitVec.setWidth_append_eq_right

theorem left_unalu {op : UnaluOp} : (step high (.unalu op dreg sreg1) s).reg dreg = op.value high (s.reg sreg1) :=
  State.set_self ..

theorem left_bialu {op : BialuOp} :
    (step high (.bialu op dreg sreg1 sreg2) s).reg dreg = op.value high (s.reg sreg1) (s.reg sreg2) :=
  State.set_self ..

theorem left_bialuImm {op : BialuImmOp} {imm : BitVec 64} :
    (step high (.bialuImm op dreg sreg1 imm) s).reg dreg = op.value high (s.reg sreg1) imm :=
  State.set_self ..

/-- A word that is a value of a narrow signed type is the sign extension of its low bits. -/
theorem signExtend_of_fits {word : BitVec 32} (same : BitVec.ofInt 32 value = word) (narrow : n ≤ 16) (bits : 0 < n)
    (fits : IntType.Fits ⟨n, true⟩ value) : (word.setWidth n).signExtend 32 = BitVec.ofInt 32 value := by
  have most : (2 : Int) ^ (n - 1) ≤ 2 ^ 16 := pow_le_pow_right₀ (by decide) (by omega)
  have inside : -2 ^ (n - 1) ≤ value ∧ value < 2 ^ (n - 1) := fits
  have is : word.toInt = value := by
    rw [← same, BitVec.toInt_ofInt]
    exact Int.bmod_eq_of_le (by omega) (by omega)
  rw [same]
  exact signExtend_setWidth (narrow.trans (by decide)) (is ▸ inside.1) (is ▸ inside.2) bits

/-- A value of a narrow signed type, where the register is sign extended from its bits. -/
theorem meets_signed {op : UnaluOp} (same : s.reg sreg1 = x) (bits : 32 ≤ source.bits) (isNarrow : n = 8 ∨ n = 16)
    (converts : op.value high x = withHigh high ((x.setWidth n).signExtend 32))
    (fits : IntType.Fits ⟨n, true⟩ (source.read x)) :
    Meets dreg (.of ⟨n, true⟩ (source.read x)) (.finished (step high (.unalu op dreg sreg1) s)) := by
  subst same
  have narrow : n ≤ 16 ∧ 0 < n := by omega
  have word : (s.reg sreg1).setWidth n = (low (s.reg sreg1)).setWidth n :=
    (BitVec.setWidth_setWidth_of_le _ (narrow.1.trans (by decide))).symm
  refine (meets_int (narrow.1.trans (by decide))).mpr ?_
  rw [left_unalu, converts, low_withHigh, word]
  exact signExtend_of_fits (ofInt_read source bits) narrow.1 narrow.2 fits

/-- A value of a narrow unsigned type, where the register is masked. -/
theorem meets_masked {op : BialuImmOp} {imm : BitVec 64} (same : s.reg sreg1 = x) (bits : 32 ≤ source.bits)
    (narrow : n ≤ 16) (masks : low (op.value high x imm) = low x &&& low imm) (mask : (low imm).toNat = 2 ^ n - 1)
    (fits : IntType.Fits ⟨n, false⟩ (source.read x)) :
    Meets dreg (.of ⟨n, false⟩ (source.read x)) (.finished (step high (.bialuImm op dreg sreg1 imm) s)) := by
  subst same
  have bound : (2 : Int) ^ n ≤ 2 ^ 16 := pow_le_pow_right₀ (by decide) narrow
  have inside : 0 ≤ source.read (s.reg sreg1) ∧ source.read (s.reg sreg1) < 2 ^ n := fits
  have word : (low (s.reg sreg1)).toInt = source.read (s.reg sreg1) := by
    rw [← ofInt_read source bits, BitVec.toInt_ofInt]
    exact Int.bmod_eq_of_le (by omega) (by omega)
  refine (meets_int (narrow.trans (by decide))).mpr ?_
  rw [left_bialuImm, masks, ofInt_read source bits]
  exact and_mask mask ((fits_unsigned (.inr ⟨by omega, word.symm⟩)).mp fits)

theorem low_iandImm {imm : BitVec 64} : low (BialuImmOp.iandImm.value high x imm) = low x &&& low imm :=
  low_withHigh

theorem low_andImm {imm : BitVec 64} : low (BialuImmOp.andImm.value high x imm) = low x &&& low imm :=
  BitVec.setWidth_and

/-- A value of an `int` type is moved. -/
theorem meets_move (same : s.reg sreg1 = x) (bits : 32 ≤ source.bits) (bits' : target.bits = 32) :
    Meets dreg (.of target (source.read x)) (.finished (step high (.unalu .move dreg sreg1) s)) := by
  subst same
  refine (meets_int bits'.le).mpr ?_
  rw [left_unalu, ofInt_read source bits]
  rfl

/-- A value of a `long` type is left as it is read. -/
theorem meets_left {ins : Ins} (bits : target.bits = 64) (left : (step high ins s).reg dreg = BitVec.ofInt 64 value) :
    Meets dreg (.of target value) (.finished (step high ins s)) :=
  (meets_long (by rw [bits]; decide)).mpr left

theorem left_move (bits : source.bits = 64) :
    (step high (.unalu .move dreg sreg1) s).reg dreg = BitVec.ofInt 64 (source.read (s.reg sreg1)) :=
  left_unalu.trans (ofInt_read_long bits).symm

theorem left_sextI4 :
    (step high (.unalu .sextI4 dreg sreg1) s).reg dreg = BitVec.ofInt 64 (IntType.i4.read (s.reg sreg1)) :=
  left_unalu

theorem left_zextI4 :
    (step high (.unalu .zextI4 dreg sreg1) s).reg dreg = BitVec.ofInt 64 (IntType.u4.read (s.reg sreg1)) :=
  left_unalu.trans ofInt_toNat.symm

theorem left_ishrUnImm :
    (step high (.bialuImm .ishrUnImm dreg sreg1 0) s).reg dreg = BitVec.ofInt 64 (IntType.u4.read (s.reg sreg1)) :=
  left_bialuImm.trans ((congrArg (BitVec.setWidth 64) (BitVec.ushiftRight_zero (low (s.reg sreg1)))).trans ofInt_toNat.symm)

theorem meets_conv_int {ins : Ins} (bits : 32 ≤ source.bits) (bits' : target.bits = 32)
    (left : low ((step high ins s).reg dreg) = low (s.reg sreg1)) :
    Meets dreg (conv source target (s.reg sreg1)) (.finished (step high ins s)) := by
  refine (meets_int bits'.le).mpr ?_
  rw [left, ofInt_read target bits'.ge, low_ofInt, ofInt_read source bits]

theorem meets_conv_long {ins : Ins} (bits : target.bits = 64)
    (left : (step high ins s).reg dreg = BitVec.ofInt 64 (source.read (s.reg sreg1))) :
    Meets dreg (conv source target (s.reg sreg1)) (.finished (step high ins s)) :=
  meets_left bits (left.trans (ofInt_read_long bits).symm)

end Left

/-! ### Opcodes -/

section Opcodes

variable {high : BitVec 32} {dreg sreg1 sreg2 : Nat} {s : State 64}

theorem word_fits_long {x : BitVec 64} :
    IntType.i8.Fits (IntType.i4.read x) ∧ IntType.i8.Fits (IntType.u4.read x) ∧ IntType.u8.Fits (IntType.u4.read x) := by
  have signed := fits_i4.mp (read_fits (x := x) .i4)
  have unsigned := fits_u4.mp (read_fits (x := x) .u4)
  rw [fits_i8, fits_i8, fits_u8]
  omega

/-- The whole register is compared with 255: a high word makes the check fail for every `int`. -/
theorem met_toU1_iff (source : IntType) (bits : 32 ≤ source.bits)
    (is : source.read (s.reg sreg1) = (low (s.reg sreg1)).toNat ∨
      8 < 32 ∧ source.read (s.reg sreg1) = (low (s.reg sreg1)).toInt) :
    Meets dreg (.checked .u1 (source.read (s.reg sreg1)))
        (run (step high) [.op (.compareImm sreg1 255), .condExc .gtUn, .op (.bialuImm .iandImm dreg sreg1 0xff)] s) ↔
      (s.reg sreg1).toNat < 2 ^ 32 ∨ 255 < (low (s.reg sreg1)).toNat := by
  have word : (low (s.reg sreg1)).toNat = (s.reg sreg1).toNat % 2 ^ 32 := BitVec.toNat_setWidth ..
  have above : Cond.gtUn.holds (compareFlags (s.reg sreg1) 255) = true ↔ 255 < (s.reg sreg1).toNat := holds_gtUn
  have fits : IntType.u1.Fits (source.read (s.reg sreg1)) ↔ (low (s.reg sreg1)).toNat < 2 ^ 8 := fits_unsigned is
  refine (meets_checked fun fits => ?_).trans ?_
  · exact meets_masked rfl bits (by decide) low_iandImm rfl fits
  rw [fits]
  change (Cond.gtUn.holds (compareFlags (s.reg sreg1) 255) = true ↔ _) ↔ _
  rw [above]
  omega

/-- The sign of the whole register is checked: it has to be that of the `int`. -/
theorem met_toU8_iff : Meets dreg (.checked .u8 (IntType.i4.read (s.reg sreg1)))
        (run (step high) [.op (.compareImm sreg1 0), .condExc .lt, .op (.unalu .zextI4 dreg sreg1)] s) ↔
      (s.reg sreg1).msb = (low (s.reg sreg1)).msb := by
  have bound := (low (s.reg sreg1)).toInt_lt
  have negative : Cond.lt.holds (compareFlags (s.reg sreg1) 0) = true ↔ (s.reg sreg1).toInt < 0 := holds_lt
  refine (meets_checked fun fits => meets_left rfl ?_).trans ?_
  · have word : (low (s.reg sreg1)).toInt = (low (s.reg sreg1)).toNat :=
      BitVec.toInt_eq_toNat_of_lt (BitVec.toInt_pos_iff.mp (fits_u8.mp fits).1)
    rw [read_i4, word]
    exact left_zextI4
  · change (Cond.lt.holds (compareFlags (s.reg sreg1) 0) = true ↔ _) ↔ _
    rw [negative, fits_u8, read_i4, BitVec.msb_eq_toInt, BitVec.msb_eq_toInt, decide_eq_decide]
    omega

/-- Both bounds of an unsigned `int` are signed longs. -/
theorem lconvToOvfU4_raises :
    (Cond.gt.holds (compareFlags (s.reg sreg1) 0xffffffff) = true ∨ Cond.lt.holds (compareFlags (s.reg sreg1) 0) = true) ↔
      ¬ IntType.u4.Fits (IntType.i8.read (s.reg sreg1)) := by
  have upper : (0xffffffff : BitVec 64).toInt = 4294967295 := rfl
  have lower : (0 : BitVec 64).toInt = 0 := rfl
  rw [holds_gt, holds_lt, upper, lower, fits_u4, read_i8]
  omega

end Opcodes

/-! ### All opcodes -/

/-- For every opcode and whatever the registers hold, the emitted instructions raise the exception and leave the value that
the CLI instruction prescribes, where the condition of the opcode holds and only there. -/
theorem decomposeOpcode_meets_iff (high : BitVec 32) (dreg sreg1 sreg2 : Nat) (s : State 64) (op : Opcode) :
    Meets dreg (op.meaning (s.reg sreg1) (s.reg sreg2)) (run (step high) (decomposeOpcode dreg sreg1 sreg2 op) s) ↔
      op.Holds (s.reg sreg1) := by
  unfold Opcode.meaning convOvf
  cases op with
  | iconvToOvfU1 => exact met_toU1_iff .i4 (by decide) (.inr ⟨by decide, read_i4⟩)
  | iconvToOvfU1Un => exact met_toU1_iff .u4 (by decide) (.inl read_u4)
  | iconvToOvfU8 | iconvToOvfU => exact met_toU8_iff
  | iconvToOvfI1 =>
    exact iff_of_true (meets_check₂ (meets_signed rfl (by decide) (.inl rfl) rfl)
      (outside_iff read_i4 rfl rfl)) trivial
  | iconvToOvfI1Un =>
    exact iff_of_true (meets_check (meets_signed rfl (by decide) (.inl rfl) rfl)
      (above_signed_iff read_u4 rfl)) trivial
  | iconvToOvfI2 =>
    exact iff_of_true (meets_check₂ (meets_signed rfl (by decide) (.inr rfl) rfl)
      (outside_iff read_i4 rfl rfl)) trivial
  | iconvToOvfI2Un =>
    exact iff_of_true (meets_check (meets_signed rfl (by decide) (.inr rfl) rfl)
      (above_signed_iff read_u4 rfl)) trivial
  | lconvToOvfI1 =>
    exact iff_of_true (meets_check₂ (meets_signed rfl (by decide) (.inl rfl) rfl)
      (outside_iff read_i8 rfl rfl)) trivial
  | lconvToOvfI1Un =>
    exact iff_of_true (meets_check (meets_signed rfl (by decide) (.inl rfl) rfl)
      (above_signed_iff read_u8 rfl)) trivial
  | lconvToOvfI2 =>
    exact iff_of_true (meets_check₂ (meets_signed rfl (by decide) (.inr rfl) rfl)
      (outside_iff read_i8 rfl rfl)) trivial
  | lconvToOvfI2Un =>
    exact iff_of_true (meets_check (meets_signed rfl (by decide) (.inr rfl) rfl)
      (above_signed_iff read_u8 rfl)) trivial
  | iconvToOvfU2 =>
    exact iff_of_true (meets_check (meets_masked rfl (by decide) (by decide) low_iandImm rfl)
      (above_iff (.inr ⟨by decide, read_i4⟩) rfl)) trivial
  | iconvToOvfU2Un =>
    exact iff_of_true (meets_check (meets_masked rfl (by decide) (by decide) low_iandImm rfl)
      (above_iff (.inl read_u4) rfl)) trivial
  | lconvToOvfU1 | lconvToOvfU2 =>
    exact iff_of_true (meets_check (meets_masked rfl (by decide) (by decide) low_andImm rfl)
      (above_iff (.inr ⟨by decide, read_i8⟩) rfl)) trivial
  | lconvToOvfU1Un | lconvToOvfU2Un =>
    exact iff_of_true (meets_check (meets_masked rfl (by decide) (by decide) low_andImm rfl)
      (above_iff (.inl read_u8) rfl)) trivial
  | iconvToOvfU4 =>
    exact iff_of_true (meets_check (fun _ => meets_move rfl (by decide) rfl) (negative_iff read_i4)) trivial
  | iconvToOvfI4Un =>
    exact iff_of_true (meets_check (fun _ => meets_move rfl (by decide) rfl)
      (negative_signed_iff (by decide) read_u4)) trivial
  | lconvToOvfI4 =>
    exact iff_of_true (meets_check₂ (fun _ => meets_move rfl (by decide) rfl) (outside_iff read_i8 rfl rfl)) trivial
  | lconvToOvfI4Un =>
    exact iff_of_true (meets_check (fun _ => meets_move rfl (by decide) rfl) (above_signed_iff read_u8 rfl)) trivial
  | lconvToOvfU4 =>
    exact iff_of_true (meets_check₂ (fun _ => meets_move rfl (by decide) rfl) lconvToOvfU4_raises) trivial
  | lconvToOvfU4Un =>
    exact iff_of_true (meets_check (fun _ => meets_move rfl (by decide) rfl) (above_iff (.inl read_u8) rfl)) trivial
  | lconvToOvfIUn | lconvToOvfI8Un =>
    exact iff_of_true (meets_check (fun _ => meets_left rfl (left_move rfl))
      (negative_signed_iff (by decide) read_u8)) trivial
  | lconvToOvfU8 | lconvToOvfU =>
    exact iff_of_true (meets_check (fun _ => meets_left rfl (left_move rfl)) (negative_iff read_i8)) trivial
  | iconvToOvfI4 => exact iff_of_true (meets_unchecked (read_fits .i4) (meets_move rfl (by decide) rfl)) trivial
  | iconvToOvfU4Un => exact iff_of_true (meets_unchecked (read_fits .u4) (meets_move rfl (by decide) rfl)) trivial
  | iconvToOvfI8 | iconvToOvfI =>
    exact iff_of_true (meets_unchecked word_fits_long.1 (meets_left rfl left_sextI4)) trivial
  | iconvToOvfI8Un | iconvToOvfIUn =>
    exact iff_of_true (meets_unchecked word_fits_long.2.1 (meets_left rfl left_ishrUnImm)) trivial
  | iconvToOvfU8Un | iconvToOvfUUn =>
    exact iff_of_true (meets_unchecked word_fits_long.2.2 (meets_left rfl left_ishrUnImm)) trivial
  | lconvToOvfI | lconvToOvfI8 =>
    exact iff_of_true (meets_unchecked (read_fits .i8) (meets_left rfl (left_move rfl))) trivial
  | lconvToOvfUUn | lconvToOvfU8Un =>
    exact iff_of_true (meets_unchecked (read_fits .u8) (meets_left rfl (left_move rfl))) trivial
  | iconvToI4 | iconvToU4 => exact iff_of_true (meets_conv_int (by decide) rfl (congrArg low left_unalu)) trivial
  | lconvToI4 =>
    exact iff_of_true (meets_conv_int (by decide) rfl
      (congrArg low (left_bialuImm.trans BitVec.sshiftRight_zero))) trivial
  | lconvToU4 =>
    exact iff_of_true (meets_conv_int (by decide) rfl
      (left_ishrUnImm ▸ low_ofInt.trans (ofInt_read .u4 (by decide)))) trivial
  | iconvToI | iconvToI8 => exact iff_of_true (meets_conv_long rfl left_sextI4) trivial
  | iconvToU | iconvToU8 => exact iff_of_true (meets_conv_long rfl left_zextI4) trivial
  | lconvToI8 | lconvToI | lconvToU8 | lconvToU => exact iff_of_true (meets_conv_long rfl (left_move rfl)) trivial
  | iaddOvf =>
    have sum := adc_signed (read_i4 (x := s.reg sreg1)) (read_i4 (x := s.reg sreg2)) (by decide)
    exact iff_of_true (meets_arith ((meets_int (by decide)).mpr (left_bialu ▸ low_withHigh.trans sum.1)) sum.2) trivial
  | iaddOvfUn =>
    have sum := adc_unsigned (read_u4 (x := s.reg sreg1)) (read_u4 (x := s.reg sreg2))
    exact iff_of_true (meets_arith ((meets_int (by decide)).mpr (left_bialu ▸ low_withHigh.trans sum.1)) sum.2) trivial
  | laddOvf =>
    have sum := adc_signed (read_i8 (x := s.reg sreg1)) (read_i8 (x := s.reg sreg2)) (by decide)
    exact iff_of_true (meets_arith (meets_left rfl (left_bialu.trans sum.1)) sum.2) trivial
  | laddOvfUn =>
    have sum := adc_unsigned (read_u8 (x := s.reg sreg1)) (read_u8 (x := s.reg sreg2))
    exact iff_of_true (meets_arith (meets_left rfl (left_bialu.trans sum.1)) sum.2) trivial
  | isubOvf =>
    have sum := sbb_signed (read_i4 (x := s.reg sreg1)) (read_i4 (x := s.reg sreg2)) (by decide)
    exact iff_of_true (meets_arith ((meets_int (by decide)).mpr (left_bialu ▸ low_withHigh.trans sum.1)) sum.2) trivial
  | isubOvfUn =>
    have sum := sbb_unsigned (read_u4 (x := s.reg sreg1)) (read_u4 (x := s.reg sreg2))
    exact iff_of_true (meets_arith ((meets_int (by decide)).mpr (left_bialu ▸ low_withHigh.trans sum.1)) sum.2) trivial
  | lsubOvf =>
    have sum := sbb_signed (read_i8 (x := s.reg sreg1)) (read_i8 (x := s.reg sreg2)) (by decide)
    exact iff_of_true (meets_arith (meets_left rfl (left_bialu.trans sum.1)) sum.2) trivial
  | lsubOvfUn =>
    have sum := sbb_unsigned (read_u8 (x := s.reg sreg1)) (read_u8 (x := s.reg sreg2))
    exact iff_of_true (meets_arith (meets_left rfl (left_bialu.trans sum.1)) sum.2) trivial

/-- All registers hold one word. -/
def holding (word : BitVec 64) : State 64 where
  reg _ := word
  flags := ⟨false, false, false, false⟩

/-- The `int` -1 with a clear high word is converted to an unsigned `long` without an exception, and 5 with a high word
that is not clear is no unsigned byte. -/
theorem decomposeOpcode_misses :
    (Opcode.iconvToOvfU8.meaning 0xffffffff 0 = .raises ∧
      ∃ s, run (step 0) (decomposeOpcode 0 1 2 .iconvToOvfU8) (holding 0xffffffff) = .finished s ∧ s.reg 0 = 0xffffffff) ∧
    (Opcode.iconvToOvfU1.meaning 0x100000005 0 = .i4 5 ∧
      run (step 0) (decomposeOpcode 0 1 2 .iconvToOvfU1) (holding 0x100000005) = .raised) :=
  ⟨⟨by decide, _, rfl, rfl⟩, by decide, rfl⟩

end MonoRuntime.Decompose
