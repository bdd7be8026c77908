/-
Module: MonoRuntime.Mini.DecomposeLongOpts
Purpose: `mono_decompose_long_opts` of `decompose.c` where registers have four bytes: a `long` is in two registers, and its
  operations are replaced by ones on words, with branches between the blocks that they emit.
Trusted boundary: human-reviewed translation of the source; instructions that are not said to set the flags may change them
Main exports: allocIreg
-/
import MonoRuntime.Lib.WordMachine
import MonoRuntime.Mini.CliArithmetic

namespace MonoRuntime.DecomposeLong

open WordMachine
open Decompose (IntType Result conv convOvf addOvf subOvf)

/-! ### Registers -/

/-- `alloc_ireg`: a register, and `next_vreg` behind it. -/
def allocIreg (nextVreg : Nat) : Nat × Nat :=
  (nextVreg, nextVreg + 1)

/-- The `long` in a register: `reg + 1` contains the ls word, `reg + 2` contains the ms word. -/
def long (s : State 32) (reg : Nat) : BitVec 64 :=
  s.reg (reg + 2) ++ s.reg (reg + 1)

/-- The ls word of a constant. -/
def lsWord (value : BitVec 64) : BitVec 32 :=
  value.extractLsb' 0 32

/-- The ms word of a constant. -/
def msWord (value : BitVec 64) : BitVec 32 :=
  value.extractLsb' 32 32

/-! ### Opcodes -/

/-- The branches behind `OP_LCOMPARE`. -/
inductive LongBranch where
  | lbeq
  | lbge
  | lbgt
  | lble
  | lblt
  | lbneUn
  | lbgeUn
  | lbgtUn
  | lbleUn
  | lbltUn
  deriving DecidableEq, Repr

/-- The instructions behind `OP_LCOMPARE` that set a register. -/
inductive LongSet where
  | lceq
  | lcgt
  | lcgtUn
  | lclt
  | lcltUn
  deriving DecidableEq, Repr

/-- The opcodes that are decomposed. A comparison is taken together with the instruction that follows it, whose register is
the destination. -/
inductive Opcode where
  | i8const (value : BitVec 64)
  | lmove
  | lconvToU8
  | lconvToI8
  | lconvToOvfU8Un
  | lconvToOvfI8
  | iconvToI8
  | iconvToU8
  | iconvToOvfI8
  | iconvToOvfU8
  | iconvToOvfI8Un
  | iconvToOvfU8Un
  | lconvToI1
  | lconvToU1
  | lconvToI2
  | lconvToU2
  | lconvToI4
  | lconvToU4
  | lconvToI
  | lconvToU
  | lconvToOvfI1
  | lconvToOvfI1Un
  | lconvToOvfU1
  | lconvToOvfU1Un
  | lconvToOvfI2
  | lconvToOvfI2Un
  | lconvToOvfU2
  | lconvToOvfU2Un
  | lconvToOvfU4
  | lconvToOvfU
  | lconvToOvfU4Un
  | lconvToOvfUUn
  | lconvToOvfIUn
  | lconvToOvfI4Un
  | lconvToOvfU8
  | lconvToOvfI8Un
  | ladd
  | lsub
  | laddOvf
  | laddOvfUn
  | lsubOvf
  | lsubOvfUn
  | land
  | lor
  | lxor
  | lnot
  | laddImm (imm : BitVec 64)
  | lsubImm (imm : BitVec 64)
  | landImm (imm : BitVec 64)
  | lorImm (imm : BitVec 64)
  | lxorImm (imm : BitVec 64)
  | lshrUnImm (amount : Nat)
  | lshlImm (amount : Nat)
  | lcompareBranch (next : LongBranch)
  | lcompareSet (next : LongSet)
  | lcompareImmBranch (imm : BitVec 64) (next : LongBranch)
  | lcompareImmSet (imm : BitVec 64) (next : LongSet)
  deriving DecidableEq, Repr

/-- The registers that a destination takes: one for an `int`, three for a `long`, and none where there is a branch. -/
def Opcode.dregSize : Opcode → Nat
  | .i8const _ | .lmove | .lconvToU8 | .lconvToI8 | .lconvToOvfU8Un | .lconvToOvfI8 => 3
  | .iconvToI8 | .iconvToU8 | .iconvToOvfI8 | .iconvToOvfU8 | .iconvToOvfI8Un | .iconvToOvfU8Un => 3
  | .lconvToOvfU8 | .lconvToOvfI8Un => 3
  | .ladd | .lsub | .laddOvf | .laddOvfUn | .lsubOvf | .lsubOvfUn | .land | .lor | .lxor | .lnot => 3
  | .laddImm _ | .lsubImm _ | .landImm _ | .lorImm _ | .lxorImm _ | .lshrUnImm _ | .lshlImm _ => 3
  | .lcompareBranch _ | .lcompareImmBranch .. => 0
  | _ => 1

/-- The registers that a source takes. -/
def Opcode.sregSize : Opcode → Nat
  | .iconvToI8 | .iconvToU8 | .iconvToOvfI8 | .iconvToOvfU8 | .iconvToOvfI8Un | .iconvToOvfU8Un => 1
  | _ => 3

/-- Registers of a method are the same or have nothing in common. -/
def Apart (reg size reg' size' : Nat) : Prop :=
  (reg = reg' ∧ size = size') ∨ reg + size ≤ reg' ∨ reg' + size' ≤ reg

/-- The operands of an instruction are registers that were allocated before. -/
structure Operands (op : Opcode) (nextVreg dreg sreg1 sreg2 : Nat) : Prop where
  dreg_sreg1 : Apart dreg op.dregSize sreg1 op.sregSize
  dreg_sreg2 : Apart dreg op.dregSize sreg2 op.sregSize
  dreg_le : dreg + op.dregSize ≤ nextVreg
  sreg1_le : sreg1 + op.sregSize ≤ nextVreg
  sreg2_le : sreg2 + op.sregSize ≤ nextVreg

/-! ### Emitted instructions -/

/-- Instructions with one source. -/
inductive UnaluOp where
  | move
  | iconvToI1
  | iconvToU1
  | iconvToI2
  | iconvToU2
  | inot
  deriving DecidableEq, Repr

/-- Sums and differences, with the carry or without. -/
inductive ArithOp where
  | addcc
  | adc
  | subcc
  | sbb
  deriving DecidableEq, Repr

/-- Logical operations. -/
inductive LogicOp where
  | and
  | or
  | xor
  deriving DecidableEq, Repr

/-- The emitted instructions on words. With a constant the opcodes are the `_IMM` ones. -/
inductive Ins where
  | iconst (dreg : Nat) (imm : BitVec 32)
  | unalu (op : UnaluOp) (dreg sreg1 : Nat)
  | arith (op : ArithOp) (dreg sreg1 sreg2 : Nat)
  | arithImm (op : ArithOp) (dreg sreg1 : Nat) (imm : BitVec 32)
  | logic (op : LogicOp) (dreg sreg1 sreg2 : Nat)
  | logicImm (op : LogicOp) (dreg sreg1 : Nat) (imm : BitVec 32)
  | isubImm (dreg sreg1 : Nat) (imm : BitVec 32)
  | shrImm (dreg sreg1 amount : Nat)
  | compare (sreg1 sreg2 : Nat)
  | compareImm (sreg1 : Nat) (imm : BitVec 32)
  | setCond (cond : Cond) (dreg : Nat)
  deriving DecidableEq, Repr

/-- What an instruction with one source leaves. -/
def UnaluOp.value (x : BitVec 32) : UnaluOp → BitVec 32
  | .move => x
  | .iconvToI1 => (x.setWidth 8).signExtend 32
  | .iconvToU1 => (x.setWidth 8).setWidth 32
  | .iconvToI2 => (x.setWidth 16).signExtend 32
  | .iconvToU2 => (x.setWidth 16).setWidth 32
  | .inot => ~~~ x

/-- The carry that a sum or a difference takes in. -/
def ArithOp.carryIn (carry : Bool) : ArithOp → Bool
  | .addcc | .subcc => false
  | .adc | .sbb => carry

/-- The sum or the difference. -/
def ArithOp.value (x y : BitVec 32) (carry : Bool) (op : ArithOp) : BitVec 32 :=
  match op with
  | .addcc | .adc => WordMachine.adc x y (op.carryIn carry)
  | .subcc | .sbb => WordMachine.sbb x y (op.carryIn carry)

/-- The flags behind it. -/
def ArithOp.flags (x y : BitVec 32) (carry : Bool) (op : ArithOp) : Flags :=
  match op with
  | .addcc | .adc => adcFlags x y (op.carryIn carry)
  | .subcc | .sbb => sbbFlags x y (op.carryIn carry)

/-- A logical operation. -/
def LogicOp.value {w : Nat} (x y : BitVec w) : LogicOp → BitVec w
  | .and => x &&& y
  | .or => x ||| y
  | .xor => x ^^^ y

/-- A register is written, and the flags are set. -/
def writeFlags (s : State 32) (dreg : Nat) (value : BitVec 32) (flags : Flags) : State 32 :=
  { s.set dreg value with flags := flags }

/-- One instruction. What those leave in the flags that do not set them is a parameter. -/
def step (clobber : Flags → Flags) : Ins → State 32 → State 32
  | .iconst dreg imm, s => writeFlags s dreg imm (clobber s.flags)
  | .unalu op dreg sreg1, s => writeFlags s dreg (op.value (s.reg sreg1)) (clobber s.flags)
  | .arith op dreg sreg1 sreg2, s =>
    writeFlags s dreg (op.value (s.reg sreg1) (s.reg sreg2) s.flags.carry)
      (op.flags (s.reg sreg1) (s.reg sreg2) s.flags.carry)
  | .arithImm op dreg sreg1 imm, s =>
    writeFlags s dreg (op.value (s.reg sreg1) imm s.flags.carry) (op.flags (s.reg sreg1) imm s.flags.carry)
  | .logic op dreg sreg1 sreg2, s => writeFlags s dreg (op.value (s.reg sreg1) (s.reg sreg2)) (clobber s.flags)
  | .logicImm op dreg sreg1 imm, s => writeFlags s dreg (op.value (s.reg sreg1) imm) (clobber s.flags)
  | .isubImm dreg sreg1 imm, s => writeFlags s dreg (s.reg sreg1 - imm) (clobber s.flags)
  | .shrImm dreg sreg1 amount, s => writeFlags s dreg ((s.reg sreg1).sshiftRight amount) (clobber s.flags)
  | .compare sreg1 sreg2, s => { s with flags := compareFlags (s.reg sreg1) (s.reg sreg2) }
  | .compareImm sreg1 imm, s => { s with flags := compareFlags (s.reg sreg1) imm }
  | .setCond cond dreg, s => writeFlags s dreg (if cond.holds s.flags then 1 else 0) (clobber s.flags)

/-! ### Decomposition -/

/-- The blocks that are branched to: those of the instruction, and those that are emitted. -/
inductive Label where
  | trueBB
  | falseBB
  | isNegative
  | endLabel
  | setTo0
  | setTo1
  deriving DecidableEq, Repr

/-- `lbr_decomp`: the conditions on the ms words and on the ls words. Two entries are not used. -/
def lbrDecomp : LongBranch → Option (Cond × Cond)
  | .lbeq => none
  | .lbge => some (.gt, .geUn)
  | .lbgt => some (.gt, .gtUn)
  | .lble => some (.lt, .leUn)
  | .lblt => some (.lt, .ltUn)
  | .lbneUn => none
  | .lbgeUn => some (.gtUn, .geUn)
  | .lbgtUn => some (.gtUn, .gtUn)
  | .lbleUn => some (.ltUn, .leUn)
  | .lbltUn => some (.ltUn, .ltUn)

/-- `lcset_decomp`: the conditions on which the register is 0. One entry is not used. -/
def lcsetDecomp : LongSet → Option (Cond × Cond)
  | .lceq => none
  | .lcgt => some (.lt, .leUn)
  | .lcgtUn => some (.ltUn, .leUn)
  | .lclt => some (.gt, .geUn)
  | .lcltUn => some (.gtUn, .geUn)

/-- An emitted instruction. -/
abbrev LongCode := Code Ins Label

/-- The comparisons of a long with an operand: of the ms words, of the ls words, and the differences of both in two
registers. -/
structure Comparison where
  high : Ins
  low : Ins
  xorLow (d1 : Nat) : Ins
  xorHigh (d2 : Nat) : Ins

/-- `OP_LCOMPARE`. -/
def lcompare (sreg1 sreg2 : Nat) : Comparison where
  high := .compare (sreg1 + 2) (sreg2 + 2)
  low := .compare (sreg1 + 1) (sreg2 + 1)
  xorLow d1 := .logic .xor d1 (sreg1 + 1) (sreg2 + 1)
  xorHigh d2 := .logic .xor d2 (sreg1 + 2) (sreg2 + 2)

/-- `OP_LCOMPARE_IMM`. -/
def lcompareImm (sreg1 : Nat) (imm : BitVec 64) : Comparison where
  high := .compareImm (sreg1 + 2) (msWord imm)
  low := .compareImm (sreg1 + 1) (lsWord imm)
  xorLow d1 := .logicImm .xor d1 (sreg1 + 1) (lsWord imm)
  xorHigh d2 := .logicImm .xor d2 (sreg1 + 2) (msWord imm)

/-- The difference of two longs is compared with 0. -/
def emitXor (nextVreg : Nat) (comparison : Comparison) : List LongCode :=
  let (d1, nextVreg) := allocIreg nextVreg
  let (d2, _) := allocIreg nextVreg
  -- Branchless version based on gcc code
  [.op (comparison.xorLow d1), .op (comparison.xorHigh d2), .op (.logic .or d1 d1 d2), .op (.compareImm d1 0)]

/-- A comparison with a branch behind it. -/
def emitBranch (nextVreg : Nat) (comparison : Comparison) (next : LongBranch) : Option (List LongCode) :=
  match next with
  | .lbeq => some (emitXor nextVreg comparison ++ [.branch .eq .trueBB, .br .falseBB])
  | .lbneUn => some (emitXor nextVreg comparison ++ [.branch .neUn .trueBB, .br .falseBB])
  | next =>
    -- Convert into three comparisons + branches
    (lbrDecomp next).map fun (high, low) =>
      [.op comparison.high, .branch high .trueBB, .op comparison.high, .branch .neUn .falseBB, .op comparison.low,
        .branch low .trueBB, .br .falseBB]

/-- A comparison with an instruction behind it that sets a register. -/
def emitSet (nextVreg dreg : Nat) (comparison : Comparison) (next : LongSet) : Option (List LongCode) :=
  match next with
  | .lceq => some (emitXor nextVreg comparison ++ [.op (.setCond .eq dreg)])
  | next =>
    (lcsetDecomp next).map fun (high, low) =>
      [.op (.iconst dreg 0), .op comparison.high, .branch high .setTo0, .op comparison.high, .branch .neUn .setTo1,
        .op comparison.low, .branch low .setTo0, .startBB .setTo1, .op (.iconst dreg 1), .startBB .setTo0]

/-- A checked conversion to a signed type of one or two bytes. -/
def emitNarrow (op : UnaluOp) (lower upper : BitVec 32) (dreg sreg1 : Nat) : List LongCode :=
  [.op (.compareImm (sreg1 + 2) 0), .condExc .gt, .op (.compareImm (sreg1 + 2) (-1)), .condExc .lt,
    .op (.compareImm (sreg1 + 2) 0), .branch .lt .isNegative,
    -- Positive
    .op (.compareImm (sreg1 + 1) upper), .condExc .gtUn, .br .endLabel,
    -- Negative
    .startBB .isNegative, .op (.compareImm (sreg1 + 1) lower), .condExc .ltUn,
    .startBB .endLabel, .op (.unalu op dreg (sreg1 + 1))]

/-- Two instructions on the words of longs, the ls word first. -/
def emitPair (low high : Ins) : List LongCode :=
  [.op low, .op high]

/-- `mono_decompose_long_opts`, on an instruction with its registers: what is emitted in its place, if anything is. -/
def decomposeLongOpts (nextVreg dreg sreg1 sreg2 : Nat) : Opcode → Option (List LongCode)
  | .i8const value => emitPair (.iconst (dreg + 1) (lsWord value)) (.iconst (dreg + 2) (msWord value))
  | .lmove | .lconvToU8 | .lconvToI8 | .lconvToOvfU8Un | .lconvToOvfI8 =>
    emitPair (.unalu .move (dreg + 1) (sreg1 + 1)) (.unalu .move (dreg + 2) (sreg1 + 2))
  | .iconvToI8 =>
    let (tmpreg, _) := allocIreg nextVreg
    -- branchless code: low = reg; tmp = low > -1 ? 1: 0; high = tmp - 1
    some
      [.op (.unalu .move (dreg + 1) sreg1), .op (.compareImm (dreg + 1) (-1)), .op (.setCond .gt tmpreg),
        .op (.isubImm (dreg + 2) tmpreg 1)]
  | .iconvToU8 => emitPair (.unalu .move (dreg + 1) sreg1) (.iconst (dreg + 2) 0)
  | .iconvToOvfI8 =>
    -- a signed 32 bit num always fits in a signed 64 bit one
    some [.op (.shrImm (dreg + 2) sreg1 31), .op (.unalu .move (dreg + 1) sreg1)]
  | .iconvToOvfU8 =>
    some
      [.op (.compareImm sreg1 0), .condExc .lt, .op (.iconst (dreg + 2) 0), .op (.unalu .move (dreg + 1) sreg1)]
  | .iconvToOvfI8Un | .iconvToOvfU8Un =>
    -- an unsigned 32 bit num always fits in an (un)signed 64 bit one
    some [.op (.iconst (dreg + 2) 0), .op (.unalu .move (dreg + 1) sreg1)]
  | .lconvToI1 => some [.op (.unalu .iconvToI1 dreg (sreg1 + 1))]
  | .lconvToU1 => some [.op (.unalu .iconvToU1 dreg (sreg1 + 1))]
  | .lconvToI2 => some [.op (.unalu .iconvToI2 dreg (sreg1 + 1))]
  | .lconvToU2 => some [.op (.unalu .iconvToU2 dreg (sreg1 + 1))]
  | .lconvToI4 | .lconvToU4 | .lconvToI | .lconvToU => some [.op (.unalu .move dreg (sreg1 + 1))]
  | .lconvToOvfI1 => some (emitNarrow .iconvToI1 (-128) 127 dreg sreg1)
  | .lconvToOvfI1Un =>
    some
      [.op (.compareImm (sreg1 + 2) 0), .condExc .neUn,
        .op (.compareImm (sreg1 + 1) 127), .condExc .gt, .op (.compareImm (sreg1 + 1) (-128)), .condExc .lt,
        .op (.unalu .iconvToI1 dreg (sreg1 + 1))]
  | .lconvToOvfU1 | .lconvToOvfU1Un =>
    some
      [.op (.compareImm (sreg1 + 2) 0), .condExc .neUn,
        -- probe value to be within 0 to 255
        .op (.compareImm (sreg1 + 1) 255), .condExc .gtUn, .op (.logicImm .and dreg (sreg1 + 1) 0xff)]
  | .lconvToOvfI2 => some (emitNarrow .iconvToI2 (-32768) 32767 dreg sreg1)
  | .lconvToOvfI2Un =>
    some
      [.op (.compareImm (sreg1 + 2) 0), .condExc .neUn,
        -- Probe value to be within -32768 and 32767
        .op (.compareImm (sreg1 + 1) 32767), .condExc .gt, .op (.compareImm (sreg1 + 1) (-32768)), .condExc .lt,
        .op (.unalu .iconvToI2 dreg (sreg1 + 1))]
  | .lconvToOvfU2 | .lconvToOvfU2Un =>
    some
      [.op (.compareImm (sreg1 + 2) 0), .condExc .neUn,
        -- Probe value to be within 0 and 65535
        .op (.compareImm (sreg1 + 1) 0xffff), .condExc .gtUn, .op (.logicImm .and dreg (sreg1 + 1) 0xffff)]
  | .lconvToOvfU4 | .lconvToOvfU | .lconvToOvfU4Un | .lconvToOvfUUn =>
    some [.op (.compareImm (sreg1 + 2) 0), .condExc .neUn, .op (.unalu .move dreg (sreg1 + 1))]
  | .lconvToOvfIUn | .lconvToOvfI4Un =>
    some
      [.op (.compareImm (sreg1 + 2) 0), .condExc .neUn, .op (.compareImm (sreg1 + 1) 0), .condExc .lt,
        .op (.unalu .move dreg (sreg1 + 1))]
  | .lconvToOvfU8 | .lconvToOvfI8Un =>
    some
      [.op (.compareImm (sreg1 + 2) 0), .condExc .lt, .op (.unalu .move (dreg + 1) (sreg1 + 1)),
        .op (.unalu .move (dreg + 2) (sreg1 + 2))]
  | .ladd => emitPair (.arith .addcc (dreg + 1) (sreg1 + 1) (sreg2 + 1)) (.arith .adc (dreg + 2) (sreg1 + 2) (sreg2 + 2))
  | .lsub => emitPair (.arith .subcc (dreg + 1) (sreg1 + 1) (sreg2 + 1)) (.arith .sbb (dreg + 2) (sreg1 + 2) (sreg2 + 2))
  | .laddOvf =>
    -- ADC sets the condition code
    some
      [.op (.arith .addcc (dreg + 1) (sreg1 + 1) (sreg2 + 1)), .op (.arith .adc (dreg + 2) (sreg1 + 2) (sreg2 + 2)),
        .condExc .ov]
  | .laddOvfUn =>
    some
      [.op (.arith .addcc (dreg + 1) (sreg1 + 1) (sreg2 + 1)), .op (.arith .adc (dreg + 2) (sreg1 + 2) (sreg2 + 2)),
        .condExc .c]
  | .lsubOvf =>
    -- SBB sets the condition code
    some
      [.op (.arith .subcc (dreg + 1) (sreg1 + 1) (sreg2 + 1)), .op (.arith .sbb (dreg + 2) (sreg1 + 2) (sreg2 + 2)),
        .condExc .ov]
  | .lsubOvfUn =>
    some
      [.op (.arith .subcc (dreg + 1) (sreg1 + 1) (sreg2 + 1)), .op (.arith .sbb (dreg + 2) (sreg1 + 2) (sreg2 + 2)),
        .condExc .c]
  | .land => emitPair (.logic .and (dreg + 1) (sreg1 + 1) (sreg2 + 1)) (.logic .and (dreg + 2) (sreg1 + 2) (sreg2 + 2))
  | .lor => emitPair (.logic .or (dreg + 1) (sreg1 + 1) (sreg2 + 1)) (.logic .or (dreg + 2) (sreg1 + 2) (sreg2 + 2))
  | .lxor => emitPair (.logic .xor (dreg + 1) (sreg1 + 1) (sreg2 + 1)) (.logic .xor (dreg + 2) (sreg1 + 2) (sreg2 + 2))
  | .lnot => emitPair (.unalu .inot (dreg + 1) (sreg1 + 1)) (.unalu .inot (dreg + 2) (sreg1 + 2))
  | .laddImm imm =>
    emitPair (.arithImm .addcc (dreg + 1) (sreg1 + 1) (lsWord imm)) (.arithImm .adc (dreg + 2) (sreg1 + 2) (msWord imm))
  | .lsubImm imm =>
    emitPair (.arithImm .subcc (dreg + 1) (sreg1 + 1) (lsWord imm)) (.arithImm .sbb (dreg + 2) (sreg1 + 2) (msWord imm))
  | .landImm imm =>
    emitPair (.logicImm .and (dreg + 1) (sreg1 + 1) (lsWord imm)) (.logicImm .and (dreg + 2) (sreg1 + 2) (msWord imm))
  | .lorImm imm =>
    emitPair (.logicImm .or (dreg + 1) (sreg1 + 1) (lsWord imm)) (.logicImm .or (dreg + 2) (sreg1 + 2) (msWord imm))
  | .lxorImm imm =>
    emitPair (.logicImm .xor (dreg + 1) (sreg1 + 1) (lsWord imm)) (.logicImm .xor (dreg + 2) (sreg1 + 2) (msWord imm))
  | .lshrUnImm amount =>
    -- just move the upper half to the lower and zero the high word
    if amount = 32 then emitPair (.unalu .move (dreg + 1) (sreg1 + 2)) (.iconst (dreg + 2) 0) else none
  | .lshlImm amount =>
    -- just move the lower half to the upper and zero the lower word
    if amount = 32 then some [.op (.unalu .move (dreg + 2) (sreg1 + 1)), .op (.iconst (dreg + 1) 0)] else none
  | .lcompareBranch next => emitBranch nextVreg (lcompare sreg1 sreg2) next
  | .lcompareSet next => emitSet nextVreg dreg (lcompare sreg1 sreg2) next
  | .lcompareImmBranch imm next => emitBranch nextVreg (lcompareImm sreg1 imm) next
  | .lcompareImmSet imm next => emitSet nextVreg dreg (lcompareImm sreg1 imm) next

/-! ### Meaning -/

/-- Whether a branch is taken. -/
def LongBranch.taken (x y : BitVec 64) : LongBranch → Bool
  | .lbeq => x == y
  | .lbge => y.toInt ≤ x.toInt
  | .lbgt => y.toInt < x.toInt
  | .lble => x.toInt ≤ y.toInt
  | .lblt => x.toInt < y.toInt
  | .lbneUn => x != y
  | .lbgeUn => y.toNat ≤ x.toNat
  | .lbgtUn => y.toNat < x.toNat
  | .lbleUn => x.toNat ≤ y.toNat
  | .lbltUn => x.toNat < y.toNat

/-- Whether a register is set to 1. -/
def LongSet.taken (x y : BitVec 64) : LongSet → Bool
  | .lceq => x == y
  | .lcgt => y.toInt < x.toInt
  | .lcgtUn => y.toNat < x.toNat
  | .lclt => x.toInt < y.toInt
  | .lcltUn => x.toNat < y.toNat

/-- The `int` that a comparison leaves. -/
def LongSet.value (x y : BitVec 64) (next : LongSet) : BitVec 32 :=
  if next.taken x y then 1 else 0

open Decompose.IntType in
/-- The CLI operation of an opcode on an `int` or on longs. The native integers have four bytes. -/
def Opcode.meaning (i : BitVec 32) (x y : BitVec 64) : Opcode → Result
  | .i8const value => .i8 value
  | .lmove => .i8 x
  | .lconvToU8 => conv i8 u8 x
  | .lconvToI8 => conv i8 i8 x
  | .lconvToOvfU8Un => convOvf u8 u8 x
  | .lconvToOvfI8 => convOvf i8 i8 x
  | .iconvToI8 => conv i4 i8 i
  | .iconvToU8 => conv u4 u8 i
  | .iconvToOvfI8 => convOvf i4 i8 i
  | .iconvToOvfU8 => convOvf i4 u8 i
  | .iconvToOvfI8Un => convOvf u4 i8 i
  | .iconvToOvfU8Un => convOvf u4 u8 i
  | .lconvToI1 => conv i8 i1 x
  | .lconvToU1 => conv i8 u1 x
  | .lconvToI2 => conv i8 i2 x
  | .lconvToU2 => conv i8 u2 x
  | .lconvToI4 | .lconvToI => conv i8 i4 x
  | .lconvToU4 | .lconvToU => conv i8 u4 x
  | .lconvToOvfI1 => convOvf i8 i1 x
  | .lconvToOvfI1Un => convOvf u8 i1 x
  | .lconvToOvfU1 => convOvf i8 u1 x
  | .lconvToOvfU1Un => convOvf u8 u1 x
  | .lconvToOvfI2 => convOvf i8 i2 x
  | .lconvToOvfI2Un => convOvf u8 i2 x
  | .lconvToOvfU2 => convOvf i8 u2 x
  | .lconvToOvfU2Un => convOvf u8 u2 x
  | .lconvToOvfU4 | .lconvToOvfU => convOvf i8 u4 x
  | .lconvToOvfU4Un | .lconvToOvfUUn => convOvf u8 u4 x
  | .lconvToOvfIUn | .lconvToOvfI4Un => convOvf u8 i4 x
  | .lconvToOvfU8 => convOvf i8 u8 x
  | .lconvToOvfI8Un => convOvf u8 i8 x
  | .ladd => .i8 (x + y)
  | .lsub => .i8 (x - y)
  | .laddOvf => addOvf i8 x y
  | .laddOvfUn => addOvf u8 x y
  | .lsubOvf => subOvf i8 x y
  | .lsubOvfUn => subOvf u8 x y
  | .land => .i8 (x &&& y)
  | .lor => .i8 (x ||| y)
  | .lxor => .i8 (x ^^^ y)
  | .lnot => .i8 (~~~ x)
  | .laddImm imm => .i8 (x + imm)
  | .lsubImm imm => .i8 (x - imm)
  | .landImm imm => .i8 (x &&& imm)
  | .lorImm imm => .i8 (x ||| imm)
  | .lxorImm imm => .i8 (x ^^^ imm)
  | .lshrUnImm amount => .i8 (x >>> amount)
  | .lshlImm amount => .i8 (x <<< amount)
  | .lcompareBranch next => .branches (next.taken x y)
  | .lcompareSet next => .i4 (next.value x y)
  | .lcompareImmBranch imm next => .branches (next.taken x imm)
  | .lcompareImmSet imm next => .i4 (next.value x imm)

/-- An outcome meets a result. -/
inductive Meets (dreg : Nat) : Result → Outcome 32 Label → Prop where
  | raises : Meets dreg .raises .raised
  | i4 {s : State 32} : Meets dreg (.i4 (s.reg dreg)) (.finished s)
  | i8 {s : State 32} : Meets dreg (.i8 (long s dreg)) (.finished s)
  | branches {taken : Bool} {s : State 32} :
      Meets dreg (.branches taken) (.branched (if taken then .trueBB else .falseBB) s)

/-- Where the emitted instructions do what the CLI says. The `.un` conversions to signed bytes and words take the ls word
for a signed one when the ms word is 0. -/
def Opcode.Holds (x : BitVec 64) : Opcode → Prop
  | .lconvToOvfI1Un => ¬ (2 ^ 32 - 2 ^ 7 ≤ x.toNat ∧ x.toNat < 2 ^ 32)
  | .lconvToOvfI2Un => ¬ (2 ^ 32 - 2 ^ 15 ≤ x.toNat ∧ x.toNat < 2 ^ 32)
  | _ => True

end MonoRuntime.DecomposeLong
