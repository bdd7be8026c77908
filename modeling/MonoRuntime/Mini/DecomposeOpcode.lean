/-
Module: MonoRuntime.Mini.DecomposeOpcode
Purpose: `mono_decompose_opcode` of `decompose.c` where registers have eight bytes: the instructions that it puts in the place
  of the checked additions and of the conversions. An `int` is the low word of a register, and the high word of a register
  that an `int` instruction writes is not said.
Trusted boundary: human-reviewed translation of the source; what an instruction does is taken from the names and comments of
  the source and from `mini-amd64.c`
Main exports: Opcode
-/
import MonoRuntime.Lib.WordMachine
import MonoRuntime.Mini.CliArithmetic

namespace MonoRuntime.Decompose

open WordMachine

/-! ### Opcodes -/

/-- The opcodes that are decomposed. -/
inductive Opcode where
  | iaddOvf
  | iaddOvfUn
  | isubOvf
  | isubOvfUn
  | iconvToOvfI1
  | iconvToOvfI1Un
  | iconvToOvfU1
  | iconvToOvfU1Un
  | iconvToOvfI2
  | iconvToOvfI2Un
  | iconvToOvfU2
  | iconvToOvfU2Un
  | iconvToOvfU4
  | iconvToOvfI4Un
  | iconvToI4
  | iconvToU4
  | iconvToOvfI4
  | iconvToOvfU4Un
  | iconvToI
  | iconvToU
  | lconvToI4
  | lconvToI8
  | lconvToI
  | lconvToU8
  | lconvToU
  | iconvToI8
  | iconvToU8
  | lconvToU4
  | laddOvf
  | laddOvfUn
  | lsubOvf
  | lsubOvfUn
  | iconvToOvfI8
  | iconvToOvfI
  | iconvToOvfU8
  | iconvToOvfU
  | iconvToOvfI8Un
  | iconvToOvfU8Un
  | iconvToOvfIUn
  | iconvToOvfUUn
  | lconvToOvfI1
  | lconvToOvfI1Un
  | lconvToOvfU1
  | lconvToOvfU1Un
  | lconvToOvfI2
  | lconvToOvfI2Un
  | lconvToOvfU2
  | lconvToOvfU2Un
  | lconvToOvfI4
  | lconvToOvfI4Un
  | lconvToOvfU4
  | lconvToOvfU4Un
  | lconvToOvfI
  | lconvToOvfUUn
  | lconvToOvfU8Un
  | lconvToOvfI8
  | lconvToOvfIUn
  | lconvToOvfI8Un
  | lconvToOvfU8
  | lconvToOvfU
  deriving DecidableEq, Repr

/-! ### Emitted instructions -/

/-- Instructions with one source. -/
inductive UnaluOp where
  | move
  | sextI4
  | zextI4
  | iconvToI1
  | iconvToI2
  | lconvToI1
  | lconvToI2
  deriving DecidableEq, Repr

/-- Instructions with two sources that set the flags. -/
inductive BialuOp where
  | iaddcc
  | isubcc
  | addcc
  | subcc
  deriving DecidableEq, Repr

/-- Instructions with a source and a constant. -/
inductive BialuImmOp where
  | iandImm
  | andImm
  | ishrUnImm
  | lshrImm
  deriving DecidableEq, Repr

/-- The emitted instructions but those that exit on a condition. -/
inductive Ins where
  | unalu (op : UnaluOp) (dreg sreg1 : Nat)
  | bialu (op : BialuOp) (dreg sreg1 sreg2 : Nat)
  | bialuImm (op : BialuImmOp) (dreg sreg1 : Nat) (imm : BitVec 64)
  | compareImm (sreg1 : Nat) (imm : BitVec 64)
  | icompareImm (sreg1 : Nat) (imm : BitVec 64)
  deriving DecidableEq, Repr

/-- The low word of a register. -/
def low (reg : BitVec 64) : BitVec 32 :=
  reg.setWidth 32

/-- A register with an `int`, and with a high word that the instruction leaves there. -/
def withHigh (high word : BitVec 32) : BitVec 64 :=
  high ++ word

/-- What an instruction with one source leaves in its register. -/
def UnaluOp.value (high : BitVec 32) (x : BitVec 64) : UnaluOp → BitVec 64
  | .move => x
  | .sextI4 => (low x).signExtend 64
  | .zextI4 => (low x).setWidth 64
  | .iconvToI1 | .lconvToI1 => withHigh high ((x.setWidth 8).signExtend 32)
  | .iconvToI2 | .lconvToI2 => withHigh high ((x.setWidth 16).signExtend 32)

/-- What an instruction with two sources leaves in its register. -/
def BialuOp.value (high : BitVec 32) (x y : BitVec 64) : BialuOp → BitVec 64
  | .iaddcc => withHigh high (adc (low x) (low y) false)
  | .isubcc => withHigh high (sbb (low x) (low y) false)
  | .addcc => adc x y false
  | .subcc => sbb x y false

/-- The flags behind an instruction with two sources. -/
def BialuOp.flags (x y : BitVec 64) : BialuOp → Flags
  | .iaddcc => adcFlags (low x) (low y) false
  | .isubcc => sbbFlags (low x) (low y) false
  | .addcc => adcFlags x y false
  | .subcc => sbbFlags x y false

/-- What an instruction with a constant leaves in its register. `OP_ISHR_UN_IMM` cleans out the upper word. -/
def BialuImmOp.value (high : BitVec 32) (x imm : BitVec 64) : BialuImmOp → BitVec 64
  | .iandImm => withHigh high (low x &&& low imm)
  | .andImm => x &&& imm
  | .ishrUnImm => (low x >>> imm.toNat).setWidth 64
  | .lshrImm => x.sshiftRight imm.toNat

/-- One instruction. -/
def step (high : BitVec 32) : Ins → State 64 → State 64
  | .unalu op dreg sreg1, s => s.set dreg (op.value high (s.reg sreg1))
  | .bialu op dreg sreg1 sreg2, s =>
    { s.set dreg (op.value high (s.reg sreg1) (s.reg sreg2)) with flags := op.flags (s.reg sreg1) (s.reg sreg2) }
  | .bialuImm op dreg sreg1 imm, s => s.set dreg (op.value high (s.reg sreg1) imm)
  | .compareImm sreg1 imm, s => { s with flags := compareFlags (s.reg sreg1) imm }
  | .icompareImm sreg1 imm, s => { s with flags := compareFlags (low (s.reg sreg1)) (low imm) }

/-! ### Decomposition -/

/-- `mono_decompose_opcode`, on an instruction with its registers. No label is used. -/
def decomposeOpcode (dreg sreg1 sreg2 : Nat) : Opcode → List (Code Ins Empty)
  | .iaddOvf => [.op (.bialu .iaddcc dreg sreg1 sreg2), .condExc .ov]
  | .iaddOvfUn => [.op (.bialu .iaddcc dreg sreg1 sreg2), .condExc .c]
  | .isubOvf => [.op (.bialu .isubcc dreg sreg1 sreg2), .condExc .ov]
  | .isubOvfUn => [.op (.bialu .isubcc dreg sreg1 sreg2), .condExc .c]
  | .iconvToOvfI1 =>
    [.op (.icompareImm sreg1 127), .condExc .gt, .op (.icompareImm sreg1 (-128)), .condExc .lt,
      .op (.unalu .iconvToI1 dreg sreg1)]
  | .iconvToOvfI1Un =>
    -- probe values between 0 to 127
    [.op (.icompareImm sreg1 127), .condExc .gtUn, .op (.unalu .iconvToI1 dreg sreg1)]
  | .iconvToOvfU1 | .iconvToOvfU1Un =>
    -- probe value to be within 0 to 255
    [.op (.compareImm sreg1 255), .condExc .gtUn, .op (.bialuImm .iandImm dreg sreg1 0xff)]
  | .iconvToOvfI2 =>
    [.op (.icompareImm sreg1 32767), .condExc .gt, .op (.icompareImm sreg1 (-32768)), .condExc .lt,
      .op (.unalu .iconvToI2 dreg sreg1)]
  | .iconvToOvfI2Un => [.op (.icompareImm sreg1 32767), .condExc .gtUn, .op (.unalu .iconvToI2 dreg sreg1)]
  | .iconvToOvfU2 | .iconvToOvfU2Un =>
    -- Probe value to be within 0 and 65535
    [.op (.icompareImm sreg1 0xffff), .condExc .gtUn, .op (.bialuImm .iandImm dreg sreg1 0xffff)]
  | .iconvToOvfU4 | .iconvToOvfI4Un =>
    [.op (.icompareImm sreg1 0), .condExc .lt, .op (.unalu .move dreg sreg1)]
  | .iconvToI4 | .iconvToU4 | .iconvToOvfI4 | .iconvToOvfU4Un => [.op (.unalu .move dreg sreg1)]
  | .iconvToI => [.op (.unalu .sextI4 dreg sreg1)]
  | .iconvToU => [.op (.unalu .zextI4 dreg sreg1)]
  | .lconvToI4 => [.op (.bialuImm .lshrImm dreg sreg1 0)]
  | .lconvToI8 | .lconvToI | .lconvToU8 | .lconvToU => [.op (.unalu .move dreg sreg1)]
  | .iconvToI8 => [.op (.unalu .sextI4 dreg sreg1)]
  | .iconvToU8 => [.op (.unalu .zextI4 dreg sreg1)]
  | .lconvToU4 =>
    -- Clean out the upper word
    [.op (.bialuImm .ishrUnImm dreg sreg1 0)]
  | .laddOvf => [.op (.bialu .addcc dreg sreg1 sreg2), .condExc .ov]
  | .laddOvfUn => [.op (.bialu .addcc dreg sreg1 sreg2), .condExc .c]
  | .lsubOvf => [.op (.bialu .subcc dreg sreg1 sreg2), .condExc .ov]
  | .lsubOvfUn => [.op (.bialu .subcc dreg sreg1 sreg2), .condExc .c]
  | .iconvToOvfI8 | .iconvToOvfI => [.op (.unalu .sextI4 dreg sreg1)]
  | .iconvToOvfU8 | .iconvToOvfU =>
    [.op (.compareImm sreg1 0), .condExc .lt, .op (.unalu .zextI4 dreg sreg1)]
  | .iconvToOvfI8Un | .iconvToOvfU8Un | .iconvToOvfIUn | .iconvToOvfUUn =>
    -- an unsigned 32 bit num always fits in an (un)signed 64 bit one; Clean out the upper word
    [.op (.bialuImm .ishrUnImm dreg sreg1 0)]
  | .lconvToOvfI1 =>
    [.op (.compareImm sreg1 127), .condExc .gt, .op (.compareImm sreg1 (-128)), .condExc .lt,
      .op (.unalu .lconvToI1 dreg sreg1)]
  | .lconvToOvfI1Un => [.op (.compareImm sreg1 127), .condExc .gtUn, .op (.unalu .lconvToI1 dreg sreg1)]
  | .lconvToOvfU1 | .lconvToOvfU1Un =>
    -- probe value to be within 0 to 255
    [.op (.compareImm sreg1 255), .condExc .gtUn, .op (.bialuImm .andImm dreg sreg1 0xff)]
  | .lconvToOvfI2 =>
    -- Probe value to be within -32768 and 32767
    [.op (.compareImm sreg1 32767), .condExc .gt, .op (.compareImm sreg1 (-32768)), .condExc .lt,
      .op (.unalu .lconvToI2 dreg sreg1)]
  | .lconvToOvfI2Un =>
    -- Probe value to be within 0 and 32767
    [.op (.compareImm sreg1 32767), .condExc .gtUn, .op (.unalu .lconvToI2 dreg sreg1)]
  | .lconvToOvfU2 | .lconvToOvfU2Un =>
    -- Probe value to be within 0 and 65535
    [.op (.compareImm sreg1 0xffff), .condExc .gtUn, .op (.bialuImm .andImm dreg sreg1 0xffff)]
  | .lconvToOvfI4 =>
    [.op (.compareImm sreg1 0x7fffffff), .condExc .gt, .op (.compareImm sreg1 (-2147483648)), .condExc .lt,
      .op (.unalu .move dreg sreg1)]
  | .lconvToOvfI4Un => [.op (.compareImm sreg1 0x7fffffff), .condExc .gtUn, .op (.unalu .move dreg sreg1)]
  | .lconvToOvfU4 =>
    [.op (.compareImm sreg1 0xffffffff), .condExc .gt, .op (.compareImm sreg1 0), .condExc .lt,
      .op (.unalu .move dreg sreg1)]
  | .lconvToOvfU4Un => [.op (.compareImm sreg1 0xffffffff), .condExc .gtUn, .op (.unalu .move dreg sreg1)]
  | .lconvToOvfI | .lconvToOvfUUn | .lconvToOvfU8Un | .lconvToOvfI8 => [.op (.unalu .move dreg sreg1)]
  | .lconvToOvfIUn | .lconvToOvfI8Un | .lconvToOvfU8 | .lconvToOvfU =>
    [.op (.compareImm sreg1 0), .condExc .lt, .op (.unalu .move dreg sreg1)]

/-! ### Meaning -/

open IntType in
/-- The CLI instruction of an opcode, on its operands. The native integers have eight bytes. -/
def Opcode.meaning (x y : BitVec 64) : Opcode → Result
  | .iaddOvf => addOvf i4 x y
  | .iaddOvfUn => addOvf u4 x y
  | .isubOvf => subOvf i4 x y
  | .isubOvfUn => subOvf u4 x y
  | .iconvToOvfI1 => convOvf i4 i1 x
  | .iconvToOvfI1Un => convOvf u4 i1 x
  | .iconvToOvfU1 => convOvf i4 u1 x
  | .iconvToOvfU1Un => convOvf u4 u1 x
  | .iconvToOvfI2 => convOvf i4 i2 x
  | .iconvToOvfI2Un => convOvf u4 i2 x
  | .iconvToOvfU2 => convOvf i4 u2 x
  | .iconvToOvfU2Un => convOvf u4 u2 x
  | .iconvToOvfU4 => convOvf i4 u4 x
  | .iconvToOvfI4Un => convOvf u4 i4 x
  | .iconvToI4 => conv i4 i4 x
  | .iconvToU4 => conv i4 u4 x
  | .iconvToOvfI4 => convOvf i4 i4 x
  | .iconvToOvfU4Un => convOvf u4 u4 x
  | .iconvToI | .iconvToI8 => conv i4 i8 x
  | .iconvToU | .iconvToU8 => conv u4 u8 x
  | .lconvToI4 => conv i8 i4 x
  | .lconvToU4 => conv i8 u4 x
  | .lconvToI8 | .lconvToI => conv i8 i8 x
  | .lconvToU8 | .lconvToU => conv i8 u8 x
  | .laddOvf => addOvf i8 x y
  | .laddOvfUn => addOvf u8 x y
  | .lsubOvf => subOvf i8 x y
  | .lsubOvfUn => subOvf u8 x y
  | .iconvToOvfI8 | .iconvToOvfI => convOvf i4 i8 x
  | .iconvToOvfU8 | .iconvToOvfU => convOvf i4 u8 x
  | .iconvToOvfI8Un | .iconvToOvfIUn => convOvf u4 i8 x
  | .iconvToOvfU8Un | .iconvToOvfUUn => convOvf u4 u8 x
  | .lconvToOvfI1 => convOvf i8 i1 x
  | .lconvToOvfI1Un => convOvf u8 i1 x
  | .lconvToOvfU1 => convOvf i8 u1 x
  | .lconvToOvfU1Un => convOvf u8 u1 x
  | .lconvToOvfI2 => convOvf i8 i2 x
  | .lconvToOvfI2Un => convOvf u8 i2 x
  | .lconvToOvfU2 => convOvf i8 u2 x
  | .lconvToOvfU2Un => convOvf u8 u2 x
  | .lconvToOvfI4 => convOvf i8 i4 x
  | .lconvToOvfI4Un => convOvf u8 i4 x
  | .lconvToOvfU4 => convOvf i8 u4 x
  | .lconvToOvfU4Un => convOvf u8 u4 x
  | .lconvToOvfI | .lconvToOvfI8 => convOvf i8 i8 x
  | .lconvToOvfUUn | .lconvToOvfU8Un => convOvf u8 u8 x
  | .lconvToOvfIUn | .lconvToOvfI8Un => convOvf u8 i8 x
  | .lconvToOvfU8 | .lconvToOvfU => convOvf i8 u8 x

/-- An outcome meets a result: the significant bits of the register are those of the value. -/
inductive Meets (dreg : Nat) : Result → Outcome 64 Empty → Prop where
  | raises : Meets dreg .raises .raised
  | i4 {s : State 64} : Meets dreg (.i4 (low (s.reg dreg))) (.finished s)
  | i8 {s : State 64} : Meets dreg (.i8 (s.reg dreg)) (.finished s)

/-- Where the emitted instructions do what the CLI says. Two opcodes compare the whole register with 255 and two its sign,
where the `int` in it is meant. -/
def Opcode.Holds (x : BitVec 64) : Opcode → Prop
  | .iconvToOvfU1 | .iconvToOvfU1Un => x.toNat < 2 ^ 32 ∨ 255 < (low x).toNat
  | .iconvToOvfU8 | .iconvToOvfU => x.msb = (low x).msb
  | _ => True

end MonoRuntime.Decompose
