/-
Module: MonoRuntime.Mini.StrengthReduction
Purpose: The strength reduction of `mono_local_cprop` where registers have eight bytes: `mono_is_power_of_two`, the switch
  that replaces an instruction with an immediate by cheaper ones, and what the instructions do to the registers. An `int` is
  the low word of a register, and the high word that an `int` instruction leaves is not said.
Trusted boundary: human-reviewed translation of the source; what an instruction does is taken from the names of the opcodes
  and from the back ends
Main exports: monoIsPowerOfTwo
-/
import Mathlib.Algebra.Order.Ring.Int

namespace MonoRuntime.LocalCprop

/-! ### `mono_is_power_of_two` -/

/-- The loop: the place of the first bit that is set, or 32, and the mask of the bits behind it. The first argument counts
the rounds that are left. -/
def powerOfTwoLoop (val : BitVec 32) : Nat → (i : Nat) → (j k : BitVec 32) → Nat × BitVec 32
  | 0, i, _, k => (i, k)
  | rounds + 1, i, j, k =>
      if val &&& j ≠ 0 then (i, k) else powerOfTwoLoop val rounds (i + 1) (j <<< 1) (k <<< 1)

/-- `mono_is_power_of_two`: the exponent, or -1. -/
def monoIsPowerOfTwo (val : BitVec 32) : Int :=
  let (i, k) := powerOfTwoLoop val 32 0 1#32 0xfffffffe#32
  if i = 32 ∨ val &&& k ≠ 0 then -1 else i

/-! ### Instructions -/

/-- The opcodes that the switch looks at, and those it leaves behind. -/
inductive Opcode where
  | nop
  | move
  | iconst
  | i8const
  | addImm
  | iaddImm
  | laddImm
  | subImm
  | isubImm
  | lsubImm
  | mulImm
  | imulImm
  | lmulImm
  | idivImm
  | idivUnImm
  | iremUnImm
  | ineg
  | lneg
  | shlImm
  | ishlImm
  | lshlImm
  | ishrImm
  | ishrUnImm
  | iandImm
  | iadd
  deriving DecidableEq, Repr

/-- The fields of a `MonoInst` that these opcodes use; -1 is no register. -/
structure MonoInst where
  opcode : Opcode
  dreg : Int
  sreg1 : Int
  sreg2 : Int
  instC0 : BitVec 64
  instImm : BitVec 64
  deriving DecidableEq, Repr

/-- The registers. -/
abbrev Regs := Int → BitVec 64

/-- The low word of a register. -/
def low (reg : BitVec 64) : BitVec 32 :=
  reg.setWidth 32

/-- The operand size of `OP_SHL_IMM`: `mini-amd64.c` shifts four bytes and clears the others, the other back ends shift the
register. -/
inductive ShlSize where
  | fourBytes
  | eightBytes
  deriving DecidableEq, Repr

/-- What `OP_SHL_IMM` leaves in its register. -/
def ShlSize.shift (x : BitVec 64) (imm : Nat) : ShlSize → BitVec 64
  | .fourBytes => (low x <<< imm).setWidth 64
  | .eightBytes => x <<< imm

/-- The most negative `gint32`, which has no positive counterpart. -/
def minInt32 : BitVec 32 :=
  0x80000000

/-- What an instruction leaves in its register: nothing where it raises an exception. `high` is the word that an `int`
instruction leaves above its result; constants are loaded into the whole register. -/
def Opcode.value (shl : ShlSize) (high : BitVec 32) (c0 imm x y : BitVec 64) : Opcode → Option (BitVec 64)
  | .nop => none
  | .move => some x
  | .iconst | .i8const => some c0
  | .addImm | .laddImm => some (x + imm)
  | .iaddImm => some (high ++ (low x + low imm))
  | .subImm | .lsubImm => some (x - imm)
  | .isubImm => some (high ++ (low x - low imm))
  | .mulImm | .lmulImm => some (x * imm)
  | .imulImm => some (high ++ (low x * low imm))
  | .idivImm =>
    if low imm = 0 ∨ low x = minInt32 ∧ low imm = -1 then none else some (high ++ (low x).sdiv (low imm))
  | .idivUnImm => if low imm = 0 then none else some (high ++ low x / low imm)
  | .iremUnImm => if low imm = 0 then none else some (high ++ low x % low imm)
  | .ineg => some (high ++ -low x)
  | .lneg => some (-x)
  | .shlImm => some (shl.shift x imm.toNat)
  | .ishlImm => some (high ++ low x <<< imm.toNat)
  | .lshlImm => some (x <<< imm.toNat)
  | .ishrImm => some (high ++ (low x).sshiftRight imm.toNat)
  | .ishrUnImm => some (high ++ low x >>> imm.toNat)
  | .iandImm => some (high ++ (low x &&& low imm))
  | .iadd => some (high ++ (low x + low y))

/-- One instruction. `high` says what stands above the result of each `int` instruction. -/
def step (shl : ShlSize) (high : MonoInst → BitVec 32) (s : Regs) (ins : MonoInst) : Option Regs :=
  if ins.opcode = .nop then some s
  else
    (ins.opcode.value shl (high ins) ins.instC0 ins.instImm (s ins.sreg1) (s ins.sreg2)).map
      (Function.update s ins.dreg)

/-- Instructions one after the other, up to an exception. -/
def run (shl : ShlSize) (high : MonoInst → BitVec 32) (code : List MonoInst) (s : Regs) : Option Regs :=
  code.foldlM (step shl high) s

/-! ### Strength reduction -/

/-- `mono_arch_is_inst_imm` of `mini-amd64.c`. -/
def monoArchIsInstImm (imm : BitVec 64) : Bool :=
  -2 ^ 31 ≤ imm.toInt ∧ imm.toInt ≤ 2 ^ 31 - 1

/-- `NEW_BIALU_IMM`. -/
def newBialuImm (opcode : Opcode) (dreg sreg1 : Int) (imm : BitVec 64) : MonoInst :=
  { opcode := opcode, dreg := dreg, sreg1 := sreg1, sreg2 := -1, instC0 := 0, instImm := imm }

/-- `NEW_BIALU`. -/
def newBialu (opcode : Opcode) (dreg sreg1 sreg2 : Int) : MonoInst :=
  { opcode := opcode, dreg := dreg, sreg1 := sreg1, sreg2 := sreg2, instC0 := 0, instImm := 0 }

/-- `NULLIFY_INS`. -/
def MonoInst.nullify (ins : MonoInst) : MonoInst :=
  { ins with opcode := .nop, dreg := -1, sreg1 := -1, sreg2 := -1 }

/-- The multiplications. -/
def reduceMul (ins : MonoInst) : MonoInst :=
  if ins.instImm = 0 then
    { ins with opcode := if ins.opcode = .lmulImm then .i8const else .iconst, instC0 := 0, sreg1 := -1 }
  else if ins.instImm = 1 then { ins with opcode := .move }
  else if ins.opcode = .imulImm ∧ ins.instImm = -1 then { ins with opcode := .ineg }
  else if ins.opcode = .lmulImm ∧ ins.instImm = -1 then { ins with opcode := .lneg }
  else
    let power2 := monoIsPowerOfTwo (low ins.instImm)
    if power2 ≥ 0 then
      { ins with
        opcode := if ins.opcode = .mulImm then .shlImm else if ins.opcode = .lmulImm then .lshlImm else .ishlImm
        instImm := BitVec.ofInt 64 power2 }
    else ins

/-- The unsigned divisions and remainders. The mask is computed in `int`. -/
def reduceUnsigned (ins : MonoInst) : MonoInst :=
  let c := low ins.instImm
  let power2 := monoIsPowerOfTwo c
  if power2 ≥ 0 then
    if ins.opcode = .iremUnImm then
      { ins with opcode := .iandImm, sreg2 := -1, instImm := (1#32 <<< power2.toNat - 1).signExtend 64 }
    else { ins with opcode := .ishrUnImm, sreg2 := -1, instImm := BitVec.ofInt 64 power2 }
  else ins

/-- The signed division, with a register that is not in use. -/
def reduceDiv (r1 : Int) (ins : MonoInst) : List MonoInst :=
  let c := low ins.instImm
  let power2 := monoIsPowerOfTwo c
  if power2 = 1 then
    [ins.nullify, newBialuImm .ishrUnImm r1 ins.sreg1 31, newBialu .iadd r1 r1 ins.sreg1,
      newBialuImm .ishrImm ins.dreg r1 1]
  else if power2 > 0 then
    [ins.nullify, newBialuImm .ishrImm r1 ins.sreg1 31,
      newBialuImm .ishrUnImm r1 r1 (BitVec.ofInt 64 (32 - power2)), newBialu .iadd r1 r1 ins.sreg1,
      newBialuImm .ishrImm ins.dreg r1 (BitVec.ofInt 64 power2)]
  else [ins]

/-- The switch of `mono_local_cprop`: what stands in the place of an instruction. `nextVreg` is the register that
`mono_alloc_ireg` returns. -/
def strengthReduce (nextVreg : Int) (ins : MonoInst) : List MonoInst :=
  match ins.opcode with
  | .move => if ins.dreg = ins.sreg1 then [] else [ins]
  | .addImm | .iaddImm | .subImm | .isubImm | .laddImm | .lsubImm =>
    if ins.instImm = 0 then [{ ins with opcode := .move }] else [ins]
  | .mulImm | .imulImm | .lmulImm => [reduceMul ins]
  | .iremUnImm | .idivUnImm => [reduceUnsigned ins]
  | .idivImm => reduceDiv nextVreg ins
  | _ => [ins]

/-! ### Meaning -/

/-- Only the low word of the result is meant. -/
def Opcode.isInt : Opcode → Bool
  | .iconst | .iaddImm | .isubImm | .imulImm | .idivImm | .idivUnImm | .iremUnImm | .ineg | .ishlImm | .ishrImm
  | .ishrUnImm | .iandImm | .iadd => true
  | _ => false

/-- What is meant of a register. -/
def meant (isInt : Bool) (reg : BitVec 64) : BitVec 64 :=
  if isInt then (low reg).setWidth 64 else reg

/-- Two ways to run code leave the same in a register, as far as it is meant, and in every other one below `nextVreg`;
or both raise an exception. -/
def SameResult (nextVreg dreg : Int) (isInt : Bool) : Option Regs → Option Regs → Prop
  | some s, some s' => meant isInt (s dreg) = meant isInt (s' dreg) ∧ ∀ r < nextVreg, r ≠ dreg → s r = s' r
  | none, none => True
  | _, _ => False

/-- Where the substituted instructions compute what the instruction does. The most negative immediate counts as a power of
two, and `OP_SHL_IMM` may shift less than `OP_MUL_IMM` multiplies. -/
def MonoInst.Holds (shl : ShlSize) (ins : MonoInst) (x : BitVec 64) : Prop :=
  match ins.opcode with
  | .lmulImm => low ins.instImm = minInt32 → low x = 0
  | .mulImm =>
    match shl with
    | .eightBytes => low ins.instImm = minInt32 → low x = 0
    | .fourBytes => ins.instImm ≠ 1 → 0 ≤ monoIsPowerOfTwo (low ins.instImm) → (x * ins.instImm).toNat < 2 ^ 32
  | .idivImm => low ins.instImm = minInt32 → low x ≠ minInt32
  | _ => True

end MonoRuntime.LocalCprop
