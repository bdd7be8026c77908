/-
Module: MonoRuntime.Mini.ConstantFold
Purpose: `mono_constant_fold_ins` of `mini/cfold.c` where `inst_c0` and `inst_imm` have eight bytes, the pass from
  left to right that hands the constants on, and what the `int` instructions compute at run time. A division that the
  compiler itself would have to do by zero, or of the least number by -1, is the result `none`, as is the dereference
  of `NULL`.
Trusted boundary: human-reviewed translation of the source and statement of the CLI; the arithmetic of `gint64` wraps
  around, and what C leaves open about a shift count out of range is a parameter
Main exports: IntOp
-/
import MonoRuntime.Mini.StrengthReduction

namespace MonoRuntime.ConstantFold

open LocalCprop (low minInt32)

/-! ### Instructions -/

/-- The binary `int` operations, which have a form with two registers and one with an immediate. -/
inductive IntOp where
  | imul
  | iadd
  | iand
  | ior
  | ixor
  | isub
  | ishl
  | ishr
  | ishrUn
  | idiv
  | idivUn
  | irem
  | iremUn
  deriving DecidableEq, Repr

/-- What the instructions that set a register by a comparison ask. -/
inductive SetCond where
  | eq
  | gt
  | gtUn
  | lt
  | ltUn
  deriving DecidableEq, Repr

/-- What the branches by a comparison ask. -/
inductive BranchCond where
  | eq
  | neUn
  | gt
  | gtUn
  | ge
  | geUn
  | lt
  | ltUn
  | le
  | leUn
  deriving DecidableEq, Repr

/-- The opcodes that `mono_constant_fold_ins` tells apart. `reg .iadd` is `OP_IADD` and `imm .iadd` is `OP_IADD_IMM`;
`c .eq` is `OP_CEQ`, `ic .eq` is `OP_ICEQ` and `ib .eq` is `OP_IBEQ`. -/
inductive Opcode where
  | nop
  | br
  | iconst
  | i8const
  | r8const
  | vzero
  | xzero
  | adcImm
  | reg (op : IntOp)
  | imm (op : IntOp)
  | shlImm
  | inot
  | ineg
  | move
  | vmove
  | xmove
  | fmove
  | compare
  | icompare
  | compareImm
  | icompareImm
  | c (cond : SetCond)
  | ic (cond : SetCond)
  | ib (cond : BranchCond)
  | other (opcode : Int)
  deriving DecidableEq, Repr

/-- The fields of a `MonoInst` that are read or written; -1 is no register. `inst_c0` is also `inst_p0`, and the flags
are `MONO_INST_CFOLD_TAKEN` and `MONO_INST_CFOLD_NOT_TAKEN`. -/
structure MonoInst where
  opcode : Opcode
  dreg : Int
  sreg1 : Int
  sreg2 : Int
  instC0 : BitVec 64
  instImm : BitVec 64
  cfoldTaken : Bool
  cfoldNotTaken : Bool
  deriving DecidableEq, Repr

/-- `MONO_INST_NULLIFY_SREGS`. -/
def MonoInst.nullifySregs (ins : MonoInst) : MonoInst :=
  { ins with sreg1 := -1, sreg2 := -1 }

/-- `NULLIFY_INS`. -/
def MonoInst.nullify (ins : MonoInst) : MonoInst :=
  { ins with opcode := .nop, dreg := -1, sreg1 := -1, sreg2 := -1 }

/-- `ALLOC_DEST`, where `dest` is the instruction itself if it is overwritten. -/
def allocDest (overwrite : Bool) (ins : MonoInst) : MonoInst :=
  if overwrite then ins
  else
    { opcode := .other (-1), dreg := ins.dreg, sreg1 := -1, sreg2 := -1, instC0 := 0, instImm := 0, cfoldTaken := false,
      cfoldNotTaken := false }

/-! ### Arithmetic of the compiler -/

/-- A `gint32` that is stored in `inst_c0`. -/
def gint32 (x : BitVec 32) : BitVec 64 :=
  x.signExtend 64

/-- A `guint32` that is stored in `inst_c0`. -/
def guint32 (x : BitVec 32) : BitVec 64 :=
  x.setWidth 64

/-- A shift whose count is in the range of its left operand; what else comes out is not said. -/
def shifted (undef : BitVec 64) (bits count : Nat) (result : BitVec 64) : BitVec 64 :=
  if count < bits then result else undef

/-- `(gint32)a / (gint32)b` or `(gint32)a % (gint32)b`. The processor traps where there is no quotient. -/
def signedDivision (op : BitVec 32 → BitVec 32 → BitVec 32) (a b : BitVec 64) : Option (BitVec 64) :=
  if low b = 0 ∨ low a = minInt32 ∧ low b = -1 then none else some (gint32 (op (low a) (low b)))

/-- `(guint32)a / (guint32)b` or `(guint32)a % (guint32)b`. -/
def unsignedDivision (op : BitVec 32 → BitVec 32 → BitVec 32) (a b : BitVec 64) : Option (BitVec 64) :=
  if low b = 0 then none else some (guint32 (op (low a) (low b)))

/-- `FOLD_BINOP` and `FOLD_BINOPC`: two registers. `undef a b` is what comes out of a shift with a count out of range.
-/
def foldBinop (undef : BitVec 64 → BitVec 64 → BitVec 64) (a b : BitVec 64) : IntOp → Option (BitVec 64)
  | .imul => some (a * b)
  | .iadd => some (a + b)
  | .iand => some (a &&& b)
  | .ior => some (a ||| b)
  | .ixor => some (a ^^^ b)
  | .isub => some (a - b)
  | .ishl => some (shifted (undef a b) 64 b.toNat (a <<< b.toNat))
  | .ishr => some (shifted (undef a b) 64 b.toNat (a.sshiftRight b.toNat))
  | .ishrUn => some (shifted (undef a b) 32 (low b).toNat (guint32 (low a >>> (low b).toNat)))
  | .idiv => signedDivision BitVec.sdiv a b
  | .idivUn => unsignedDivision BitVec.udiv a b
  | .irem => signedDivision BitVec.srem a b
  | .iremUn => unsignedDivision BitVec.umod a b

/-- `FOLD_BINOP2_IMM` and `FOLD_BINOPC2_IMM`: a register and an immediate. The shifts are cast. -/
def foldBinopImm (undef : BitVec 64 → BitVec 64 → BitVec 64) (a imm : BitVec 64) : IntOp → Option (BitVec 64)
  | .ishl => some (shifted (undef a imm) 32 (low imm).toNat (gint32 (low a <<< (low imm).toNat)))
  | .ishr => some (shifted (undef a imm) 32 (low imm).toNat (gint32 ((low a).sshiftRight (low imm).toNat)))
  | op => foldBinop undef a imm op

/-- `(b == 0) || ((a == G_MININT32) && (b == -1))`, on eight bytes: the division is not done. -/
def NotDivided (a b : BitVec 64) : Prop :=
  b = 0 ∨ a = gint32 minInt32 ∧ b = -1

instance (a b : BitVec 64) : Decidable (NotDivided a b) :=
  inferInstanceAs (Decidable (_ ∨ _))

/-- The commutative operations. -/
def IntOp.isCommutative : IntOp → Bool
  | .imul | .iadd | .iand | .ior | .ixor => true
  | _ => false

/-- The divisions and remainders. -/
def IntOp.isDivision : IntOp → Bool
  | .idiv | .idivUn | .irem | .iremUn => true
  | _ => false

/-- `(cast)a op (cast)b` of a comparison that sets a register. -/
def SetCond.holds (x y : BitVec 32) : SetCond → Bool
  | .eq => x = y
  | .gt => y.slt x
  | .gtUn => y.ult x
  | .lt => x.slt y
  | .ltUn => x.ult y

/-- `(cast)a op (cast)b` of a comparison that branches. -/
def BranchCond.holds (x y : BitVec 32) : BranchCond → Bool
  | .eq => x = y
  | .neUn => x ≠ y
  | .gt => y.slt x
  | .gtUn => y.ult x
  | .ge => y.sle x
  | .geUn => y.ule x
  | .lt => x.slt y
  | .ltUn => x.ult y
  | .le => x.sle y
  | .leUn => x.ule y

/-- A `gboolean` that is stored in `inst_c0`. -/
def gboolean (res : Bool) : BitVec 64 :=
  if res then 1 else 0

/-! ### `mono_constant_fold_ins` -/

/-- What is returned, and what stands in the place of the instruction and of those behind it. -/
structure FoldResult where
  dest : Option MonoInst
  ins : MonoInst
  next : List MonoInst
  deriving DecidableEq, Repr

/-- `return NULL`. -/
def returnNull (ins : MonoInst) (next : List MonoInst) : FoldResult :=
  { dest := none, ins := ins, next := next }

/-- `break` without a change. -/
def returnDest (overwrite : Bool) (ins : MonoInst) (next : List MonoInst) : FoldResult :=
  { dest := if overwrite then some ins else none, ins := ins, next := next }

/-- Return the destination, which is the instruction itself if it is overwritten. -/
def returnStored (overwrite : Bool) (ins : MonoInst) (next : List MonoInst) (dest : MonoInst) : FoldResult :=
  { dest := some dest, ins := if overwrite then dest else ins, next := next }

/-- Store a constant into the destination. -/
def storeConst (overwrite : Bool) (ins : MonoInst) (next : List MonoInst) (c0 : BitVec 64) : FoldResult :=
  returnStored overwrite ins next
    { (allocDest overwrite ins).nullifySregs with opcode := .iconst, instC0 := c0 }

/-- `mono_op_to_op_imm`, as far as it is asked here. -/
def monoOpToOpImm : Opcode → Option Opcode
  | .reg op => some (.imm op)
  | .compare => some .compareImm
  | .icompare => some .icompareImm
  | _ => none

/-- Swap the arguments, so that the constant is the immediate. -/
def swapArgs (overwrite : Bool) (ins : MonoInst) (next : List MonoInst) (arg1 : MonoInst) : FoldResult :=
  match monoOpToOpImm ins.opcode with
  | some opcode =>
      returnStored overwrite ins next
        { allocDest overwrite ins with opcode := opcode, sreg1 := ins.sreg2, sreg2 := -1, instImm := arg1.instC0 }
  | none => returnDest overwrite ins next

/-- The cases for two registers. -/
def foldReg (undef : BitVec 64 → BitVec 64 → BitVec 64) (op : IntOp) (ins : MonoInst) (next : List MonoInst)
    (arg1 arg2 : MonoInst) (overwrite : Bool) : Option FoldResult :=
  if arg1.opcode = .iconst ∧ arg2.opcode = .iconst then
    if op.isDivision ∧ NotDivided arg1.instC0 arg2.instC0 then some (returnNull ins next)
    else (foldBinop undef arg1.instC0 arg2.instC0 op).map (storeConst overwrite ins next)
  else if op.isCommutative ∧ arg1.opcode = .iconst then some (swapArgs overwrite ins next arg1)
  else some (returnDest overwrite ins next)

/-- The cases for a register and an immediate. -/
def foldImm (undef : BitVec 64 → BitVec 64 → BitVec 64) (op : IntOp) (ins : MonoInst) (next : List MonoInst)
    (arg1 : MonoInst) (overwrite : Bool) : Option FoldResult :=
  if arg1.opcode = .iconst then
    if op.isDivision ∧ NotDivided arg1.instC0 ins.instImm then some (returnNull ins next)
    else (foldBinopImm undef arg1.instC0 ins.instImm op).map (storeConst overwrite ins next)
  else some (returnDest overwrite ins next)

/-- A comparison of two constants, with the instruction that asks for its result. -/
def foldCompare (ins : MonoInst) (next : List MonoInst) (a b : BitVec 64) (overwrite : Bool) : FoldResult :=
  match next with
  | [] => returnDest overwrite ins next
  | user :: rest =>
      match user.opcode with
      | .c cond | .ic cond =>
          let res := gboolean (cond.holds (low a) (low b))
          if overwrite then
            { dest := some ins.nullify
              ins := ins.nullify
              next := { user.nullifySregs with opcode := .iconst, instC0 := res } :: rest }
          else returnStored overwrite ins next { allocDest overwrite ins with opcode := .iconst, instC0 := res }
      | .ib cond =>
          let res := cond.holds (low a) (low b)
          if overwrite then
            { dest := some ins
              ins := ins
              next := (if res then { user with cfoldTaken := true } else { user with cfoldNotTaken := true }) :: rest }
          else returnStored overwrite ins next { allocDest overwrite ins with opcode := .iconst, instC0 := gboolean res }
      | .nop | .br =>
          if rest = [] ∧ overwrite then { dest := some ins.nullify, ins := ins.nullify, next := next }
          else returnDest overwrite ins next
      | _ => returnNull ins next

/-- `mono_constant_fold_ins`. The instructions behind `ins` are `next`, and `arg2` may be `NULL`. -/
def monoConstantFoldIns (undef : BitVec 64 → BitVec 64 → BitVec 64) (ins : MonoInst) (next : List MonoInst)
    (arg1 : MonoInst) (arg2 : Option MonoInst) (overwrite : Bool) : Option FoldResult :=
  match ins.opcode with
  | .reg op =>
      if op.isCommutative ∨ arg1.opcode = .iconst then
        arg2.bind fun arg2 => foldReg undef op ins next arg1 arg2 overwrite
      else some (returnDest overwrite ins next)
  | .imm op => foldImm undef op ins next arg1 overwrite
  | .shlImm =>
      if arg1.opcode = .iconst then
        some (storeConst overwrite ins next
          (shifted (undef arg1.instC0 ins.instImm) 64 ins.instImm.toNat (arg1.instC0 <<< ins.instImm.toNat)))
      else some (returnDest overwrite ins next)
  | .inot =>
      if arg1.opcode = .iconst then some (storeConst overwrite ins next (~~~ arg1.instC0))
      else some (returnDest overwrite ins next)
  | .ineg =>
      if arg1.opcode = .iconst then
        if (next.head?.map MonoInst.opcode) = some .adcImm then some (returnNull ins next)
        else some (storeConst overwrite ins next (-arg1.instC0))
      else some (returnDest overwrite ins next)
  | .move =>
      if arg1.opcode = .iconst ∨ arg1.opcode = .i8const then
        some (returnStored overwrite ins next
          { (allocDest overwrite ins).nullifySregs with opcode := arg1.opcode, instC0 := arg1.instC0 })
      else some (returnDest overwrite ins next)
  | .vmove =>
      if arg1.opcode = .vzero then
        some (returnStored overwrite ins next { allocDest overwrite ins with opcode := .vzero, sreg1 := -1 })
      else some (returnDest overwrite ins next)
  | .xmove =>
      if arg1.opcode = .xzero then
        some (returnStored overwrite ins next { allocDest overwrite ins with opcode := .xzero, sreg1 := -1 })
      else some (returnDest overwrite ins next)
  | .fmove =>
      if arg1.opcode = .r8const then
        some (returnStored overwrite ins next
          { allocDest overwrite ins with opcode := .r8const, sreg1 := -1, instC0 := arg1.instC0 })
      else some (returnDest overwrite ins next)
  | .compare | .icompare | .compareImm | .icompareImm =>
      if ins.sreg2 = -1 then
        if arg1.opcode = .iconst then some (foldCompare ins next arg1.instC0 ins.instImm overwrite)
        else some (returnDest overwrite ins next)
      else if arg1.opcode = .iconst then
        arg2.bind fun arg2 =>
          if arg2.opcode = .iconst then some (foldCompare ins next arg1.instC0 arg2.instC0 overwrite)
          else some (returnDest overwrite ins next)
      else some (returnDest overwrite ins next)
  | _ => some (returnNull ins next)

/-! ### Folding from left to right -/

/-- The instructions that define the registers, as far as they are known. -/
abbrev Defs := Int → Option MonoInst

/-- An instruction defines its register. -/
def Defs.define (defs : Defs) (ins : MonoInst) : Defs :=
  if ins.dreg = -1 then defs else Function.update defs ins.dreg (some ins)

/-- Fold one instruction, if what defines its registers is known. -/
def foldStep (undef : BitVec 64 → BitVec 64 → BitVec 64) (defs : Defs) (ins : MonoInst) (next : List MonoInst) :
    Option FoldResult :=
  match defs ins.sreg1 with
  | none => some (returnNull ins next)
  | some arg1 =>
      if ins.sreg2 = -1 then monoConstantFoldIns undef ins next arg1 none true
      else
        match defs ins.sreg2 with
        | none => some (returnNull ins next)
        | some arg2 => monoConstantFoldIns undef ins next arg1 (some arg2) true

/-- Fold the instructions one after the other; what is folded is handed on. The first argument counts the instructions
that are left. -/
def foldCode (undef : BitVec 64 → BitVec 64 → BitVec 64) : Nat → Defs → List MonoInst → Option (List MonoInst)
  | 0, _, _ => some []
  | _ + 1, _, [] => some []
  | left + 1, defs, ins :: next =>
      match foldStep undef defs ins next with
      | none => none
      | some result => (foldCode undef left (defs.define result.ins) result.next).map (result.ins :: ·)

/-! ### Run time -/

/-- What an instruction does at run time: it leaves a value in its register, decides a branch, does neither, or raises
an exception, after which nothing else is reached. `none` is a value that the CLI leaves open. -/
inductive Event where
  | value (v : Option (BitVec 32))
  | outcome (taken : Option Bool)
  | silent
  | raised
  | unreached
  deriving DecidableEq, Repr

/-- The CLI does not say what a shift by 32 or more leaves. -/
def cliShift (count : BitVec 32) (result : BitVec 32) : Event :=
  .value (if count.toNat < 32 then some result else none)

/-- A signed division raises `DivideByZeroException` or `OverflowException`. -/
def cliSignedDivision (x y result : BitVec 32) : Event :=
  if y = 0 ∨ x = minInt32 ∧ y = -1 then .raised else .value (some result)

/-- An unsigned division raises `DivideByZeroException`. -/
def cliUnsignedDivision (y result : BitVec 32) : Event :=
  if y = 0 then .raised else .value (some result)

/-- What a binary operation computes. -/
def IntOp.compute (x y : BitVec 32) : IntOp → Event
  | .imul => .value (some (x * y))
  | .iadd => .value (some (x + y))
  | .iand => .value (some (x &&& y))
  | .ior => .value (some (x ||| y))
  | .ixor => .value (some (x ^^^ y))
  | .isub => .value (some (x - y))
  | .ishl => cliShift y (x <<< y.toNat)
  | .ishr => cliShift y (x.sshiftRight y.toNat)
  | .ishrUn => cliShift y (x >>> y.toNat)
  | .idiv => cliSignedDivision x y (x.sdiv y)
  | .idivUn => cliUnsignedDivision y (x / y)
  | .irem => cliSignedDivision x y (x.srem y)
  | .iremUn => cliUnsignedDivision y (x % y)

/-- A binary operation on values that may be open. -/
def IntOp.computeOpen (op : IntOp) : Option (BitVec 32) → Option (BitVec 32) → Event
  | some x, some y => op.compute x y
  | _, _ => .value none

/-- The registers, and the operands of the last comparison. -/
structure Machine where
  regs : Int → Option (BitVec 32)
  flags : Option (BitVec 32 × BitVec 32)

/-- What an instruction does. -/
def Machine.event (m : Machine) (ins : MonoInst) : Event :=
  match ins.opcode with
  | .iconst => .value (some (low ins.instC0))
  | .move => .value (m.regs ins.sreg1)
  | .reg op => op.computeOpen (m.regs ins.sreg1) (m.regs ins.sreg2)
  | .imm op => op.computeOpen (m.regs ins.sreg1) (some (low ins.instImm))
  | .shlImm => IntOp.ishl.computeOpen (m.regs ins.sreg1) (some (low ins.instImm))
  | .inot => .value ((m.regs ins.sreg1).map (~~~ ·))
  | .ineg => .value ((m.regs ins.sreg1).map (- ·))
  | .ic cond => .value (m.flags.map fun (x, y) => if cond.holds x y then 1 else 0)
  | .ib cond => .outcome (m.flags.map fun (x, y) => cond.holds x y)
  | _ => .silent

/-- The operands of a comparison. -/
def compared : Option (BitVec 32) → Option (BitVec 32) → Option (BitVec 32 × BitVec 32)
  | some x, some y => some (x, y)
  | _, _ => none

/-- The machine after an instruction that raises no exception. -/
def Machine.after (m : Machine) (ins : MonoInst) : Option Machine :=
  match m.event ins with
  | .raised => none
  | .value v => some { m with regs := Function.update m.regs ins.dreg v }
  | _ =>
      match ins.opcode with
      | .icompare => some { m with flags := compared (m.regs ins.sreg1) (m.regs ins.sreg2) }
      | .icompareImm => some { m with flags := compared (m.regs ins.sreg1) (some (low ins.instImm)) }
      | _ => some m

/-- What the instructions of straight-line code do, from a machine, or after an exception. -/
def trace : Option Machine → List MonoInst → List Event
  | _, [] => []
  | none, _ :: next => .unreached :: trace none next
  | some m, ins :: next => m.event ins :: trace (m.after ins) next

/-- The `int` instructions, with the operands that they have. -/
def MonoInst.IsInt (ins : MonoInst) : Bool :=
  !ins.cfoldTaken && !ins.cfoldNotTaken &&
    match ins.opcode with
    | .iconst | .ic _ | .ib _ => ins.sreg1 = -1 && ins.sreg2 = -1
    | .reg _ | .icompare => ins.sreg1 ≠ -1 && ins.sreg2 ≠ -1
    | .imm _ | .shlImm | .inot | .ineg | .move | .icompareImm => ins.sreg1 ≠ -1 && ins.sreg2 = -1
    | _ => false

/-- An `int` instruction as the IR has it. -/
structure IntInst extends MonoInst where
  isInt : toMonoInst.IsInt = true

end MonoRuntime.ConstantFold
