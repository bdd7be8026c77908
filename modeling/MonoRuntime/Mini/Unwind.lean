/-
Module: MonoRuntime.Mini.Unwind
Purpose: The stack unwinding interface of `mini/unwind.c`: the per-target DWARF register tables, the
  encoder `mono_unwind_ops_encode`, which packs a list of unwind ops into call frame instructions, and
  the interpreter `mono_unwind_frame`, which runs such instructions up to an instruction offset.
  An assertion that fails aborts the process and is the result `none`, as are reads outside an array.
Trusted boundary: human-reviewed translation of the source
Main exports: DwarfTarget
-/
import MonoRuntime.Lib.Leb128

namespace MonoRuntime.Unwind

open Leb128

/-! ### Targets -/

/-- The constants `unwind.c` selects by target. `specialReg` is a hardware register that is tested before
the table is read (`ppc_lr` under `TARGET_POWERPC`), with its DWARF number. -/
structure DwarfTarget where
  mapHwRegToDwarfReg : List Nat
  specialReg : Option (Nat × Nat)
  numRegs : Nat
  dwarfDataAlign : Int
  bigEndian : Bool
  map_nodup : mapHwRegToDwarfReg.Nodup
  map_lt : ∀ d ∈ mapHwRegToDwarfReg, d < numRegs
  special_fresh : ∀ special ∈ specialReg,
    mapHwRegToDwarfReg.length ≤ special.1 ∧ special.2 < numRegs ∧
      special.2 ∉ mapHwRegToDwarfReg
  numRegs_lt : numRegs < 2 ^ 31
  dwarfDataAlign_neg : dwarfDataAlign < 0

/-- `TARGET_AMD64`; `NUM_REGS` counts `rip`. -/
def amd64 : DwarfTarget where
  mapHwRegToDwarfReg := [0, 2, 1, 3, 7, 6, 4, 5, 8, 9, 10, 11, 12, 13, 14, 15, 16]
  specialReg := none
  numRegs := 17
  dwarfDataAlign := -8
  bigEndian := false
  map_nodup := by decide
  map_lt := by decide
  special_fresh := by simp
  numRegs_lt := by decide
  dwarfDataAlign_neg := by decide

/-- `TARGET_POWERPC` with pointers of 4 bytes. The table has 32 entries although `NUM_REGS` is 110, and
`ppc_lr` is number 256 in the hardware encoding. -/
def powerpc : DwarfTarget where
  mapHwRegToDwarfReg := List.range 32
  specialReg := some (256, 108)
  numRegs := 110
  dwarfDataAlign := -4
  bigEndian := true
  map_nodup := by decide
  map_lt := by decide
  special_fresh := by decide
  numRegs_lt := by decide
  dwarfDataAlign_neg := by decide

/-- No target of the source: a complete table that reaches beyond register 63. -/
def wideTarget : DwarfTarget where
  mapHwRegToDwarfReg := List.range 65
  specialReg := none
  numRegs := 65
  dwarfDataAlign := -8
  bigEndian := false
  map_nodup := List.nodup_range
  map_lt := fun _ member => List.mem_range.mp member
  special_fresh := by
    intro _ member
    cases member
  numRegs_lt := by decide
  dwarfDataAlign_neg := by decide

/-- Map the hardware register number `reg` to the register number used by DWARF. -/
def monoHwRegToDwarfReg (t : DwarfTarget) (reg : Nat) : Option Nat :=
  match t.specialReg with
  | some (hw, dwarf) => if reg = hw then some dwarf else t.mapHwRegToDwarfReg[reg]?
  | none => t.mapHwRegToDwarfReg[reg]?

/-- The assertion of `init_reg_map`: the table has `NUM_REGS` entries. -/
def DwarfTarget.TableComplete (t : DwarfTarget) : Prop :=
  t.mapHwRegToDwarfReg.length = t.numRegs

instance (t : DwarfTarget) : Decidable t.TableComplete :=
  inferInstanceAs (Decidable (_ = _))

/-- Fill the inverse table, entry by entry. -/
def initRegMap (t : DwarfTarget) : Option (List Nat) :=
  if t.TableComplete then
    (List.range t.numRegs).foldlM
      (fun table i => do
        let dwarf ← monoHwRegToDwarfReg t i
        pure (table.set dwarf i))
      (List.replicate t.numRegs 0)
  else none

/-- Map a DWARF register number back, through the table that is built on first use. -/
def monoDwarfRegToHwReg (t : DwarfTarget) (reg : Nat) : Option Nat := do
  let table ← initRegMap t
  table[reg]?

/-! ### Unwind ops -/

/-- The call frame instructions `unwind.h` has macros for. -/
inductive DwCfa where
  | defCfa
  | defCfaRegister
  | defCfaOffset
  | offset
  | sameValue
deriving DecidableEq, Repr

/-- Represents one unwind instruction. `reg` is in the hardware encoding; `when` is the offset after the
cpu instruction the op belongs to. -/
structure MonoUnwindOp where
  op : DwCfa
  reg : BitVec 16
  val : BitVec 32
  when : BitVec 32
deriving DecidableEq, Repr

/-- `DW_CFA_advance_loc | delta`. -/
def advanceByte (delta : Nat) : Byte :=
  0x40 ||| BitVec.ofNat 8 delta

/-- Emit an advance_loc if necessary: the inner loop of the encoder, with the location it ends at. Every
round moves the location, so `fuel` rounds are enough when `fuel` is the distance to go. -/
def emitAdvanceLoc : (fuel when loc : Nat) → List Byte × Nat
  | 0, _, loc => ([], loc)
  | fuel + 1, when, loc =>
      if loc < when then
        if when - loc < 32 then ([advanceByte (when - loc)], when)
        else
          let rest := emitAdvanceLoc fuel when (loc + 30)
          (advanceByte 30 :: rest.1, rest.2)
      else ([], loc)

/-- The switch of the encoder; `reg` is the DWARF number of the op's register. -/
def encodeUnwindOp (t : DwarfTarget) (op : MonoUnwindOp) (reg : Nat) : Option (List Byte) :=
  match op.op with
  | .defCfa =>
      some (0x0c :: (encodeUnsigned (BitVec.ofNat 32 reg) ++ encodeUnsigned op.val))
  | .defCfaOffset => some (0x0e :: encodeUnsigned op.val)
  | .defCfaRegister => some (0x0d :: encodeUnsigned (BitVec.ofNat 32 reg))
  | .offset =>
      let factored := BitVec.ofInt 32 (op.val.toInt.tdiv t.dwarfDataAlign)
      if 63 < reg then
        some (0x11 :: (encodeUnsigned (BitVec.ofNat 32 reg) ++ encodeSigned factored))
      else some ((0x80 ||| BitVec.ofNat 8 reg) :: encodeUnsigned factored)
  | .sameValue => none

/-- The loop of the encoder, from location `loc` on. -/
def encodeUnwindOps (t : DwarfTarget) : Nat → List MonoUnwindOp → Option (List Byte)
  | _, [] => some []
  | loc, op :: l => do
      let reg ← monoHwRegToDwarfReg t op.reg.toNat
      let advance := emitAdvanceLoc (op.when.toNat - loc) op.when.toNat loc
      let body ← encodeUnwindOp t op reg
      let rest ← encodeUnwindOps t advance.2 l
      pure (advance.1 ++ (body ++ rest))

/-- Encode the unwind ops into the compact DWARF encoding. The buffer has 4096 bytes. -/
def monoUnwindOpsEncode (t : DwarfTarget) (unwindOps : List MonoUnwindOp) : Option (List Byte) := do
  let buf ← encodeUnwindOps t 0 unwindOps
  if buf.length < 4096 then some buf else none

/-! ### The frame interpreter -/

/-- What the interpreter knows of the frame: how the CFA is computed and, for every register, the offset
from the CFA it is saved at (`none` for `LOC_SAME`). -/
structure FrameState where
  cfaReg : Int
  cfaOffset : BitVec 32
  locations : Nat → Option (BitVec 32)

/-- No CFA and every register in place. -/
def FrameState.init : FrameState :=
  { cfaReg := -1, cfaOffset := -1, locations := fun _ => none }

/-- `*(guint32*)p`, in the byte order of the target. -/
def read32 (t : DwarfTarget) : List Byte → Option (BitVec 32 × List Byte)
  | b0 :: b1 :: b2 :: b3 :: p =>
      some (if t.bigEndian then b0 ++ b1 ++ b2 ++ b3 else b3 ++ b2 ++ b1 ++ b0, p)
  | _ => none

/-- The instructions whose opcode is a whole byte. -/
def execExtended (t : DwarfTarget) (extOp : Byte) (p : List Byte) (pos : Int) (st : FrameState) :
    Option (List Byte × Int × FrameState) :=
  match extOp.toNat with
  | 0x0c => do
      let (reg, p) ← decodeUnsigned 32 p
      let cfaReg ← monoDwarfRegToHwReg t reg.toNat
      let (cfaOffset, p) ← decodeUnsigned 32 p
      pure (p, pos, { st with cfaReg := cfaReg, cfaOffset := cfaOffset })
  | 0x0e => do
      let (cfaOffset, p) ← decodeUnsigned 32 p
      pure (p, pos, { st with cfaOffset := cfaOffset })
  | 0x0d => do
      let (reg, p) ← decodeUnsigned 32 p
      let cfaReg ← monoDwarfRegToHwReg t reg.toNat
      pure (p, pos, { st with cfaReg := cfaReg })
  | 0x11 => do
      -- The source assigns `reg` and `offset` here and stores neither in `locations`.
      let (reg, p) ← decodeUnsigned 32 p
      let _reg ← monoDwarfRegToHwReg t reg.toNat
      let (_offset, p) ← decodeSigned 32 p
      pure (p, pos, st)
  | 0x04 => do
      let (delta, p) ← read32 t p
      pure (p, (pos + delta.toInt).bmod (2 ^ 32), st)
  | _ => none

/-- One round of the interpreter on the instruction that starts with `b`. -/
def execUnwindOp (t : DwarfTarget) (b : Byte) (p : List Byte) (pos : Int) (st : FrameState) :
    Option (List Byte × Int × FrameState) :=
  match (b &&& 0xc0).toNat with
  | 0x40 => some (p, (pos + (b &&& 0x3f).toNat).bmod (2 ^ 32), st)
  | 0x80 => do
      let reg ← monoDwarfRegToHwReg t (b &&& 0x3f).toNat
      let (value, p) ← decodeUnsigned 32 p
      let offset := value * BitVec.ofInt 32 t.dwarfDataAlign
      pure (p, pos, { st with locations := Function.update st.locations reg (some offset) })
  | 0x00 => execExtended t b p pos st
  | _ => none

/-- Run instructions while the location is not past `limit`. Every round consumes a byte. -/
def unwindLoop (t : DwarfTarget) (limit : Nat) :
    (fuel : Nat) → List Byte → Int → FrameState → Option FrameState
  | 0, _, _, _ => none
  | fuel + 1, p, pos, st =>
      if pos ≤ limit then
        match p with
        | [] => some st
        | b :: p => do
            let (p, pos, st) ← execUnwindOp t b p pos st
            unwindLoop t limit fuel p pos st
      else some st

/-- Execute the unwind operations until the location counter passes `offset` (`ip - start_ip`). -/
def unwindState (t : DwarfTarget) (unwindInfo : List Byte) (offset : Nat) : Option FrameState :=
  unwindLoop t offset (unwindInfo.length + 1) unwindInfo 0 FrameState.init

/-- Load the saved registers from the stack. -/
def FrameState.loadRegs {w : Nat} (st : FrameState) (cfaVal : BitVec w) (regs : List (BitVec w))
    (mem : BitVec w → BitVec w) : List (BitVec w) :=
  regs.mapIdx fun i reg =>
    match st.locations i with
    | none => reg
    | some offset => mem (cfaVal + BitVec.ofInt w offset.toInt)

/-- Compute the CFA and load the saved registers. -/
def FrameState.restore {w : Nat} (st : FrameState) (regs : List (BitVec w))
    (mem : BitVec w → BitVec w) : Option (BitVec w × List (BitVec w)) := do
  let base ← if 0 ≤ st.cfaReg then regs[st.cfaReg.toNat]? else none
  let cfaVal := base + BitVec.ofInt w st.cfaOffset.toInt
  pure (cfaVal, st.loadRegs cfaVal regs mem)

/-- The state of the current frame is in `regs`; the result is the CFA and the registers of the caller. -/
def monoUnwindFrame {w : Nat} (t : DwarfTarget) (unwindInfo : List Byte) (offset : Nat)
    (regs : List (BitVec w)) (mem : BitVec w → BitVec w) :
    Option (BitVec w × List (BitVec w)) := do
  let st ← if regs.length ≤ t.numRegs then unwindState t unwindInfo offset else none
  st.restore regs mem

/-! ### Direct interpretation -/

/-- What an op says about the frame, without any encoding. -/
def MonoUnwindOp.apply (st : FrameState) (op : MonoUnwindOp) : FrameState :=
  match op.op with
  | .defCfa => { st with cfaReg := op.reg.toNat, cfaOffset := op.val }
  | .defCfaOffset => { st with cfaOffset := op.val }
  | .defCfaRegister => { st with cfaReg := op.reg.toNat }
  | .offset => { st with locations := Function.update st.locations op.reg.toNat (some op.val) }
  | .sameValue => { st with locations := Function.update st.locations op.reg.toNat none }

/-- The ops that have taken effect at instruction offset `offset`. -/
def executedOps (ops : List MonoUnwindOp) (offset : Nat) : List MonoUnwindOp :=
  ops.filter fun op => op.when.toNat ≤ offset

/-- The frame at instruction offset `offset`, read off the ops directly and in order. -/
def interpretUnwindOps (ops : List MonoUnwindOp) (offset : Nat) : FrameState :=
  (executedOps ops offset).foldl MonoUnwindOp.apply FrameState.init

/-- Two states describe the same CFA and the same saved registers among the first `nregs`. -/
def FrameState.SameFrame (nregs : Nat) (st other : FrameState) : Prop :=
  st.cfaReg = other.cfaReg ∧ st.cfaOffset = other.cfaOffset ∧
    ∀ reg < nregs, st.locations reg = other.locations reg

end MonoRuntime.Unwind
