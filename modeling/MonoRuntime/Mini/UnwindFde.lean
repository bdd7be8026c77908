/-
Module: MonoRuntime.Mini.UnwindFde
Purpose: `mono_unwind_get_ops_from_fde`, which copies the unwind ops of a frame description entry and of the common
  information entry it belongs to. Memory is the bytes from some address on, and addresses are places in it; an assertion that
  fails, and a byte that is not there, is the result `none`.
Trusted boundary: human-reviewed translation of the source
Main exports: decodeCieOp
-/
import MonoRuntime.Mini.Unwind

namespace MonoRuntime.Unwind

open Leb128

/-! ### The scan -/

/-- `DW_CFA_nop`. -/
def dwCfaNop : Byte := 0

/-- The ops whose opcode is a whole byte: the bytes behind them. -/
def decodeCieExtOp (extOp : Byte) (p : List Byte) : Option (List Byte) :=
  match extOp.toNat with
  | 0x0c => do
      let (_, p) ← decodeUnsigned 32 p
      let (_, p) ← decodeUnsigned 32 p
      pure p
  | 0x0e => do
      let (_, p) ← decodeUnsigned 32 p
      pure p
  | 0x0d => do
      let (_, p) ← decodeUnsigned 32 p
      pure p
  | 0x04 => if 4 ≤ p.length then some (p.drop 4) else none
  | _ => none

/-- `decode_cie_op`: the bytes behind the op that starts with `b`. -/
def decodeCieOp (b : Byte) (p : List Byte) : Option (List Byte) :=
  match (b &&& 0xc0).toNat with
  | 0x40 => some p
  | 0x80 => do
      let (_, p) ← decodeUnsigned 32 p
      pure p
  | 0x00 => decodeCieExtOp b p
  | _ => none

/-- The loop over the ops, with the bytes that are left up to the end. Every round consumes a byte. -/
def scanOps : (fuel : Nat) → (p : List Byte) → (left : Int) → Option (List Byte)
  | 0, _, _ => none
  | fuel + 1, p, left =>
    if 0 < left then
      match p with
      | [] => none
      | b :: q =>
        if b = dwCfaNop then some p
        else do
          let p' ← decodeCieOp b q
          scanOps fuel p' (left - (p.length - p'.length))
    else some p

/-- The bytes that are copied: those the scan has gone over. -/
def copiedOps (cfi : List Byte) (len : Int) : Option (List Byte) := do
  let p ← scanOps (len.toNat + 1) cfi len
  pure (cfi.take (cfi.length - p.length))

/-! ### The entries -/

/-- What the function takes from the entries: where the ops of the common entry and those of the frame entry start, how many
bytes there are up to the ends of the entries, and the length of the code. -/
structure FdeHeader where
  cieCfi : List Byte
  cieLeft : Int
  fdeCfi : List Byte
  fdeLeft : Int
  codeLen : BitVec 32
  deriving DecidableEq, Repr

/-- The string at the start of the augmentation, and the bytes behind its end. -/
def augmentation : List Byte → Option (List Byte × List Byte)
  | [] => none
  | b :: p => if b = 0 then some ([], p) else (augmentation p).map fun (s, q) => (b :: s, q)

local instance lawfulBytes : LawfulBEq Byte := inferInstance

/-- The two headers. `pcReg` is `DWARF_PC_REG`, and lengths are `gint32`. -/
def decodeFdeHeader (t : DwarfTarget) (pcReg : Nat) (memory : List Byte) (fde : Nat) : Option FdeHeader := do
  let (fdeLen, p) ← read32 t (memory.drop fde)
  guard (fdeLen ≠ 0xffffffff ∧ fdeLen ≠ 0)
  let (cieOffset, p) ← read32 t p
  let cie : Int := fde + 4 - cieOffset.toInt
  let (_pcBegin, p) ← read32 t p
  let (pcRange, p) ← read32 t p
  let (augLen, p) ← decodeUnsigned 32 p
  guard (augLen = 0)
  let fdeCfi := p
  guard (0 ≤ cie)
  let (cieLen, p) ← read32 t (memory.drop cie.toNat)
  let (cieId, p) ← read32 t p
  guard (cieId = 0)
  let (cieVersion, p) ← p.head?.map (·, p.tail)
  guard (cieVersion = 1)
  let (cieAugStr, p) ← augmentation p
  let (codeAlign, p) ← decodeUnsigned 32 p
  let (dataAlign, p) ← decodeSigned 32 p
  let (returnReg, p) ← decodeUnsigned 32 p
  let cieCfi ←
    if 0x7a ∈ cieAugStr then do
      let (cieAugLen, p) ← decodeUnsigned 32 p
      let place : Int := memory.length - p.length + cieAugLen.toInt
      guard (0 ≤ place)
      pure (memory.drop place.toNat)
    else pure p
  guard (codeAlign = 1)
  guard (dataAlign.toInt = t.dwarfDataAlign)
  guard (returnReg.toNat = pcReg)
  pure
    { cieCfi := cieCfi
      cieLeft := cie + cieLen.toInt + 4 - (memory.length - cieCfi.length)
      fdeCfi := fdeCfi
      fdeLeft := fde + 4 + fdeLen.toInt - (memory.length - fdeCfi.length)
      codeLen := pcRange }

/-- `mono_unwind_get_ops_from_fde`: the ops, and the length of the code. What is copied has to fit the buffer. -/
def monoUnwindGetOpsFromFde (t : DwarfTarget) (pcReg : Nat) (memory : List Byte) (fde : Nat) :
    Option (List Byte × BitVec 32) := do
  let header ← decodeFdeHeader t pcReg memory fde
  let bufLen := header.cieLeft + header.fdeLeft
  let cieOps ← copiedOps header.cieCfi header.cieLeft
  let fdeOps ← copiedOps header.fdeCfi header.fdeLeft
  guard (((cieOps ++ fdeOps).length : Int) ≤ bufLen)
  pure (cieOps ++ fdeOps, header.codeLen)

end MonoRuntime.Unwind
