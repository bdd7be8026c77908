/-
Module: MonoRuntime.Metadata.Opcodes
Purpose: The table `mono_opcodes` that `metadata/opcodes.c` builds from `cil/cil-opcodes.xml`, and the
  decoding of one instruction, `mono_opcode_value` and `mono_opcode_value_and_size`. Code is a list of
  bytes and an address is an offset into it.
Trusted boundary: human-reviewed translation of the source
Main exports: MonoOpcode
-/
import Mathlib.Algebra.Order.Ring.Int

namespace MonoRuntime.Il

/-- What follows an opcode. -/
inductive Argument where
  | inlineNone
  | inlineType
  | inlineField
  | inlineMethod
  | inlineTok
  | inlineString
  | inlineSig
  | inlineVar
  | shortInlineVar
  | inlineBrTarget
  | shortInlineBrTarget
  | inlineSwitch
  | inlineR
  | shortInlineR
  | inlineI
  | shortInlineI
  | inlineI8
deriving DecidableEq, Repr

/-- The flow types; `throw` and `break` of the table become `MONO_FLOW_ERROR`. -/
inductive FlowType where
  | next
  | branch
  | condBranch
  | error
  | call
  | ret
  | metaFlow
deriving DecidableEq, Repr

/-- An entry of the table, without the encoding of the opcode. -/
structure MonoOpcode where
  argument : Argument
  flowType : FlowType
deriving DecidableEq, Repr

/-- The table in runs of equal entries: the number of the first opcode of each run, and the entry. -/
def opcodeRuns : List (Nat × Argument × FlowType) :=
  [(0, .inlineNone, .next), (1, .inlineNone, .error), (2, .inlineNone, .next),
   (14, .shortInlineVar, .next), (20, .inlineNone, .next), (31, .shortInlineI, .next),
   (32, .inlineI, .next), (33, .inlineI8, .next), (34, .shortInlineR, .next), (35, .inlineR, .next),
   (36, .inlineNone, .next), (39, .inlineMethod, .call), (41, .inlineSig, .call),
   (42, .inlineNone, .ret), (43, .shortInlineBrTarget, .branch),
   (44, .shortInlineBrTarget, .condBranch), (56, .inlineBrTarget, .branch),
   (57, .inlineBrTarget, .condBranch), (69, .inlineSwitch, .condBranch), (70, .inlineNone, .next),
   (111, .inlineMethod, .call), (112, .inlineType, .next), (114, .inlineString, .next),
   (115, .inlineMethod, .call), (116, .inlineType, .next), (118, .inlineNone, .next),
   (121, .inlineType, .next), (122, .inlineNone, .error), (123, .inlineField, .next),
   (129, .inlineType, .next), (130, .inlineNone, .next), (140, .inlineType, .next),
   (142, .inlineNone, .next), (143, .inlineType, .next), (144, .inlineNone, .next),
   (163, .inlineType, .next), (166, .inlineNone, .next), (194, .inlineType, .next),
   (195, .inlineNone, .next), (198, .inlineType, .next), (199, .inlineNone, .next),
   (208, .inlineTok, .next), (209, .inlineNone, .next), (220, .inlineNone, .ret),
   (221, .inlineBrTarget, .branch), (222, .shortInlineBrTarget, .branch), (223, .inlineNone, .next),
   (248, .inlineNone, .metaFlow), (256, .inlineNone, .next), (262, .inlineMethod, .next),
   (264, .inlineNone, .next), (265, .inlineVar, .next), (271, .inlineNone, .next),
   (273, .inlineNone, .ret), (274, .shortInlineI, .metaFlow), (275, .inlineNone, .metaFlow),
   (277, .inlineType, .next), (278, .inlineType, .metaFlow), (279, .inlineNone, .next),
   (281, .shortInlineI, .next), (282, .inlineNone, .error), (283, .inlineNone, .next),
   (284, .inlineType, .next), (285, .inlineNone, .next), (286, .inlineNone, .metaFlow),
   (287, .inlineNone, .next), (291, .inlineNone, .metaFlow), (293, .shortInlineI, .next),
   (294, .inlineNone, .next), (295, .inlineI, .next), (296, .inlineNone, .next),
   (297, .inlineType, .next), (298, .inlineType, .ret), (300, .inlineType, .next),
   (302, .inlineNone, .next), (304, .inlineI, .next), (305, .inlineNone, .next), (306, .inlineI, .next)]

/-- `mono_opcodes`. -/
def monoOpcodes (value : Nat) : MonoOpcode :=
  match (opcodeRuns.takeWhile fun run => run.1 ≤ value).getLast? with
  | some (_, argument, flowType) => ⟨argument, flowType⟩
  | none => ⟨.inlineNone, .next⟩

def monoCeeJmp : Nat := 39
def monoCeeRet : Nat := 42
def monoCeeThrow : Nat := 122
def monoCeeEndfinally : Nat := 220
def monoCeeRethrow : Nat := 282
def monoCeeLast : Nat := 309

/-- `MONO_CEE_ARGLIST`, the first opcode behind the prefix `0xfe`. -/
def monoPrefix1Offset : Nat := 256

/-- `MONO_CEE_MONO_ICALL`, the first opcode behind `MONO_CUSTOM_PREFIX`. -/
def monoCustomPrefixOffset : Nat := 293

/-- A byte of the code. -/
def read8 (code : List (BitVec 8)) (ip : Nat) : BitVec 8 :=
  code.getD ip 0

/-- `read32`: four bytes of the code, the low one first. -/
def read32 (code : List (BitVec 8)) (ip : Nat) : BitVec 32 :=
  read8 code (ip + 3) ++ read8 code (ip + 2) ++ read8 code (ip + 1) ++ read8 code ip

/-- `mono_opcode_value`: the address of the last byte of the opcode, and its number. -/
def monoOpcodeValue (code : List (BitVec 8)) (ip : Nat) : Nat × Option Nat :=
  if ip ≥ code.length then (ip, none)
  else if read8 code ip = 0xfe then
    if ip + 1 ≥ code.length then (ip, none)
    else (ip + 1, some ((read8 code (ip + 1)).toNat + monoPrefix1Offset))
  else if read8 code ip = 0xf0 then
    if ip + 1 ≥ code.length then (ip, none)
    else (ip + 1, some ((read8 code (ip + 1)).toNat + monoCustomPrefixOffset))
  else (ip, some (read8 code ip).toNat)

/-- The size of an instruction from the last byte of its opcode on, as `mono_opcode_value_and_size` counts
it; `none` is an error. -/
def argumentSize (code : List (BitVec 8)) (ip : Nat) : Argument → Option Nat
  | .inlineNone => some 1
  | .inlineString | .inlineType | .inlineField | .inlineMethod | .inlineTok | .inlineSig
  | .shortInlineR | .inlineI | .inlineBrTarget => some 5
  | .inlineVar => some 3
  | .shortInlineVar | .shortInlineI | .shortInlineBrTarget => some 2
  | .inlineR | .inlineI8 => some 9
  | .inlineSwitch =>
      if ip + 5 > code.length then none
      else
        let entries := (read32 code (ip + 1)).toNat
        if entries ≥ 0xFFFFFFFF / 4 then none
        else some (4 + 4 * entries)

/-- `mono_opcode_value_and_size`: the address of the last byte of the opcode, and the number of the opcode
if the instruction fits. -/
def monoOpcodeValueAndSize (code : List (BitVec 8)) (ip : Nat) : Nat × Option (Nat × Nat) :=
  let (p, value) := monoOpcodeValue code ip
  match value with
  | none => (p, none)
  | some value =>
      if value ≥ monoCeeLast then (p, none)
      else
        match argumentSize code p (monoOpcodes value).argument with
        | none => (p, none)
        | some size => if p + size > code.length then (p, none) else (p, some (value, p - ip + size))

theorem inlineNone_of_prefixed {value : Nat} (isPrefixed : 256 ≤ value) (isOpcode : value < monoCeeLast) :
    (monoOpcodes value).argument ≠ .inlineBrTarget ∧ (monoOpcodes value).argument ≠ .shortInlineBrTarget ∧
      (monoOpcodes value).argument ≠ .inlineSwitch := by
  have all : ∀ k < 53, (monoOpcodes (256 + k)).argument ≠ .inlineBrTarget ∧
      (monoOpcodes (256 + k)).argument ≠ .shortInlineBrTarget ∧
      (monoOpcodes (256 + k)).argument ≠ .inlineSwitch := by decide
  have bound : value - 256 < 53 := by
    simp only [monoCeeLast] at isOpcode
    omega
  have here := all (value - 256) bound
  rwa [Nat.add_sub_cancel' isPrefixed] at here

end MonoRuntime.Il
