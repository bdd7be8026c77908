/-
Module: MonoRuntime.Metadata.IlControlFlow
Purpose: The control flow of IL code, as the purpose of the basic blocks needs it: the instructions one
  after the other, where control goes from each, and what is reachable from the entries of a method. The
  edges that `bb_formation_il_pass` attaches to the wrong block are described here too.
Trusted boundary: human-reviewed statement of the IL control flow
Main exports: decodeIl
-/
import MonoRuntime.Metadata.BasicBlockFormation

namespace MonoRuntime.Il

open BasicBlock

/-- The instruction at an address: the address of the last byte of its opcode, and the opcode. -/
def decodeIl (code : List (BitVec 8)) (p : Nat) : Option (Nat × Nat) :=
  match monoOpcodeValueAndSize code p with
  | (ip, some (value, _)) => some (ip, value)
  | (_, none) => none

/-- The length of an instruction from the last byte of its opcode on. -/
def argumentLength (code : List (BitVec 8)) (ip : Nat) : Argument → Nat
  | .inlineNone => 1
  | .inlineString | .inlineType | .inlineField | .inlineMethod | .inlineTok | .inlineSig
  | .shortInlineR | .inlineI | .inlineBrTarget => 5
  | .inlineVar => 3
  | .shortInlineVar | .shortInlineI | .shortInlineBrTarget => 2
  | .inlineR | .inlineI8 => 9
  | .inlineSwitch => 5 + 4 * (read32 code (ip + 1)).toNat

/-- The address behind an instruction. -/
def insEnd (code : List (BitVec 8)) (ip value : Nat) : Nat :=
  ip + argumentLength code ip (monoOpcodes value).argument

/-- The targets of a branch or a switch at `p`; they count from the address behind it. -/
def targets (code : List (BitVec 8)) (p ip value : Nat) : List (BitVec 32) :=
  match (monoOpcodes value).argument with
  | .shortInlineBrTarget => [BitVec.ofNat 32 (p + 2) + (read8 code (ip + 1)).signExtend 32]
  | .inlineBrTarget => [BitVec.ofNat 32 (p + 5) + read32 code (ip + 1)]
  | .inlineSwitch =>
      (List.range (read32 code (ip + 1)).toNat).map fun j =>
        BitVec.ofNat 32 (p + 5) + 4 * read32 code (ip + 1) + read32 code (ip + 5 + 4 * j)
  | _ => []

/-- `endfilter`, which gives control to the exception handling. -/
def monoCeeEndfilter : Nat := 273

/-- An unconditional branch or a `leave`. -/
def IsJump (value : Nat) : Prop :=
  ((monoOpcodes value).argument = .shortInlineBrTarget ∨ (monoOpcodes value).argument = .inlineBrTarget) ∧
    (monoOpcodes value).flowType = .branch

/-- Control may go on behind the instruction. -/
def FallsThrough (value : Nat) : Prop :=
  monoOpcodeHasStaticBranch value = false ∧ value ≠ monoCeeEndfilter ∧ value ≠ monoCeeJmp ∧ ¬ IsJump value

/-- The addresses that a scan from 0 comes to. -/
inductive ScanPos (code : List (BitVec 8)) : Nat → Prop where
  | first : ScanPos code 0
  | next {p ip value : Nat} (before : ScanPos code p) (inside : p < code.length)
      (decoded : decodeIl code p = some (ip, value)) : ScanPos code (insEnd code ip value)

/-- An instruction of the code, with the last byte of its opcode and the opcode. -/
structure IsIns (code : List (BitVec 8)) (p ip value : Nat) : Prop where
  pos : ScanPos code p
  inside : p < code.length
  decoded : decodeIl code p = some (ip, value)

/-- The offsets of a clause at which control must not run into or out of a handler: the end of the try
block, and the start and the end of the handler and of the filter. -/
def clauseCuts (clause : MonoExceptionClause) : List (BitVec 32) :=
  [clause.handlerOffset, clause.tryOffset + clause.tryLen, clause.handlerOffset + clause.handlerLen] ++
    if clause.flags = monoExceptionClauseFilter then [clause.filterOffset] else []

/-- The start of the handler and of the filter. -/
def clauseEntries (clause : MonoExceptionClause) : List (BitVec 32) :=
  clause.handlerOffset ::
    if clause.flags = monoExceptionClauseFilter then [clause.filterOffset] else []

/-- The instruction that reaches up to the cut ends there, and control does not go on behind it. -/
def CutsFlow (code : List (BitVec 8)) (cut : Nat) : Prop :=
  ∀ p ip value, IsIns code p ip value → p < cut → cut ≤ insEnd code ip value →
    insEnd code ip value = cut ∧ ¬ FallsThrough value

/-- The clauses cut the code where control does not pass. -/
def ClausesCutFlow (header : MonoMethodHeader) : Prop :=
  ∀ clause ∈ header.clauses, ∀ cut ∈ clauseCuts clause, CutsFlow header.code cut.toNat

/-- Control can go from the instruction at `p` to `q`. -/
inductive IlEdge (code : List (BitVec 8)) (p : Nat) : Nat → Prop where
  | fall {ip value : Nat} (ins : IsIns code p ip value) (falls : FallsThrough value)
      (inside : insEnd code ip value < code.length) : IlEdge code p (insEnd code ip value)
  | target {ip value j : Nat} {t : BitVec 32} (ins : IsIns code p ip value)
      (isTarget : (targets code p ip value)[j]? = some t) : IlEdge code p t.toNat

/-- Reachable from the start of the method or of a handler or filter, by some of the edges. -/
inductive Reachable (header : MonoMethodHeader) (edge : Nat → Nat → Prop) : Nat → Prop where
  | start : Reachable header edge 0
  | entry {clause : MonoExceptionClause} {offset : BitVec 32} (isClause : clause ∈ header.clauses)
      (isEntry : offset ∈ clauseEntries clause) : Reachable header edge offset.toNat
  | step {p q : Nat} (before : Reachable header edge p) (isEdge : edge p q) : Reachable header edge q

/-- Reachable by IL control flow. -/
def IlReachable (header : MonoMethodHeader) : Nat → Prop :=
  Reachable header (IlEdge header.code)

/-! ### Edges that are attached to the wrong block -/

/-- The instructions behind which a block ends: branches, switches, and those that control does not leave
downwards. -/
def EndsBlock (value : Nat) : Prop :=
  monoOpcodeHasStaticBranch value = true ∨ value = monoCeeJmp ∨
    (monoOpcodes value).argument = .shortInlineBrTarget ∨
    (monoOpcodes value).argument = .inlineBrTarget ∨ (monoOpcodes value).argument = .inlineSwitch

/-- A block starts at `b` when the scan comes to `p`. -/
inductive Boundary (code : List (BitVec 8)) (p : Nat) : Nat → Prop where
  | start : Boundary code p 0
  | behind {p' ip value : Nat} (ins : IsIns code p' ip value) (before : p' < p) (ends : EndsBlock value) :
      Boundary code p (insEnd code ip value)
  | target {p' ip value : Nat} {t : BitVec 32} (ins : IsIns code p' ip value) (before : p' < p)
      (isTarget : t ∈ targets code p' ip value) : Boundary code p t.toNat

/-- The `i`-th target of the switch at `p` splits the block of the switch, so that the switch is in the
second part: no block starts between the target and the switch. -/
def SplitsOwnBlock (code : List (BitVec 8)) (p ip value i : Nat) : Prop :=
  (monoOpcodes value).argument = .inlineSwitch ∧
    ∃ t, (targets code p ip value)[i]? = some t ∧ t.toNat ≤ p ∧
      ∀ b, t.toNat ≤ b → b ≤ p →
        ¬ (Boundary code p b ∨ ∃ k < i, ∃ t', (targets code p ip value)[k]? = some t' ∧ t'.toNat = b)

/-- An edge that `bb_formation_il_pass` attaches to the block of its instruction: not that of a switch to a
target from the first one on that splits the block of the switch. -/
inductive KeptEdge (code : List (BitVec 8)) (p : Nat) : Nat → Prop where
  | fall {ip value : Nat} (ins : IsIns code p ip value) (falls : FallsThrough value)
      (inside : insEnd code ip value < code.length) : KeptEdge code p (insEnd code ip value)
  | target {ip value j : Nat} {t : BitVec 32} (ins : IsIns code p ip value)
      (isTarget : (targets code p ip value)[j]? = some t)
      (kept : ∀ i ≤ j, ¬ SplitsOwnBlock code p ip value i) : KeptEdge code p t.toNat

/-- Everything reachable is reachable without the edges that are attached to the wrong block. -/
def LostEdgesHarmless (header : MonoMethodHeader) : Prop :=
  ∀ q, IlReachable header q → Reachable header (KeptEdge header.code) q

end MonoRuntime.Il
