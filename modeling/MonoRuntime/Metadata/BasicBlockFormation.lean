/-
Module: MonoRuntime.Metadata.BasicBlockFormation
Purpose: The rest of `metadata/mono-basic-block.c`: the pass over the IL that splits blocks at branch
  targets and links them, the pass over the exception clauses, and the marking of the live blocks. All of
  them change the heap of blocks; an error of `mono_error_set_not_verifiable` ends the computation, and a
  failed assertion or a `NULL` dereference is a stuck computation.
Trusted boundary: human-reviewed translation of the source
Main exports: MonoMethodHeader
-/
import MonoRuntime.Metadata.BasicBlock
import MonoRuntime.Metadata.Opcodes
import MonoRuntime.Lib.Fallible

namespace MonoRuntime.BasicBlock

open Il

/-- An exception clause; `filterOffset` is `data.filter_offset`. -/
structure MonoExceptionClause where
  flags : BitVec 32
  tryOffset : BitVec 32
  tryLen : BitVec 32
  handlerOffset : BitVec 32
  handlerLen : BitVec 32
  filterOffset : BitVec 32

def monoExceptionClauseFilter : BitVec 32 := 1

/-- A method body. The end of a block is an `int`, so the code is shorter than `2 ^ 31` bytes. -/
structure MonoMethodHeader where
  code : List (BitVec 8)
  clauses : List MonoExceptionClause
  small : code.length < 2 ^ 31

/-- A computation on the blocks. -/
abbrev BbM := Fallible BbHeap BbError

/-! ### Calls -/

def callSplit (hint : Ptr) (target : BitVec 32) (linkBlocks : Bool) : BbM Ptr :=
  fun h => bbSplit h hint target linkBlocks

def callLink (fromBb toBb : Ptr) : BbM Unit :=
  Fallible.update fun h => bbLink h fromBb toBb

def callUnlink (fromBb toBb : Ptr) : BbM Unit :=
  Fallible.update fun h => bbUnlink h fromBb toBb

/-- Set `dead`. -/
def setDead (h : BbHeap) (bb : Ptr) (dead : Bool) : BbHeap :=
  { h with dead := Function.update h.dead bb dead }

/-! ### The pass over the code -/

/-- The block of an instruction: the first one from `current` on that ends behind it. -/
def seekLoop (h : BbHeap) (cliAddr : Nat) : (fuel : Nat) → (current : Ptr) → Option Ptr
  | 0, _ => none
  | fuel + 1, current =>
      if cliAddr ≥ asGuint (h.stop current) then
        match h.next current with
        | some next => seekLoop h cliAddr fuel next
        | none => none
      else some current

/-- `mono_opcode_has_static_branch`. -/
def monoOpcodeHasStaticBranch (opcode : Nat) : Bool :=
  opcode = monoCeeRet ∨ opcode = monoCeeThrow ∨ opcode = monoCeeRethrow ∨ opcode = monoCeeEndfinally

/-- After an instruction that control does not leave downwards: the next one starts a block of its own. -/
def splitAfter (current : Ptr) (ip : Nat) : BbM (Nat × Ptr) := do
  let next ← callSplit current (BitVec.ofNat 32 ip) false
  callUnlink current next
  pure (ip, next)

/-- A branch to `offset`; `ip` is the address behind it. -/
def ilBranch (code : List (BitVec 8)) (cliAddr ip : Nat) (offset : BitVec 32) (flowType : FlowType)
    (current : Ptr) : BbM (Nat × Ptr) := do
  let branch ← callSplit current offset true
  let splitCurrent ← Fallible.read fun h => decide (h.start branch > h.start current)
  let current := if offset.toNat < cliAddr ∧ splitCurrent = true then branch else current
  if ip < code.length then
    let next ← callSplit current (BitVec.ofNat 32 ip) (flowType != .branch)
    callLink current branch
    if flowType = .branch ∧ next ≠ branch then
      callUnlink current next
      pure (ip, next)
    else pure (ip, current)
  else
    callLink current branch
    pure (ip, current)

/-- The targets of a switch, of which `n` are left; `offset` is the address behind the switch. -/
def switchLoop (code : List (BitVec 8)) (cliAddr : Nat) (offset : BitVec 32) (current : Ptr) :
    (n : Nat) → (ip : Nat) → (next : Ptr) → BbM Nat
  | 0, ip, _ => pure ip
  | n + 1, ip, next =>
      if ip ≥ code.length then Fallible.fail (.invalidSwitchInstruction (BitVec.ofNat 32 cliAddr))
      else do
        let next ← callSplit next (offset + read32 code ip) true
        callLink current next
        switchLoop code cliAddr offset current n (ip + 4) next

/-- A switch. -/
def ilSwitch (code : List (BitVec 8)) (cliAddr ip : Nat) (current : Ptr) : BbM (Nat × Ptr) := do
  let n := read32 code (ip + 1)
  let offset := BitVec.ofNat 32 (cliAddr + 5) + 4 * n
  let next ← callSplit current offset true
  callLink current next
  let ip ← switchLoop code cliAddr offset current n.toNat (ip + 5) next
  pure (ip, next)

/-- One instruction of `bb_formation_il_pass`; `ip` is the address of the last byte of the opcode. -/
def ilInstruction (code : List (BitVec 8)) (cliAddr ip value : Nat) (current : Ptr) :
    BbM (Nat × Ptr) :=
  let opcode := monoOpcodes value
  match opcode.argument with
  | .inlineNone =>
      if monoOpcodeHasStaticBranch value = false ∨ ip + 1 ≥ code.length then pure (ip + 1, current)
      else splitAfter current (ip + 1)
  | .inlineString | .inlineType | .inlineField | .inlineTok | .inlineSig | .shortInlineR | .inlineI =>
      pure (ip + 5, current)
  | .inlineMethod =>
      if value ≠ monoCeeJmp ∨ ip + 5 ≥ code.length then pure (ip + 5, current)
      else splitAfter current (ip + 5)
  | .inlineVar => pure (ip + 3, current)
  | .shortInlineVar | .shortInlineI => pure (ip + 2, current)
  | .inlineR | .inlineI8 => pure (ip + 9, current)
  | .shortInlineBrTarget =>
      ilBranch code cliAddr (ip + 2)
        (BitVec.ofNat 32 (cliAddr + 2) + (read8 code (ip + 1)).signExtend 32) opcode.flowType current
  | .inlineBrTarget =>
      ilBranch code cliAddr (ip + 5) (BitVec.ofNat 32 (cliAddr + 5) + read32 code (ip + 1))
        opcode.flowType current
  | .inlineSwitch => ilSwitch code cliAddr ip current

/-- `bb_formation_il_pass`, from the address `ip` on. -/
def bbFormationIlPass (code : List (BitVec 8)) : (fuel : Nat) → (ip : Nat) → (current : Ptr) → BbM Unit
  | 0, _, _ => Fallible.stuck
  | fuel + 1, cliAddr, current =>
      if cliAddr < code.length then
        match monoOpcodeValueAndSize code cliAddr with
        | (ip, none) => Fallible.fail (.invalidInstruction (read8 code ip))
        | (ip, some (value, _)) => do
            let current ← Fallible.readSome fun h => seekLoop h cliAddr (h.count + 1) current
            let (ip, current) ← ilInstruction code cliAddr ip value current
            bbFormationIlPass code fuel ip current
      else if cliAddr ≠ code.length then Fallible.fail .invalidLastInstruction
      else pure ()

/-! ### The pass over the clauses -/

/-- Split at the end of a range, if it is inside the code. -/
def splitAtEnd (codeSize : Nat) (hint : Ptr) (last : BitVec 32) : BbM Unit :=
  if last.toNat < codeSize then do
    let _ ← callSplit hint last false
    pure ()
  else pure ()

/-- A handler or a filter: it starts a block, which is alive. -/
def splitEntry (hint : Ptr) (offset : BitVec 32) : BbM Ptr := do
  let handler ← callSplit hint offset false
  Fallible.update fun h => setDead h handler false
  pure handler

/-- The filter of a clause that has one. -/
def splitFilter (tryBlock : Ptr) (clause : MonoExceptionClause) : BbM Unit :=
  if clause.flags = monoExceptionClauseFilter then do
    let _ ← splitEntry tryBlock clause.filterOffset
    pure ()
  else pure ()

/-- One clause of `bb_formation_eh_pass`. -/
def ehClause (codeSize : Nat) (clause : MonoExceptionClause) : BbM Unit := do
  let tryBlock ← callSplit 0 clause.tryOffset true
  let handler ← splitEntry tryBlock clause.handlerOffset
  splitFilter tryBlock clause
  splitAtEnd codeSize tryBlock (clause.tryOffset + clause.tryLen)
  splitAtEnd codeSize handler (clause.handlerOffset + clause.handlerLen)

/-- `bb_formation_eh_pass`. -/
def bbFormationEhPass (codeSize : Nat) (clauses : List MonoExceptionClause) : BbM Unit :=
  clauses.forM (ehClause codeSize)

/-! ### Live blocks -/

/-- The first loop of `bb_liveness`: the blocks from `bb` on that are not dead go on a stack, whose last
element is the head. -/
def collectLive (h : BbHeap) : (fuel : Nat) → (bb : Option Ptr) → (markStack : List Ptr) →
    Option (List Ptr)
  | _, none, markStack => some markStack
  | 0, some _, _ => none
  | fuel + 1, some bb, markStack =>
      collectLive h fuel (h.next bb) (if h.dead bb = false then bb :: markStack else markStack)

/-- The second loop of `bb_liveness`. -/
def markLoop : (fuel : Nat) → (markStack : List Ptr) → BbHeap → Option BbHeap
  | 0, _, _ => none
  | _ + 1, [], h => some h
  | fuel + 1, block :: markStack, h =>
      let h := setDead h block false
      markLoop fuel
        ((h.outBb block).foldl (fun stack bb => if h.dead bb then bb :: stack else stack) markStack) h

/-- The greatest number of out-edges of a block. -/
def maxOut (h : BbHeap) : Nat :=
  (List.range h.count).foldl (fun most bb => max most (h.outBb bb).length) 0

/-- `bb_liveness`. Each block becomes live once, and only blocks that become live can grow the stack. -/
def bbLiveness (h : BbHeap) : Option BbHeap :=
  match collectLive h h.count (some 0) [] with
  | none => none
  | some markStack => markLoop (h.count + 2 * h.count * maxOut h + 1) markStack h

/-- `mono_basic_block_split`. The error stands for `NULL`. -/
def monoBasicBlockSplit (header : MonoMethodHeader) : Option (Except BbError BbHeap) :=
  let start := initBb header.code.length
  let passes : BbM Unit := do
    bbFormationIlPass header.code (header.code.length + 1) 0 0
    bbFormationEhPass header.code.length header.clauses
  match passes start with
  | none => none
  | some (_, .error e) => some (.error e)
  | some (h, .ok ()) =>
      match bbLiveness h with
      | none => none
      | some h => some (.ok h)

end MonoRuntime.BasicBlock
