/-
Module: MonoRuntime.Mini.BranchOpts
Purpose: `mono_optimize_branches` of `mini/branch-opts.c` on methods without exception regions, where
  `bb->region` is -1 in all blocks, and without extended blocks: `cfg->enable_extended_bblocks` is never set, so a
  conditional branch ends its block and has both targets. The chain of the blocks by `next_bb` from the entry is a
  list.
Trusted boundary: human-reviewed translation of the source
Main exports: Ins
-/
import Mathlib.Logic.Function.Basic

namespace MonoRuntime.BranchOpts

abbrev BBRef := Nat

/-! ### Instructions -/

/-- The operands of a conditional branch. -/
inductive CondKind where
  | int
  | long
  | float
deriving DecidableEq, Repr

/-- The tests, in the order of their opcodes. -/
inductive CondTest where
  | beq
  | bge
  | bgt
  | ble
  | blt
  | bneUn
  | bgeUn
  | bgtUn
  | bleUn
  | bltUn
deriving DecidableEq, Repr

/-- The opcode of a conditional branch. -/
structure CondOp where
  kind : CondKind
  test : CondTest
deriving DecidableEq, Repr

/-- The maps of `mono_reverse_branch_op`. -/
def CondTest.reverse : CondTest → CondTest
  | .beq => .bneUn
  | .bge => .blt
  | .bgt => .ble
  | .ble => .bgt
  | .blt => .bge
  | .bneUn => .beq
  | .bgeUn => .bltUn
  | .bgtUn => .bleUn
  | .bleUn => .bgtUn
  | .bltUn => .bgeUn

/-- `mono_reverse_branch_op`. -/
def monoReverseBranchOp (op : CondOp) : CondOp :=
  { op with test := op.test.reverse }

/-- An instruction: the branches, what belongs to them, and the others by a name. `cfold` stands for the flags
`MONO_INST_CFOLD_TAKEN` and `MONO_INST_CFOLD_NOT_TAKEN`. -/
inductive Ins where
  | nop
  | br (target : BBRef)
  | condBranch (op : CondOp) (trueBb falseBb : BBRef) (cfold : Option Bool)
  | switch (table : List (Option BBRef))
  | jumpTable (table : List (Option BBRef))
  | brReg
  | notReached
  | other (id : Nat)
deriving DecidableEq, Repr

/-- `MONO_IS_BRANCH_OP`. -/
def Ins.isBranchOp : Ins → Bool
  | .br _ | .condBranch _ _ _ _ | .switch _ | .brReg => true
  | _ => false

/-! ### The graph -/

/-- The fields of `MonoBasicBlock` that the pass looks at. -/
structure BasicBlock where
  code : List Ins
  inBb : List BBRef
  outBb : List BBRef
  notUseless : Bool
  outOfLine : Bool
  hasJumpTable : Bool
deriving DecidableEq, Repr

/-- The fields of `MonoCompile`; `chain` is the list of the blocks by `next_bb` from `bb_entry`. -/
structure Cfg where
  bb : BBRef → BasicBlock
  chain : List BBRef
  bbEntry : BBRef
  bbExit : BBRef
  numBblocks : Nat
  disableOutOfLineBblocks : Bool

/-- What follows a block in the chain. -/
def afterIn : List BBRef → BBRef → List BBRef
  | [], _ => []
  | a :: chain, b => if a = b then chain else afterIn chain b

namespace Cfg

variable (cfg : Cfg)

def code (b : BBRef) : List Ins := (cfg.bb b).code
def inBb (b : BBRef) : List BBRef := (cfg.bb b).inBb
def outBb (b : BBRef) : List BBRef := (cfg.bb b).outBb

/-- `bb->next_bb`. -/
def nextBb (b : BBRef) : Option BBRef :=
  (afterIn cfg.chain b).head?

/-- `bb->last_ins`. -/
def lastIns (b : BBRef) : Option Ins :=
  (cfg.code b).getLast?

/-- Change a block. -/
def update (b : BBRef) (change : BasicBlock → BasicBlock) : Cfg :=
  { cfg with bb := Function.update cfg.bb b (change (cfg.bb b)) }

def setCode (b : BBRef) (code : List Ins) : Cfg :=
  cfg.update b fun bb => { bb with code := code }

def setIn (b : BBRef) (inBb : List BBRef) : Cfg :=
  cfg.update b fun bb => { bb with inBb := inBb }

def setOut (b : BBRef) (outBb : List BBRef) : Cfg :=
  cfg.update b fun bb => { bb with outBb := outBb }

/-- Change the last instruction. -/
def setLast (b : BBRef) (ins : Ins) : Cfg :=
  cfg.setCode b ((cfg.code b).dropLast ++ [ins])

/-- `MONO_ADD_INS`. -/
def addIns (b : BBRef) (ins : Ins) : Cfg :=
  cfg.setCode b (cfg.code b ++ [ins])

/-- Take a block out of the chain. -/
def unchain (b : BBRef) : Cfg :=
  { cfg with chain := cfg.chain.erase b }

end Cfg

/-- `mono_link_bblock`. -/
def monoLinkBblock (cfg : Cfg) (source target : BBRef) : Cfg :=
  let cfg := if target ∈ cfg.outBb source then cfg else cfg.setOut source (cfg.outBb source ++ [target])
  if source ∈ cfg.inBb target then cfg else cfg.setIn target (cfg.inBb target ++ [source])

/-- `mono_unlink_bblock`. -/
def monoUnlinkBblock (cfg : Cfg) (source target : BBRef) : Cfg :=
  let cfg := cfg.setOut source ((cfg.outBb source).filter (· ≠ target))
  cfg.setIn target ((cfg.inBb target).filter (· ≠ source))

/-- `mono_nullify_basic_block`, for a block that has left the chain. -/
def monoNullifyBasicBlock (cfg : Cfg) (b : BBRef) : Cfg :=
  cfg.update b fun bb => { bb with code := [], inBb := [], outBb := [] }

/-- The loop of `replace_out_block` and `replace_in_block` from an index on, for at most so many rounds. -/
def replaceLoop (orig : BBRef) (repl : Option BBRef) : (rounds i : Nat) → List BBRef → List BBRef
  | 0, _, blocks => blocks
  | rounds + 1, i, blocks =>
      if blocks[i]? = some orig then
        match repl with
        | some repl => replaceLoop orig (some repl) rounds (i + 1) (blocks.set i repl)
        | none => replaceLoop orig none rounds (i + 1) ((blocks.set i (blocks.getLastD orig)).dropLast)
      else replaceLoop orig repl rounds (i + 1) blocks

/-- `replace_out_block`. -/
def replaceOutBlock (cfg : Cfg) (b orig : BBRef) (repl : Option BBRef) : Cfg :=
  cfg.setOut b (replaceLoop orig repl (cfg.outBb b).length 0 (cfg.outBb b))

/-- `replace_in_block`. -/
def replaceInBlock (cfg : Cfg) (b orig : BBRef) (repl : Option BBRef) : Cfg :=
  cfg.setIn b (replaceLoop orig repl (cfg.inBb b).length 0 (cfg.inBb b))

/-- One block for another. -/
def replaceTarget (orig repl target : BBRef) : BBRef :=
  if target = orig then repl else target

/-- One block for another in an instruction. -/
def Ins.replace (orig repl : BBRef) : Ins → Ins
  | .br target => .br (replaceTarget orig repl target)
  | .condBranch op trueBb falseBb cfold =>
      .condBranch op (replaceTarget orig repl trueBb) (replaceTarget orig repl falseBb) cfold
  | .switch table => .switch (table.map fun target => target.map (replaceTarget orig repl))
  | .jumpTable table => .jumpTable (table.map fun target => target.map (replaceTarget orig repl))
  | ins => ins

/-- `replace_out_block_in_code`. -/
def replaceOutBlockInCode (cfg : Cfg) (b orig repl : BBRef) : Cfg :=
  cfg.setCode b ((cfg.code b).map (Ins.replace orig repl))

/-- `mono_bb_is_fall_through`. -/
def monoBbIsFallThrough (cfg : Cfg) (b : BBRef) : Bool :=
  (cfg.nextBb b).isSome && !(cfg.lastIns b).any Ins.isBranchOp

/-! ### The parts of a visit -/

/-- What a part of the visit of a block leaves: the graph, whether it set `changed`, and whether it went on
to the next block. -/
structure Visit where
  cfg : Cfg
  changed : Bool
  done : Bool

/-- The next part, unless the visit is done. -/
def Visit.andThen (visit : Visit) (part : Cfg → Visit) : Visit :=
  if visit.done then visit
  else { part visit.cfg with changed := visit.changed || (part visit.cfg).changed }

/-- Nothing happens. -/
def Visit.skip (cfg : Cfg) : Visit :=
  { cfg, changed := false, done := false }

/-- The loop over the instructions of `remove_block_if_useless`: `none` when there is one that is neither an
`OP_NOP` nor an `OP_BR`, else the target of the last `OP_BR`. -/
def uselessTarget (target : Option BBRef) : List Ins → Option (Option BBRef)
  | [] => some target
  | .nop :: code => uselessTarget target code
  | .br next :: code => uselessTarget (some next) code
  | _ :: _ => none

/-- The loop over `bb->in_bb` of `remove_block_if_useless`, which takes each block out of it. -/
def redirect (cfg : Cfg) (b target : BBRef) (inBbs : List BBRef) : Cfg :=
  inBbs.foldl (fun cfg inBb =>
    replaceOutBlockInCode (monoLinkBblock (monoUnlinkBblock cfg inBb b) inBb target) inBb b target) cfg

/-- The previous block no longer falls through to its successor, which gets a branch. -/
def jumpFromPrevious (cfg : Cfg) (previous target : BBRef) : Cfg :=
  if previous ≠ cfg.bbEntry ∧ monoBbIsFallThrough cfg previous ∧ target ∈ cfg.outBb previous then
    cfg.addIns previous (.br target)
  else cfg

/-- The removal in `remove_block_if_useless`. -/
def removeUseless (cfg : Cfg) (b previous target : BBRef) : Cfg :=
  let cfg := redirect cfg b target (cfg.inBb b)
  let cfg := monoUnlinkBblock cfg b target
  let cfg := jumpFromPrevious cfg previous target
  monoNullifyBasicBlock (cfg.unchain b) b

/-- The block where the run of a useless block goes. -/
def usefulTarget (cfg : Cfg) (b : BBRef) : Option BBRef → Option BBRef
  | some target => some target
  | none => if (cfg.outBb b).length = 1 ∧ (cfg.outBb b).head? = cfg.nextBb b then cfg.nextBb b else none

/-- The last instruction is an `OP_SWITCH`. -/
def endsInSwitch (cfg : Cfg) (b : BBRef) : Bool :=
  match cfg.lastIns b with
  | some (.switch _) => true
  | _ => false

/-- `remove_block_if_useless`, which is called where `bb->not_useless` is not set. -/
def removeBlockIfUseless (previous b : BBRef) (cfg : Cfg) : Visit :=
  if (cfg.bb b).notUseless then Visit.skip cfg
  else
    match uselessTarget none (cfg.code b) with
    | none => Visit.skip (cfg.update b fun bb => { bb with notUseless := true })
    | some target =>
        match usefulTarget cfg b target with
        | none => Visit.skip cfg
        | some target =>
            if endsInSwitch cfg previous then Visit.skip cfg
            else if previous = cfg.bbEntry ∧ cfg.nextBb b ≠ some target then Visit.skip cfg
            else if target ≠ b then { cfg := removeUseless cfg b previous target, changed := true, done := true }
            else Visit.skip cfg

/-- Take a block out that no block leads to. -/
def nullifyBlock (cfg : Cfg) (b : BBRef) : Cfg :=
  let cfg := cfg.unchain b
  monoNullifyBasicBlock ((cfg.outBb b).foldl (fun cfg outBb => replaceInBlock cfg outBb b none) cfg) b

/-- The next block is nullified when no block leads to it. -/
def nullifyNext (goesOn : Bool) (b : BBRef) (cfg : Cfg) : Visit :=
  match cfg.nextBb b with
  | none => Visit.skip cfg
  | some next =>
      if (cfg.inBb next).length = 0 ∧ next ≠ cfg.bbExit then
        { cfg := nullifyBlock cfg next, changed := true, done := goesOn }
      else Visit.skip cfg

/-- A conditional branch of a block with one successor is replaced with `OP_BR`. -/
def condToBr (b : BBRef) (cfg : Cfg) : Visit :=
  match cfg.lastIns b with
  | some (.condBranch _ trueBb _ _) => { cfg := cfg.setLast b (.br trueBb), changed := true, done := false }
  | _ => Visit.skip cfg

/-- A branch to the following block is removed. -/
def brToNop (b : BBRef) (cfg : Cfg) : Visit :=
  match cfg.lastIns b with
  | some (.br _) => { cfg := cfg.setLast b .nop, changed := true, done := false }
  | _ => Visit.skip cfg

/-- The entries of the jump tables are cleared. -/
def Ins.clearTable : Ins → Ins
  | .switch table => .switch (table.map fun _ => none)
  | .jumpTable table => .jumpTable (table.map fun _ => none)
  | ins => ins

/-- `NULLIFY_INS` for the branch at the end of a block. -/
def nullifyBranch (code : List Ins) : List Ins :=
  if code.getLast?.any Ins.isBranchOp then code.dropLast ++ [.nop] else code

/-- The end of `mono_merge_basic_blocks`: the block does not fall through to where the other did. -/
def branchAfterMerge (cfg : Cfg) (b : BBRef) : Cfg :=
  match cfg.lastIns b, cfg.outBb b with
  | some last, [target] =>
      if cfg.nextBb b ≠ some target ∧ last.isBranchOp = false then cfg.addIns b (.br target) else cfg
  | _, _ => cfg

/-- `mono_merge_basic_blocks`, where the last instruction of the first block is no conditional branch. -/
def monoMergeBasicBlocks (cfg : Cfg) (b next : BBRef) : Cfg :=
  let nextBlock := cfg.bb next
  let cfg := monoUnlinkBblock cfg b next
  let cfg := (cfg.outBb next).foldl (fun cfg outBb => monoLinkBblock cfg b outBb) cfg
  let cfg := (cfg.outBb next).foldl (fun cfg outBb => monoUnlinkBblock cfg next outBb) cfg
  let cleared := if (cfg.bb b).hasJumpTable then (cfg.code b).map Ins.clearTable else cfg.code b
  let cfg := cfg.update b fun bb =>
    { bb with
      code := nullifyBranch cleared ++ nextBlock.code
      hasJumpTable := bb.hasJumpTable || nextBlock.hasJumpTable }
  branchAfterMerge (monoNullifyBasicBlock (cfg.unchain next) next) b

/-- The block is merged with its only successor, where that follows and has no other predecessor. -/
def mergeNext (b : BBRef) (cfg : Cfg) : Visit :=
  match cfg.nextBb b with
  | none => Visit.skip cfg
  | some next =>
      if (cfg.inBb next).length = 1 ∧ next ≠ cfg.bbExit then
        { cfg := monoMergeBasicBlocks cfg b next, changed := true, done := true }
      else Visit.skip cfg

/-- What is done with a block that has one successor, and with one that precedes its only successor. -/
def oneSuccessor (b : BBRef) (cfg : Cfg) : Visit :=
  match cfg.outBb b with
  | [out] =>
      (condToBr b cfg).andThen fun cfg =>
        if cfg.nextBb b = some out then (brToNop b cfg).andThen (mergeNext b) else Visit.skip cfg
  | _ => Visit.skip cfg

/-- The target of a block that starts with a branch. -/
def branchOf (cfg : Cfg) (b : BBRef) : Option BBRef :=
  match (cfg.code b).head? with
  | some (.br target) => some target
  | _ => none

/-- A branch to a branch. -/
def threadBr (b : BBRef) (cfg : Cfg) : Visit :=
  match cfg.lastIns b with
  | some (.br next) =>
      match branchOf cfg next with
      | some target =>
          if target ≠ next then
            let cfg := replaceInBlock cfg next b none
            let cfg := replaceOutBlock cfg b next (some target)
            let cfg := monoLinkBblock cfg b target
            { cfg := cfg.setLast b (.br target), changed := true, done := true }
          else Visit.skip cfg
      | none => Visit.skip cfg
  | _ => Visit.skip cfg

/-- New targets for a conditional branch: both are unlinked, then linked. -/
def retarget (cfg : Cfg) (b : BBRef) (op : CondOp) (cfold : Option Bool) (trueBb falseBb newTrue newFalse : BBRef) :
    Cfg :=
  let cfg := monoUnlinkBblock cfg b trueBb
  let cfg := monoUnlinkBblock cfg b falseBb
  let cfg := cfg.setLast b (.condBranch op newTrue newFalse cfold)
  let cfg := monoLinkBblock cfg b newTrue
  monoLinkBblock cfg b newFalse

/-- A conditional branch that is decided, or whose targets start with a branch. -/
def threadCond (b : BBRef) (cfg : Cfg) : Visit :=
  match cfg.lastIns b with
  | some (.condBranch op trueBb falseBb cfold) =>
      if op.kind = .float then Visit.skip cfg
      else
        match cfold with
        | some taken =>
            let cfg' := cfg.setLast b (.br (if taken then trueBb else falseBb))
            { cfg := monoUnlinkBblock cfg' b (if taken then falseBb else trueBb), changed := true, done := true }
        | none =>
            match branchOf cfg trueBb, branchOf cfg falseBb with
            | some target, _ =>
                { cfg := retarget cfg b op none trueBb falseBb target falseBb, changed := true, done := true }
            | none, some target =>
                { cfg := retarget cfg b op none trueBb falseBb trueBb target, changed := true, done := true }
            | none, none => Visit.skip cfg
  | _ => Visit.skip cfg

/-- Branches to branches. -/
def thread (b : BBRef) (cfg : Cfg) : Visit :=
  if (cfg.outBb b).length = 1 then threadBr b cfg
  else if (cfg.outBb b).length = 2 then threadCond b cfg
  else Visit.skip cfg

/-- The chain with a block moved to the end; the entry would be cut off from the rest. -/
def moveToEnd (chain : List BBRef) (b : BBRef) : List BBRef :=
  match chain with
  | [] => [b]
  | entry :: rest => if entry = b then [b] else entry :: (rest.erase b ++ [b])

/-- The instructions behind which `move_basic_block_to_end` adds no branch. -/
def Ins.needsNoBranch : Ins → Bool
  | .notReached | .br _ | .brReg | .condBranch _ _ _ _ => true
  | _ => false

/-- `move_basic_block_to_end`. -/
def moveBasicBlockToEnd (cfg : Cfg) (b : BBRef) : Cfg :=
  let next := cfg.nextBb b
  let cfg := { cfg with chain := moveToEnd cfg.chain b }
  match next with
  | none => cfg
  | some next =>
      if (cfg.lastIns b).any Ins.needsNoBranch then cfg
      else monoLinkBblock (cfg.addIns b (.br next)) b next

/-- The branch of a block is reversed when the block behind its false edge is out of line: the branch with that
block as the new true target. -/
def reversal (cfg : Cfg) (b : BBRef) : Option (Ins × BBRef) :=
  match cfg.lastIns b with
  | some (.condBranch op trueBb falseBb cfold) =>
      if (cfg.outBb b).length = 2 ∧ op.kind ≠ .float ∧ (cfg.bb falseBb).outOfLine = true ∧
          cfg.disableOutOfLineBblocks = false then
        some (.condBranch (monoReverseBranchOp op) falseBb trueBb cfold, falseBb)
      else none
  | _ => none

/-- The reversal, with the block moved to the end. -/
def reverseBranch (b : BBRef) (cfg : Cfg) : Visit :=
  match reversal cfg b with
  | some (branch, target) => Visit.skip (moveBasicBlockToEnd (cfg.setLast b branch) target)
  | none => Visit.skip cfg

/-- The visit of a block up to the reversal of its branch. -/
def visitFront (previous b : BBRef) (cfg : Cfg) : Visit :=
  ((((removeBlockIfUseless previous b cfg).andThen (nullifyNext false b)).andThen (oneSuccessor b)).andThen
    (nullifyNext true b)).andThen (thread b)

/-- The body of the loop over the blocks. -/
def visitBlock (previous b : BBRef) (cfg : Cfg) : Visit :=
  (visitFront previous b cfg).andThen (reverseBranch b)

/-! ### The loops -/

/-- The state of the loops; `bb` is `none` at the end of a pass. -/
structure LoopState where
  cfg : Cfg
  previousBb : BBRef
  bb : Option BBRef
  changed : Bool
  niterations : Nat

/-- The start of a pass over the blocks behind the entry. -/
def startPass (cfg : Cfg) (niterations : Nat) : LoopState :=
  { cfg, previousBb := cfg.bbEntry, bb := cfg.nextBb cfg.bbEntry, changed := false, niterations := niterations - 1 }

/-- One round of the inner loop, or the condition of the outer one: `none` when the loops are left. -/
def loopStep (state : LoopState) : Option LoopState :=
  match state.bb with
  | some b =>
      let visit := visitBlock state.previousBb b state.cfg
      some
        { cfg := visit.cfg, previousBb := b, bb := visit.cfg.nextBb b, changed := state.changed || visit.changed,
          niterations := state.niterations }
  | none =>
      if state.changed = true ∧ 0 < state.niterations then some (startPass state.cfg state.niterations) else none

/-- The bound on the passes. -/
def maxIterations (cfg : Cfg) : Nat :=
  if 1000 < cfg.numBblocks then cfg.numBblocks * 2 else 1000

/-- The state where the loops start. -/
def loopStart (cfg : Cfg) : LoopState :=
  startPass cfg (maxIterations cfg)

/-- `mono_optimize_branches` with so many rounds at most; `none` when they are not enough. -/
def optimizeLoop : Nat → LoopState → Option Cfg
  | 0, _ => none
  | rounds + 1, state =>
      match loopStep state with
      | some state => optimizeLoop rounds state
      | none => some state.cfg

/-- `mono_optimize_branches`, with a bound on the rounds. -/
def monoOptimizeBranches (rounds : Nat) (cfg : Cfg) : Option Cfg :=
  optimizeLoop rounds (loopStart cfg)

end MonoRuntime.BranchOpts
