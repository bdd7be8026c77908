/-
Module: MonoRuntime.Mini.BranchRun
Purpose: How a graph of basic blocks runs, and when it is consistent: the edges of each block are those of its last
  instruction or of falling through to the next block.
Trusted boundary: human-reviewed specification
Main exports: Machine
-/
import MonoRuntime.Lib.Traces
import MonoRuntime.Mini.BranchOpts

namespace MonoRuntime.BranchOpts

/-! ### Runs -/

/-- What the last comparison left: two words, or the order of two floats, where `none` is unordered. -/
structure Compared where
  left : BitVec 64
  right : BitVec 64
  floats : Option Ordering

/-- A test of two words. -/
def CondTest.holds {w : Nat} (left right : BitVec w) : CondTest → Bool
  | .beq => left = right
  | .bge => right.sle left
  | .bgt => right.slt left
  | .ble => left.sle right
  | .blt => left.slt right
  | .bneUn => left ≠ right
  | .bgeUn => right.ule left
  | .bgtUn => right.ult left
  | .bleUn => left.ule right
  | .bltUn => left.ult right

/-- A test of two floats; the `_un` forms hold for unordered ones. -/
def CondTest.holdsFloat (floats : Option Ordering) : CondTest → Bool
  | .beq => floats = some .eq
  | .bge => floats = some .gt ∨ floats = some .eq
  | .bgt => floats = some .gt
  | .ble => floats = some .lt ∨ floats = some .eq
  | .blt => floats = some .lt
  | .bneUn => floats ≠ some .eq
  | .bgeUn => floats ≠ some .lt
  | .bgtUn => floats = some .gt ∨ floats = none
  | .bleUn => floats ≠ some .gt
  | .bltUn => floats = some .lt ∨ floats = none

/-- Whether a conditional branch is taken. -/
def CondOp.holds (op : CondOp) (compared : Compared) : Bool :=
  match op.kind with
  | .int => op.test.holds (compared.left.setWidth 32) (compared.right.setWidth 32)
  | .long => op.test.holds compared.left compared.right
  | .float => op.test.holdsFloat compared.floats

/-- A machine: what the instructions that are no branches do to its state, what the last comparison left, and the
index into a jump table, which the comparison before the jump has found to be in the table. -/
structure Machine (σ : Type) where
  exec : Nat → σ → σ
  compared : σ → Compared
  index : Nat → σ → Nat
  index_lt : ∀ size state, 0 < size → index size state < size

/-- The instructions of a block that are no branches, and the state behind them. Behind an `OP_NOT_REACHED` a
consistent graph has no such instruction. -/
def perform {σ : Type} (m : Machine σ) : List Ins → σ → List Nat × σ
  | [], state => ([], state)
  | .other id :: code, state => (id :: (perform m code (m.exec id state)).1, (perform m code (m.exec id state)).2)
  | _ :: code, state => perform m code state

/-- The instruction loads the address of a jump table. -/
def Ins.isJumpTable : Ins → Bool
  | .jumpTable _ => true
  | _ => false

/-- The table of the jump at the end of a block: the last one that the block loads. -/
def liveTable : List Ins → List (Option BBRef)
  | [] => []
  | .jumpTable table :: code => if code.any Ins.isJumpTable then liveTable code else table
  | _ :: code => liveTable code

/-- The entry of a table that a jump goes to. -/
def jumpTarget {σ : Type} (m : Machine σ) (table : List (Option BBRef)) (state : σ) : Option BBRef :=
  (table[m.index table.length state]?).join

/-- The next block of a run, which ends at an `OP_NOT_REACHED`. A conditional branch that constant folding has decided
goes the decided way. -/
def nextBlock {σ : Type} (m : Machine σ) (cfg : Cfg) (b : BBRef) (state : σ) : Option BBRef :=
  if .notReached ∈ cfg.code b then none
  else
    match cfg.lastIns b with
    | some (.br target) => some target
    | some (.condBranch op trueBb falseBb cfold) =>
        some (if cfold.getD (op.holds (m.compared state)) then trueBb else falseBb)
    | some (.switch table) => jumpTarget m table state
    | some .brReg => jumpTarget m (liveTable (cfg.code b)) state
    | _ => if b = cfg.bbExit then none else cfg.nextBb b

/-- The runs of a graph: a step performs the instructions of a block. -/
def blockSystem {σ : Type} (m : Machine σ) (cfg : Cfg) : System (BBRef × σ) Nat where
  step state :=
    ((perform m (cfg.code state.1) state.2).1,
      (nextBlock m cfg state.1 (perform m (cfg.code state.1) state.2).2).map fun next =>
        (next, (perform m (cfg.code state.1) state.2).2))

/-- On all machines and from all states, the runs from the entries perform the same sequence of instructions that
are no branches, and both end or neither does. -/
def SameRuns (cfg cfg' : Cfg) : Prop :=
  ∀ (σ : Type) (m : Machine σ) (state : σ),
    System.SameTraces (blockSystem m cfg) (cfg.bbEntry, state) (blockSystem m cfg') (cfg'.bbEntry, state)

/-! ### Consistent graphs -/

/-- The instructions that hold a table. -/
def Ins.hasTable : Ins → Bool
  | .switch _ | .jumpTable _ => true
  | _ => false

/-- The instructions behind the first `OP_NOT_REACHED`. -/
def deadCode : List Ins → List Ins
  | [] => []
  | .notReached :: code => code
  | _ :: code => deadCode code

namespace Cfg

variable (cfg : Cfg)

/-- The end of the block is reached. -/
def endReached (b : BBRef) : Prop :=
  .notReached ∉ cfg.code b

/-- The block falls through to the next one. -/
def fallsThrough (b : BBRef) : Prop :=
  b ≠ cfg.bbExit ∧ cfg.endReached b ∧ ∀ last, cfg.lastIns b = some last → last.isBranchOp = false

/-- The table of the jump at the end of a block. -/
def table (b : BBRef) : Option (List (Option BBRef)) :=
  match cfg.lastIns b with
  | some (.switch table) => some table
  | some .brReg => some (liveTable (cfg.code b))
  | _ => none

/-- The successors that the last instruction or the chain gives a block whose end is reached. -/
def successors (b : BBRef) : List BBRef :=
  match cfg.lastIns b with
  | some (.br target) => [target]
  | some (.condBranch _ trueBb falseBb _) => [trueBb, falseBb]
  | some (.switch table) => table.filterMap id
  | some .brReg => (liveTable (cfg.code b)).filterMap id
  | _ => if b = cfg.bbExit then [] else (cfg.nextBb b).toList

end Cfg

/-- A block whose end is not reached, as after a throw: it may have an edge to the exit, and behind the
`OP_NOT_REACHED` a branch that goes there, or went there before it was removed. -/
structure DeadEnd (cfg : Cfg) (b : BBRef) : Prop where
  edges : ∀ c ∈ cfg.outBb b, c = cfg.bbExit
  behind : ∀ ins ∈ deadCode (cfg.code b), ins = .nop ∨ ins = .br cfg.bbExit
  nopLast : cfg.lastIns b = some .nop → cfg.nextBb b = some cfg.bbExit

/-- The edges of a graph are those of a relation, without repetition. -/
structure Edges (cfg : Cfg) (edge : BBRef → BBRef → Prop) : Prop where
  outIff : ∀ b c, c ∈ cfg.outBb b ↔ edge b c
  inIff : ∀ b c, b ∈ cfg.inBb c ↔ edge b c
  outNodup : ∀ b, (cfg.outBb b).Nodup
  inNodup : ∀ b, (cfg.inBb b).Nodup

/-- The incoming and the outgoing edges agree, lie between blocks of the chain and are the successors given by the
last instructions and by falling through, but for the edges of dead ends. Branches stand at the end of blocks, none
ends the exit, and the jump tables are filled. -/
structure Consistent (cfg : Cfg) : Prop where
  chainNodup : cfg.chain.Nodup
  entryFirst : cfg.chain.head? = some cfg.bbEntry
  edges : Edges cfg fun b c => c ∈ cfg.outBb b
  inChain : ∀ b c, c ∈ cfg.outBb b → b ∈ cfg.chain ∧ c ∈ cfg.chain
  successors : ∀ b ∈ cfg.chain, cfg.endReached b → ∀ c, c ∈ cfg.outBb b ↔ c ∈ cfg.successors b
  deadEnds : ∀ b ∈ cfg.chain, ¬ cfg.endReached b → DeadEnd cfg b
  atEnd : ∀ b ∈ cfg.chain, ∀ ins ∈ (cfg.code b).dropLast, ins.isBranchOp = false
  exitPlain : ∀ ins ∈ cfg.code cfg.bbExit, ins.isBranchOp = false ∧ ins ≠ .notReached
  hasNext : ∀ b ∈ cfg.chain, cfg.fallsThrough b → (cfg.nextBb b).isSome
  tableFilled : ∀ b ∈ cfg.chain, ∀ table, cfg.table b = some table → table ≠ [] ∧ ∀ entry ∈ table, entry.isSome
  tableFlag : ∀ b ∈ cfg.chain, ∀ ins ∈ cfg.code b, ins.hasTable = true → (cfg.bb b).hasJumpTable = true

/-! ### Moves -/

/-- The move of a block to the end leaves the flow as it is: the block is neither the entry nor the exit, no block
falls through to it unless it is the last one anyway, and it does not end in `OP_SWITCH`. And the block whose branch
is reversed is itself not out of line or precedes it, so that out of line blocks do not move each other in front of the
loop again and again. -/
structure MoveClean (cfg : Cfg) (b target : BBRef) : Prop where
  notEntry : target ≠ cfg.bbEntry
  notExit : target ≠ cfg.bbExit
  noFall : (cfg.nextBb target).isSome → ∀ p, cfg.nextBb p = some target → ¬ cfg.fallsThrough p
  noSwitch : endsInSwitch cfg target = false
  onward : (cfg.bb b).outOfLine = false ∨ target ∈ afterIn cfg.chain b

/-- The move that the visit in a state of the loops makes, if it makes one, is clean. -/
def CleanVisit (state : LoopState) : Prop :=
  ∀ b, state.bb = some b → (visitFront state.previousBb b state.cfg).done = false →
    ∀ branch target, reversal (visitFront state.previousBb b state.cfg).cfg b = some (branch, target) →
      MoveClean (visitFront state.previousBb b state.cfg).cfg b target

/-- The state of the loops after some rounds. -/
def loopAfter : Nat → LoopState → Option LoopState
  | 0, state => some state
  | rounds + 1, state => (loopStep state).bind (loopAfter rounds)

/-! ### Checks -/

/-- The check of a block whose end is not reached. -/
def deadEndCheck (cfg : Cfg) (b : BBRef) : Bool :=
  (cfg.outBb b).all (· = cfg.bbExit) && (deadCode (cfg.code b)).all (fun ins => ins = .nop || ins = .br cfg.bbExit) &&
    (cfg.lastIns b ≠ some .nop || cfg.nextBb b = some cfg.bbExit)

/-- The check that a block falls through. -/
def fallsThroughCheck (cfg : Cfg) (b : BBRef) : Bool :=
  b ≠ cfg.bbExit && .notReached ∉ cfg.code b && (cfg.lastIns b).all (!·.isBranchOp)

/-- The check of a block for `Consistent`. -/
def blockCheck (cfg : Cfg) (b : BBRef) : Bool :=
  (if .notReached ∈ cfg.code b then deadEndCheck cfg b
    else (cfg.outBb b).all (· ∈ cfg.successors b) && (cfg.successors b).all (· ∈ cfg.outBb b)) &&
    (cfg.code b).dropLast.all (!·.isBranchOp) &&
    (!fallsThroughCheck cfg b || (cfg.nextBb b).isSome) &&
    (cfg.table b).all (fun table => table ≠ [] && table.all Option.isSome) &&
    (cfg.code b).all (fun ins => !ins.hasTable || (cfg.bb b).hasJumpTable)

/-- The check of the edges of a block. -/
def edgesCheck (cfg : Cfg) (b : BBRef) : Bool :=
  decide (cfg.outBb b).Nodup && decide (cfg.inBb b).Nodup &&
    (cfg.outBb b).all (fun c => c ∈ cfg.chain && b ∈ cfg.inBb c) &&
    (cfg.inBb b).all (fun p => p ∈ cfg.chain && b ∈ cfg.outBb p)

/-- The check of a graph. -/
def consistentCheck (cfg : Cfg) : Bool :=
  decide cfg.chain.Nodup && cfg.chain.head? = some cfg.bbEntry && cfg.chain.all (edgesCheck cfg) &&
    (cfg.code cfg.bbExit).all (fun ins => !ins.isBranchOp && ins ≠ .notReached) && cfg.chain.all (blockCheck cfg)

/-- The check of a move. -/
def moveCleanCheck (cfg : Cfg) (b target : BBRef) : Bool :=
  target ≠ cfg.bbEntry && target ≠ cfg.bbExit &&
    (cfg.nextBb target = none || cfg.chain.all fun p => cfg.nextBb p ≠ some target || !fallsThroughCheck cfg p) &&
    !endsInSwitch cfg target &&
    (!(cfg.bb b).outOfLine || target ∈ afterIn cfg.chain b)

/-- The check of the move of a visit. -/
def cleanVisitCheck (state : LoopState) : Bool :=
  match state.bb with
  | none => true
  | some b =>
      (visitFront state.previousBb b state.cfg).done ||
        (reversal (visitFront state.previousBb b state.cfg).cfg b).all
          fun reversed => moveCleanCheck (visitFront state.previousBb b state.cfg).cfg b reversed.2

/-- The check of all moves of a run of the loops that ends in so many rounds. -/
def cleanCheck : Nat → LoopState → Bool
  | 0, _ => false
  | rounds + 1, state =>
      cleanVisitCheck state &&
        match loopStep state with
        | some state => cleanCheck rounds state
        | none => true

/-- A graph of some blocks in their order, from the first one; other blocks are empty. -/
def graphOf (blocks : List BasicBlock) (bbExit : BBRef) : Cfg where
  bb b := blocks.getD b
    { code := [], inBb := [], outBb := [], notUseless := false, outOfLine := false, hasJumpTable := false }
  chain := List.range blocks.length
  bbEntry := 0
  bbExit := bbExit
  numBblocks := blocks.length
  disableOutOfLineBblocks := false

end MonoRuntime.BranchOpts
