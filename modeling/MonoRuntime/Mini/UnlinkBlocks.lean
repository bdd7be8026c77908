/-
Module: MonoRuntime.Mini.UnlinkBlocks
Purpose: `unlink_unused_bblocks` of `mini/ssa.c`, with the edges in the order of their arrays. The chain of the blocks
  by `next_bb` from the entry is a list. Its caller has tested `MONO_COMP_REACHABILITY`.
Trusted boundary: human-reviewed translation of the source
Main exports: unlinkTarget
-/
import MonoRuntime.Lib.SwapRemove

namespace MonoRuntime.UnlinkBlocks

open SwapRemove

abbrev BBRef := Nat

/-- The fields of `MonoBasicBlock` that the pass looks at. `reachable` is `BB_REACHABLE`. -/
structure BasicBlock where
  inBb : List BBRef
  outBb : List BBRef
  reachable : Bool
deriving DecidableEq, Repr

/-- The fields of `MonoCompile`; `chain` is the list of the blocks by `next_bb` from `bb_entry`. -/
structure Cfg where
  bb : BBRef → BasicBlock
  bblocks : List BBRef
  chain : List BBRef

namespace Cfg

variable (cfg : Cfg)

def inBb (b : BBRef) : List BBRef := (cfg.bb b).inBb
def outBb (b : BBRef) : List BBRef := (cfg.bb b).outBb
def reachable (b : BBRef) : Bool := (cfg.bb b).reachable

def setIn (b : BBRef) (inBb : List BBRef) : Cfg :=
  { cfg with bb := fun c => if c = b then { cfg.bb c with inBb := inBb } else cfg.bb c }

def setOut (b : BBRef) (outBb : List BBRef) : Cfg :=
  { cfg with bb := fun c => if c = b then { cfg.bb c with outBb := outBb } else cfg.bb c }

def setChain (chain : List BBRef) : Cfg :=
  { cfg with chain := chain }

end Cfg

/-- `unlink_target`. -/
def unlinkTarget (b target : BBRef) (cfg : Cfg) : Cfg :=
  let cfg := cfg.setOut b (swapRemove (cfg.outBb b) target)
  cfg.setIn target (swapRemove (cfg.inBb target) b)

/-- The loop over `in_bb`. The count shrinks while it runs, so that no more places than it has at first are visited. -/
def unlinkIns (b : BBRef) (cfg : Cfg) : Cfg :=
  overPlaces (·.inBb b) (unlinkTarget · b) (cfg.inBb b).length 0 cfg

/-- The loop over `out_bb`. -/
def unlinkOuts (b : BBRef) (cfg : Cfg) : Cfg :=
  overPlaces (·.outBb b) (unlinkTarget b) (cfg.outBb b).length 0 cfg

/-- The pass over a block. -/
def unlinkBlock (cfg : Cfg) (b : BBRef) : Cfg :=
  if cfg.reachable b = true then cfg
  else unlinkOuts b (unlinkIns b cfg)

/-- The loop over the chain at a block and what follows it: a block without the flag is taken out. -/
def unlinkChainFrom (reachable : BBRef → Bool) (b : BBRef) : List BBRef → List BBRef
  | [] => [b]
  | next :: rest =>
      if reachable next then b :: unlinkChainFrom reachable next rest else unlinkChainFrom reachable b rest

/-- The loop over the chain. Its first block stays. -/
def unlinkChain (reachable : BBRef → Bool) : List BBRef → List BBRef
  | [] => []
  | entry :: rest => unlinkChainFrom reachable entry rest

/-- `unlink_unused_bblocks`. -/
def unlinkUnusedBblocks (cfg : Cfg) : Cfg :=
  let cfg := cfg.setChain (unlinkChain cfg.reachable cfg.chain)
  cfg.bblocks.tail.foldl unlinkBlock cfg

end MonoRuntime.UnlinkBlocks
