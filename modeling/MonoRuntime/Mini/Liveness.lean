/-
Module: MonoRuntime.Mini.Liveness
Purpose: Liveness analysis of `mini/liveness.c`: the gen and kill sets of a basic block, and the worklist
  iteration of `mono_analyze_liveness` up to the live sets of all blocks. The blocks of
  `cfg->bblocks` are known by their `dfn`, and a bit set of variables is a `Finset`. The live ranges and
  spill costs that the same functions collect do not influence the sets and are left out.
Trusted boundary: human-reviewed translation of the source
Main exports: LivenessInst
-/
import Mathlib.Data.Finset.Union
import Mathlib.Data.Fintype.Card

namespace MonoRuntime.Liveness

variable {ν : Type} [DecidableEq ν]

/-! ### Gen and kill sets -/

/-- The opcodes the analysis tells apart. -/
inductive LivenessOp (ν : Type) where
  | opNop
  | opLdaddr (var : ν)
  | storeMembase
  | other

/-- An instruction, with the registers its `spec` gives a meaning to. -/
structure LivenessInst (ν : Type) where
  op : LivenessOp ν
  sregs : List Nat
  dreg : Option Nat

/-- The sets of a block. -/
structure GenKill (ν : Type) where
  genSet : Finset ν
  killSet : Finset ν

/-- A variable is used: it is live at the start of the block, unless the block assigned it before. -/
def GenKill.use (sets : GenKill ν) (idx : ν) : GenKill ν :=
  if idx ∈ sets.killSet then sets else { sets with genSet := insert idx sets.genSet }

/-- Use the variable of a register, if `get_vreg_to_inst` finds one. -/
def GenKill.useVreg (vregToInst : Nat → Option ν) (sets : GenKill ν) (sreg : Nat) : GenKill ν :=
  match vregToInst sreg with
  | some idx => sets.use idx
  | none => sets

/-- The destination register: a store uses it as the base of the address, others assign it. -/
def GenKill.dest (vregToInst : Nat → Option ν) (sets : GenKill ν) (ins : LivenessInst ν) :
    GenKill ν :=
  match ins.dreg with
  | none => sets
  | some dreg =>
      match vregToInst dreg with
      | none => sets
      | some idx =>
          match ins.op with
          | .storeMembase => sets.use idx
          | _ => { sets with killSet := insert idx sets.killSet }

/-- One round of `analyze_liveness_bb`. Source registers come first, so that a move of a register to
itself is handled correctly. -/
def analyzeLivenessIns (vregToInst : Nat → Option ν) (sets : GenKill ν) (ins : LivenessInst ν) :
    GenKill ν :=
  match ins.op with
  | .opNop => sets
  | .opLdaddr var =>
      (ins.sregs.foldl (GenKill.useVreg vregToInst) (sets.use var)).dest vregToInst ins
  | _ => (ins.sregs.foldl (GenKill.useVreg vregToInst) sets).dest vregToInst ins

/-- `analyze_liveness_bb`, on sets that are empty at first. -/
def analyzeLivenessBb (vregToInst : Nat → Option ν) (code : List (LivenessInst ν)) : GenKill ν :=
  code.foldl (analyzeLivenessIns vregToInst) { genSet := ∅, killSet := ∅ }

/-! ### The worklist iteration -/

/-- The blocks of `cfg->bblocks` with their edges and sets. A predecessor `none` stands for a block that is
not in `cfg->bblocks`, whose `gen_set` is `NULL`. -/
structure LivenessGraph (n : Nat) (ν : Type) where
  outBb : Fin n → List (Fin n)
  inBb : Fin n → List (Option (Fin n))
  sets : Fin n → GenKill ν
  /-- Edges are entered at both ends. -/
  in_of_out : ∀ b, ∀ s ∈ outBb b, some b ∈ inBb s

variable {n : Nat}

/-- The graph with the sets that the loop of `mono_analyze_liveness` over all blocks computes from their code. -/
def LivenessGraph.analyzeBlocks (cfg : LivenessGraph n ν) (vregToInst : Nat → Option ν)
    (code : Fin n → List (LivenessInst ν)) : LivenessGraph n ν :=
  { cfg with sets := fun bb => analyzeLivenessBb vregToInst (code bb) }

/-- The variables of the iteration. The head of `worklist` is its top, and `none` in `liveInSet` is
`NULL`. -/
structure LivenessState (n : Nat) (ν : Type) where
  worklist : List (Fin n)
  inWorklist : Fin n → Bool
  liveInSet : Fin n → Option (Finset ν)
  liveOutSet : Fin n → Finset ν

/-- The live-in set for a live-out set: take `kill_set` away and add `gen_set`. -/
def LivenessGraph.transfer (cfg : LivenessGraph n ν) (bb : Fin n) (liveOut : Finset ν) : Finset ν :=
  liveOut \ (cfg.sets bb).killSet ∪ (cfg.sets bb).genSet

/-- Every block is put into the worklist, the last one at the top. -/
def LivenessState.init : LivenessState n ν where
  worklist := (List.finRange n).reverse
  inWorklist := fun _ => true
  liveInSet := fun _ => none
  liveOutSet := fun _ => ∅

/-- Add the live-in set of a successor, which is created here if the successor has none yet. -/
def joinOut (cfg : LivenessGraph n ν) (bb : Fin n) (s : LivenessState n ν) (outBb : Fin n) :
    LivenessState n ν :=
  match s.liveInSet outBb with
  | some liveIn =>
      { s with liveOutSet := Function.update s.liveOutSet bb (s.liveOutSet bb ∪ liveIn) }
  | none =>
      let liveIn := cfg.transfer outBb (s.liveOutSet outBb)
      { s with
        liveInSet := Function.update s.liveInSet outBb (some liveIn)
        liveOutSet := Function.update s.liveOutSet bb (s.liveOutSet bb ∪ liveIn) }

/-- Put a predecessor at the top of the worklist, unless it is in there. -/
def pushIn (s : LivenessState n ν) (inBb : Option (Fin n)) : LivenessState n ν :=
  match inBb with
  | none => s
  | some inBb =>
      if s.inWorklist inBb then s
      else
        { s with
          worklist := inBb :: s.worklist
          inWorklist := Function.update s.inWorklist inBb true }

/-- Recompute the live-in set of a block. -/
def refreshLiveIn (cfg : LivenessGraph n ν) (bb : Fin n) (s : LivenessState n ν) :
    LivenessState n ν :=
  { s with
    liveInSet := Function.update s.liveInSet bb (some (cfg.transfer bb (s.liveOutSet bb))) }

/-- The live-out set of the block changed: recompute its live-in set and queue its predecessors. -/
def propagate (cfg : LivenessGraph n ν) (bb : Fin n) (s : LivenessState n ν) : LivenessState n ν :=
  (cfg.inBb bb).foldl pushIn (refreshLiveIn cfg bb s)

/-- Work on a block that was taken from the worklist. -/
def processBb (cfg : LivenessGraph n ν) (bb : Fin n) (s : LivenessState n ν) : LivenessState n ν :=
  if cfg.outBb bb = [] then s
  else
    let s' := (cfg.outBb bb).foldl (joinOut cfg bb) s
    if s.liveInSet bb = none ∨ s.liveOutSet bb ≠ s'.liveOutSet bb then propagate cfg bb s'
    else s'

/-- One round of the loop. -/
def livenessStep (cfg : LivenessGraph n ν) (s : LivenessState n ν) : LivenessState n ν :=
  match s.worklist with
  | [] => s
  | bb :: rest =>
      processBb cfg bb
        { s with worklist := rest, inWorklist := Function.update s.inWorklist bb false }

/-- The loop, with at most `fuel` rounds. -/
def livenessLoop (cfg : LivenessGraph n ν) : Nat → LivenessState n ν → LivenessState n ν
  | 0, s => s
  | fuel + 1, s =>
      if s.worklist = [] then s else livenessLoop cfg fuel (livenessStep cfg s)

/-- Compute `live_in_set` for a block that was skipped. -/
def LivenessState.finalLiveIn (cfg : LivenessGraph n ν) (s : LivenessState n ν) (bb : Fin n) :
    Finset ν :=
  match s.liveInSet bb with
  | some liveIn => liveIn
  | none => cfg.transfer bb (s.liveOutSet bb)

/-- All variables that some block generates. -/
def LivenessGraph.generated (cfg : LivenessGraph n ν) : Finset ν :=
  Finset.univ.biUnion fun bb => (cfg.sets bb).genSet

/-- Enough rounds for the loop: a block causes others to be queued when its live-in set is created and
when its live-out set grows. -/
def LivenessGraph.rounds (cfg : LivenessGraph n ν) : Nat :=
  n + n * (n * (cfg.generated.card + 1))

/-- The live sets `mono_analyze_liveness` leaves, in and out. -/
def analyzeLiveness (cfg : LivenessGraph n ν) : (Fin n → Finset ν) × (Fin n → Finset ν) :=
  let s := livenessLoop cfg cfg.rounds LivenessState.init
  (s.finalLiveIn cfg, s.liveOutSet)

end MonoRuntime.Liveness
