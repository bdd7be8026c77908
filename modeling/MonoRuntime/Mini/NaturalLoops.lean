/-
Module: MonoRuntime.Mini.NaturalLoops
Purpose: `mono_compute_natural_loops` of `mini/dominators.c`, up to the computation of `loop_body_start`, which reads
  the result. Every back edge adds the blocks that lead to its source to `loop_blocks` of its header. Blocks with a
  number are marked in a bit set; the entry and the blocks that were not reached, whose `dfn` is 0, are looked up in
  the list. A loop that does not end is the result `none`.
Trusted boundary: human-reviewed translation of the source
Main exports: LoopGraph
-/
import MonoRuntime.Mini.Dominators

namespace MonoRuntime.Dominators

variable {n : Nat} [NeZero n]

/-- The blocks of a method with the edges between them and the dominator sets. A block that was not reached has only
such blocks before it, and a block that was reached has only such blocks behind it. -/
structure LoopGraph (n : Nat) [NeZero n] extends DomGraph n where
  outBb : Fin n → List (Fin n)
  linked : ∀ b h, h ∈ outBb b ↔ .bb b ∈ inBb h
  numUnreached : Nat
  unreachedInBb : Nat → List Nat
  unreached_lt : ∀ b u, .unreached u ∈ inBb b → u < numUnreached
  unreachedInBb_lt : ∀ b < numUnreached, ∀ u ∈ unreachedInBb b, u < numUnreached
  dominators : Fin n → Finset (Fin n)

/-- `bb->in_bb`, of any block. -/
def LoopGraph.inBbOf (cfg : LoopGraph n) : BbRef n → List (BbRef n)
  | .bb b => cfg.inBb b
  | .unreached u => (cfg.unreachedInBb u).map .unreached

/-- What the walk over a loop body changes: `h->loop_blocks`, the fields `nesting` and `in_loop_blocks`. -/
structure BodyState (n : Nat) where
  loopBlocks : List (BbRef n)
  nesting : BbRef n → Nat
  inLoopBlocks : Finset (Fin n)

/-- Whether a block is in the loop already: `(b->dfn && mono_bitset_test_fast (in_loop_blocks, b->dfn)) || (!b->dfn &&
g_list_find (h->loop_blocks, b))`. -/
def BodyState.inLoop (s : BodyState n) (b : BbRef n) : Bool :=
  (b.dfn ≠ 0 && b.dfn ∈ s.inLoopBlocks) || (b.dfn = 0 && b ∈ s.loopBlocks)

/-- Put a block at the front of the loop. -/
def BodyState.prepend (s : BodyState n) (b : BbRef n) : BodyState n :=
  { s with
    loopBlocks := b :: s.loopBlocks
    nesting := Function.update s.nesting b (s.nesting b + 1) }

/-- Set the bit of a block, if it has one. -/
def setBit (inLoopBlocks : Finset (Fin n)) (b : BbRef n) : Finset (Fin n) :=
  if b.dfn ≠ 0 then insert b.dfn inLoopBlocks else inLoopBlocks

/-- Add a block of the body. -/
def BodyState.add (s : BodyState n) (b : BbRef n) : BodyState n :=
  { s.prepend b with inLoopBlocks := setBit s.inLoopBlocks b }

/-- Put a predecessor in front of the blocks to do, unless it is the header or in the loop. -/
def pushPrev (h : Fin n) (s : BodyState n) (todo : List (BbRef n)) (prev : BbRef n) : List (BbRef n) :=
  if prev ≠ .bb h ∧ ¬ s.inLoop prev then prev :: todo else todo

/-- `while (todo)`. -/
def todoLoop (cfg : LoopGraph n) (h : Fin n) : (fuel : Nat) → List (BbRef n) → BodyState n → Option (BodyState n)
  | 0, _, _ => none
  | _ + 1, [], s => some s
  | fuel + 1, cb :: todo, s =>
      if s.inLoop cb then todoLoop cfg h fuel todo s
      else todoLoop cfg h fuel ((cfg.inBbOf cb).foldl (pushPrev h (s.add cb)) todo) (s.add cb)

/-- The fields `loop_blocks` and `nesting`. -/
structure LoopState (n : Nat) where
  loopBlocks : Fin n → List (BbRef n)
  nesting : BbRef n → Nat

/-- The state before the walk: the bits of the blocks that are in the loop. -/
def LoopState.body (s : LoopState n) (h : Fin n) : BodyState n :=
  { loopBlocks := s.loopBlocks h
    nesting := s.nesting
    inLoopBlocks := (s.loopBlocks h).foldl setBit ∅ }

/-- Add the header, if it is not there. -/
def BodyState.addHeader (s : BodyState n) (h : Fin n) : BodyState n :=
  if s.inLoop (.bb h) then s else s.prepend (.bb h)

/-- Enough rounds: the source of the back edge, and every predecessor once. -/
def todoMoves (cfg : LoopGraph n) : Nat :=
  ((List.finRange n).map fun b => (cfg.inBb b).length).sum +
    ((List.range cfg.numUnreached).map fun u => (cfg.unreachedInBb u).length).sum + 2

/-- The body of the loop over the edges of a block. -/
def processEdge (cfg : LoopGraph n) (b : Fin n) (s : LoopState n) (h : Fin n) : Option (LoopState n) :=
  if b ≠ h ∧ h ∈ cfg.dominators b then
    if .bb b ∈ s.loopBlocks h then some s
    else
      (todoLoop cfg h (todoMoves cfg) [.bb b] (s.body h)).map fun body =>
        { loopBlocks := Function.update s.loopBlocks h (body.addHeader h).loopBlocks
          nesting := (body.addHeader h).nesting }
  else some s

/-- `mono_compute_natural_loops`. -/
def monoComputeNaturalLoops (cfg : LoopGraph n) : Option (LoopState n) :=
  (List.finRange n).foldlM (fun s b => (cfg.outBb b).foldlM (processEdge cfg b) s)
    { loopBlocks := fun _ => [], nesting := fun _ => 0 }

end MonoRuntime.Dominators
