/-
Module: MonoRuntime.Mini.DominanceFrontier
Purpose: `compute_dominance_frontier` and `mono_compile_iterated_dfrontier` of `mini/dominators.c`. The frontiers are
  found by walking up the immediate dominators from the predecessors of every block where edges meet; the iterated
  frontier takes in the frontiers of its members until it does not grow. A `NULL` dereference and a loop that does not
  end are the result `none`.
Trusted boundary: human-reviewed translation of the source
Main exports: computeDominanceFrontier
-/
import MonoRuntime.Mini.Dominators
import Mathlib.Data.Finset.Card

namespace MonoRuntime.Dominators

variable {n : Nat} [NeZero n]

/-- The sets `bb->dfrontier`. -/
abbrev Frontiers (n : Nat) := Fin n → Finset (Fin n)

/-- `mono_bitset_set_fast (p->dfrontier, bb->dfn)`. -/
def Frontiers.set (dfrontier : Frontiers n) (p bb : Fin n) : Frontiers n :=
  Function.update dfrontier p (insert bb (dfrontier p))

/-- Put the block into the frontiers of `p` and of the blocks above it, up to the immediate dominator of the block.
Blocks that were not reached have no `dfrontier`. -/
def walkUp (idom : Fin n → Option (BbRef n)) (bb : Fin n) :
    (fuel : Nat) → Option (BbRef n) → Frontiers n → Option (Frontiers n)
  | 0, _, _ => none
  | fuel + 1, p, dfrontier =>
      if p = idom bb then some dfrontier
      else
        match p with
        | some (.bb p) => walkUp idom bb fuel (idom p) (dfrontier.set p bb)
        | _ => none

/-- The body of the loop over the predecessors. -/
def walkFrom (idom : Fin n → Option (BbRef n)) (bb : Fin n) (dfrontier : Frontiers n) (p : BbRef n) :
    Option (Frontiers n) :=
  if hasDfn p then walkUp idom bb (n + 1) (some p) dfrontier
  else some dfrontier

/-- The body of the loop over the blocks. -/
def frontierStep (cfg : DomGraph n) (idom : Fin n → Option (BbRef n)) (dfrontier : Frontiers n) (bb : Fin n) :
    Option (Frontiers n) :=
  if (cfg.inBb bb).length > 1 then (cfg.inBb bb).foldlM (walkFrom idom bb) dfrontier
  else some dfrontier

/-- `compute_dominance_frontier`. -/
def computeDominanceFrontier (cfg : DomGraph n) (idom : Fin n → Option (BbRef n)) : Option (Frontiers n) :=
  (List.finRange n).foldlM (frontierStep cfg idom) fun _ => ∅

/-- `df_set` on two sets. -/
def dfSet (dfrontier : Frontiers n) (dest set : Finset (Fin n)) : Finset (Fin n) :=
  (List.finRange n).foldl (fun dest i => if i ∈ set then dest ∪ dfrontier i else dest) dest

/-- `df_set` of a set to itself: the members that it adds are looked at too, if their number is still to come. -/
def dfSetSelf (dfrontier : Frontiers n) (result : Finset (Fin n)) : Finset (Fin n) :=
  (List.finRange n).foldl (fun result i => if i ∈ result then result ∪ dfrontier i else result) result

/-- The loop of `mono_compile_iterated_dfrontier`. -/
def dfrontierLoop (dfrontier : Frontiers n) : (fuel : Nat) → (count2 : Nat) → Finset (Fin n) → Option (Finset (Fin n))
  | 0, _, _ => none
  | fuel + 1, count2, result =>
      let count1 := count2
      let result := dfSetSelf dfrontier result
      let count2 := result.card
      if count2 > count1 then dfrontierLoop dfrontier fuel count2 result else some result

/-- `mono_compile_iterated_dfrontier`. Every round but the last adds a block. -/
def monoCompileIteratedDfrontier (dfrontier : Frontiers n) (set : Finset (Fin n)) : Option (Finset (Fin n)) :=
  let result := dfSet dfrontier ∅ set
  dfrontierLoop dfrontier (n + 1) result.card result

end MonoRuntime.Dominators
