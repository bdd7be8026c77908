/-
Module: MonoRuntime.Mini.Dominators
Purpose: `compute_dominators` of `mini/dominators.c`: the table of immediate dominators is improved in
  passes over all blocks, by intersecting the predecessors with two fingers, until nothing changes; the
  dominator sets are read off it. A numbered block is known by its `dfn`; predecessors that the traversal
  did not reach have `dfn` 0 as well. `NULL` in the table is `none`, and a failed assertion, a `NULL`
  dereference and a loop that does not end are the result `none`.
Trusted boundary: human-reviewed translation of the source
Main exports: BbRef
-/
import Mathlib.Algebra.Order.Ring.Int
import Mathlib.Data.Finset.Basic
import Mathlib.Data.List.FinRange

namespace MonoRuntime.Dominators

/-- A pointer to a block: one of `cfg->bblocks`, by its number, or one that was not reached. -/
inductive BbRef (n : Nat) where
  | bb (dfn : Fin n)
  | unreached (blockNum : Nat)
deriving DecidableEq, Repr

variable {n : Nat} [NeZero n]

/-- `bb->dfn`. -/
def BbRef.dfn : BbRef n → Fin n
  | .bb dfn => dfn
  | .unreached _ => 0

/-- `cfg->bblocks [0]`. -/
def entryBb : BbRef n := .bb 0

/-- `HAS_DFN`. -/
def hasDfn (bb : BbRef n) : Prop :=
  bb.dfn ≠ 0 ∨ bb = entryBb

instance (bb : BbRef n) : Decidable (hasDfn bb) :=
  inferInstanceAs (Decidable (_ ∨ _))

/-- The numbered blocks with their predecessors. Every block but the entry was reached through a numbered
predecessor with a lower number. -/
structure DomGraph (n : Nat) [NeZero n] where
  inBb : Fin n → List (BbRef n)
  reached : ∀ b ≠ 0, ∃ p < b, .bb p ∈ inBb b

/-- The table `doms`. -/
abbrev Doms (n : Nat) := Fin n → Option (BbRef n)

/-- Move the finger with the higher number up, until the fingers meet; `fuel` bounds the moves. -/
def intersect (doms : Doms n) : (fuel : Nat) → (f1 f2 : BbRef n) → Option (BbRef n)
  | 0, _, _ => none
  | fuel + 1, f1, f2 =>
      if f1 = f2 then some f1
      else if f1.dfn < f2.dfn then
        match doms f2.dfn with
        | some f2 => intersect doms fuel f1 f2
        | none => none
      else
        match doms f1.dfn with
        | some f1 => intersect doms fuel f1 f2
        | none => none

/-- Enough moves for the two fingers: each walks over at most all numbers, and one more step leads from an
unreached block to the entry. -/
def fingerMoves (n : Nat) : Nat :=
  2 * n + 2

/-- One round of the second loop over the predecessors. -/
def intersectStep (doms : Doms n) (idom inBb : BbRef n) : Option (BbRef n) :=
  if hasDfn inBb ∧ (doms inBb.dfn).isSome then intersect doms (fingerMoves n) idom inBb
  else some idom

/-- The predecessors from the first one on that is another block and has an entry in the table. -/
def fromFirst (doms : Doms n) (bb : Fin n) (inBb : List (BbRef n)) : List (BbRef n) :=
  inBb.dropWhile fun p => !(p ≠ .bb bb && (doms p.dfn).isSome)

/-- The new immediate dominator of a block; `some none` is `NULL`, which only the entry may have. -/
def newIdom (cfg : DomGraph n) (doms : Doms n) (bb : Fin n) : Option (Option (BbRef n)) :=
  match fromFirst doms bb (cfg.inBb bb) with
  | [] => if bb = 0 then some none else none
  | first :: rest => ((first :: rest).foldlM (intersectStep doms) first).map some

/-- Process one block; the flag is `changed`. -/
def processBb (cfg : DomGraph n) (acc : Doms n × Bool) (bb : Fin n) : Option (Doms n × Bool) :=
  let (doms, changed) := acc
  match newIdom cfg doms bb with
  | none => none
  | some idom =>
      if idom ≠ doms bb then
        if bb = 0 then some (Function.update doms bb (some (.bb bb)), changed)
        else some (Function.update doms bb idom, true)
      else some (doms, changed)

/-- One pass over all blocks. -/
def domPass (cfg : DomGraph n) (doms : Doms n) : Option (Doms n × Bool) :=
  (List.finRange n).foldlM (processBb cfg) (doms, false)

/-- Passes until nothing changes, at most `fuel` of them. -/
def domLoop (cfg : DomGraph n) : (fuel : Nat) → Doms n → Option (Doms n)
  | 0, _ => none
  | fuel + 1, doms =>
      match domPass cfg doms with
      | none => none
      | some (doms, true) => domLoop cfg fuel doms
      | some (doms, false) => some doms

/-- The table before the first pass. -/
def initDoms : Doms n :=
  Function.update (fun _ => none) 0 (some entryBb)

/-- Set the bits of `cbb` and of the blocks above it, up to one with `dfn` 0. -/
def setDominators (doms : Doms n) : (fuel : Nat) → BbRef n → Finset (Fin n) → Option (Finset (Fin n))
  | 0, _, _ => none
  | fuel + 1, cbb, dominators =>
      if cbb.dfn = 0 then some dominators
      else
        match doms cbb.dfn with
        | none => none
        | some next => setDominators doms fuel next (insert cbb.dfn dominators)

/-- `bb->dominators`. -/
def dominatorsOf (doms : Doms n) (bb : Fin n) : Option (Finset (Fin n)) :=
  if bb = 0 then some (insert 0 {bb})
  else
    match doms bb with
    | none => none
    | some cbb => (setDominators doms (n + 1) cbb {bb}).map (insert 0)

/-- What `compute_dominators` leaves in the blocks. -/
structure DomResult (n : Nat) where
  dominators : Fin n → Finset (Fin n)
  idom : Fin n → Option (BbRef n)
  dominated : BbRef n → List (Fin n)

/-- Read the sets off the table. The entry keeps no `idom`, and every other block is put at the front of
the `dominated` list of its own. -/
def readDominators (doms : Doms n) : Option (DomResult n) :=
  if ∀ bb, (dominatorsOf doms bb).isSome then
    some
      { dominators := fun bb => (dominatorsOf doms bb).getD ∅
        idom := fun bb => if bb = 0 then none else doms bb
        dominated := fun d =>
          ((List.finRange n).filter fun bb => bb ≠ 0 ∧ doms bb = some d).reverse }
  else none

/-- `compute_dominators`, with at most `fuel` passes. -/
def computeDominators (cfg : DomGraph n) (fuel : Nat) : Option (DomResult n) :=
  match domLoop cfg fuel initDoms with
  | none => none
  | some doms => readDominators doms

end MonoRuntime.Dominators
