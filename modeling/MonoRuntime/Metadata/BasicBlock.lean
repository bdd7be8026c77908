/-
Module: MonoRuntime.Metadata.BasicBlock
Purpose: The basic blocks of an IL method in `metadata/mono-basic-block.c`: a list of blocks in code
  order, a red-black tree over them with parent pointers, and `bb_split`, which cuts the block that
  contains a target. The memory is one map per field, from the number of a block. A `NULL` dereference
  and a failed assertion are the result `none`.
Trusted boundary: human-reviewed translation of the source
Main exports: BbLinks
-/
import MonoRuntime.Lib.RedBlack
import Mathlib.Algebra.Order.Ring.Int

namespace MonoRuntime.BasicBlock

open RedBlack (Colour)

/-- A pointer to a block. -/
abbrev Ptr := Nat

/-! ### The tree -/

/-- The fields of the blocks that make up the tree, and `*root`. -/
structure BbLinks where
  left : Ptr → Option Ptr
  right : Ptr → Option Ptr
  parent : Ptr → Option Ptr
  colour : Ptr → Colour
  root : Ptr

namespace BbLinks

def setLeft (h : BbLinks) (bb : Ptr) (value : Option Ptr) : BbLinks :=
  { h with left := Function.update h.left bb value }

def setRight (h : BbLinks) (bb : Ptr) (value : Option Ptr) : BbLinks :=
  { h with right := Function.update h.right bb value }

def setParent (h : BbLinks) (bb : Ptr) (value : Option Ptr) : BbLinks :=
  { h with parent := Function.update h.parent bb value }

def setColour (h : BbLinks) (bb : Ptr) (colour : Colour) : BbLinks :=
  { h with colour := Function.update h.colour bb colour }

end BbLinks

/-- `bb_grandparent`. -/
def bbGrandparent (h : BbLinks) (bb : Ptr) : Option Ptr :=
  match h.parent bb with
  | some parent => h.parent parent
  | none => none

/-- `bb_uncle`. -/
def bbUncle (h : BbLinks) (bb : Ptr) : Option Ptr :=
  match bbGrandparent h bb with
  | none => none
  | some gp => if h.parent bb = h.left gp then h.right gp else h.left gp

/-- `change_node`: put `toBb` into the place of `fromBb`. -/
def changeNode (h : BbLinks) (fromBb toBb : Ptr) : BbLinks :=
  let h' :=
    match h.parent fromBb with
    | some parent =>
        if h.left parent = some fromBb then h.setLeft parent (some toBb)
        else h.setRight parent (some toBb)
    | none => { h with root := toBb }
  h'.setParent toBb (h.parent fromBb)

/-- `rotate_right`. -/
def rotateRight (h : BbLinks) (parent : Ptr) : Option BbLinks :=
  match h.left parent with
  | none => none
  | some bb =>
      let h :=
        match h.right bb with
        | some child => (h.setLeft parent (some child)).setParent child (some parent)
        | none => h.setLeft parent none
      let h := changeNode (h.setRight bb (some parent)) parent bb
      some (h.setParent parent (some bb))

/-- `rotate_left`. -/
def rotateLeft (h : BbLinks) (bb : Ptr) : Option BbLinks :=
  match h.right bb with
  | none => none
  | some other =>
      let h :=
        match h.left other with
        | some child => (h.setRight bb (some child)).setParent child (some bb)
        | none => h.setRight bb none
      let h := changeNode (h.setLeft other (some bb)) bb other
      some (h.setParent bb (some other))

/-- If `bb` is an inner grandchild, rotate it above its parent; the former parent is `bb` from then on. -/
def straighten (h : BbLinks) (bb : Ptr) : Option (BbLinks × Ptr) := do
  let parent ← h.parent bb
  let grandparent ← bbGrandparent h bb
  if h.right parent = some bb ∧ h.left grandparent = some parent then
    let h ← rotateLeft h parent
    let bb ← h.left bb
    pure (h, bb)
  else if h.left parent = some bb ∧ h.right grandparent = some parent then
    let h ← rotateRight h parent
    let bb ← h.right bb
    pure (h, bb)
  else pure (h, bb)

/-- The last rotation of a repair, of the grandparent. -/
def rotateGrandparent (h : BbLinks) (bb : Ptr) : Option BbLinks := do
  let grandparent ← bbGrandparent h bb
  let parent ← h.parent bb
  let h := (h.setColour parent .black).setColour grandparent .red
  if h.left parent = some bb ∧ h.left grandparent = some parent then rotateRight h grandparent
  else rotateLeft h grandparent

/-- Both rotations of a repair. -/
def rotateRepair (h : BbLinks) (bb : Ptr) : Option BbLinks :=
  match straighten h bb with
  | none => none
  | some (h, bb) => rotateGrandparent h bb

/-- The uncle of `bb`, if it is red. -/
def redUncle (h : BbLinks) (bb : Ptr) : Option Ptr :=
  match bbUncle h bb with
  | some uncle => if h.colour uncle = .red then some uncle else none
  | none => none

/-- The second loop of `bb_insert`: repair the tree from `bb` up. -/
def fixLoop : (fuel : Nat) → BbLinks → Ptr → Option BbLinks
  | 0, _, _ => none
  | fuel + 1, h, bb =>
      match h.parent bb with
      | none => some (h.setColour bb .black)
      | some parent =>
          if h.colour parent = .black then some h
          else
            match redUncle h bb with
            | some uncle =>
                match bbGrandparent h bb with
                | none => none
                | some grandparent =>
                    fixLoop fuel
                      (((h.setColour parent .black).setColour uncle .black).setColour grandparent .red)
                      grandparent
            | none => rotateRepair h bb

/-- The first loop of `bb_insert`: hang `bb` below the leaf where it belongs, which is returned. -/
def insertLoop (start : Ptr → Int) (bb : Ptr) : (fuel : Nat) → BbLinks → Ptr → Option (BbLinks × Ptr)
  | 0, _, _ => none
  | fuel + 1, h, parent =>
      if start bb < start parent then
        match h.left parent with
        | none => some (h.setLeft parent (some bb), parent)
        | some child => insertLoop start bb fuel h child
      else
        match h.right parent with
        | none => some (h.setRight parent (some bb), parent)
        | some child => insertLoop start bb fuel h child

/-- `bb_insert`. The tree has at most `fuel` blocks before. -/
def bbInsert (start : Ptr → Int) (fuel : Nat) (h : BbLinks) (bb : Ptr) : Option BbLinks :=
  match insertLoop start bb fuel h h.root with
  | none => none
  | some (h, parent) =>
      fixLoop (fuel + 1) ((h.setParent bb (some parent)).setColour bb .red) bb

/-! ### Splitting -/

/-- All blocks. `stop` is the field `end`, and the blocks allocated so far are those below `count`. -/
structure BbHeap where
  links : BbLinks
  next : Ptr → Option Ptr
  outBb : Ptr → List Ptr
  start : Ptr → Int
  stop : Ptr → Int
  dead : Ptr → Bool
  count : Nat

/-- The errors `mono_error_set_not_verifiable` is called with. -/
inductive BbError where
  | invalidInstructionTarget (target : BitVec 32)
  | invalidInstruction (byte : BitVec 8)
  | invalidSwitchInstruction (cliAddr : BitVec 32)
  | invalidLastInstruction
deriving DecidableEq, Repr

/-- `bb_unlink`. -/
def bbUnlink (h : BbHeap) (fromBb toBb : Ptr) : BbHeap :=
  { h with outBb := Function.update h.outBb fromBb ((h.outBb fromBb).erase toBb) }

/-- `bb_link`. -/
def bbLink (h : BbHeap) (fromBb toBb : Ptr) : BbHeap :=
  if toBb ∈ h.outBb fromBb then h
  else { h with outBb := Function.update h.outBb fromBb (toBb :: h.outBb fromBb) }

/-- `bb_idx_is_contained`. -/
def bbIdxIsContained (h : BbHeap) (bb : Ptr) (target : Int) : Bool :=
  h.start bb ≤ target ∧ target < h.stop bb

/-- An `int` where C compares it with a `guint`. -/
def asGuint (value : Int) : Nat :=
  (BitVec.ofInt 32 value).toNat

/-- The child of a block on the side of the target. -/
def searchChild (h : BbHeap) (target : BitVec 32) (first : Ptr) : Option Ptr :=
  if asGuint (h.start first) > target.toNat then h.links.left first else h.links.right first

/-- Look for the target in the tree, from a block down. -/
def searchLoop (h : BbHeap) (target : BitVec 32) : (fuel : Nat) → Ptr → Option (Option Ptr)
  | 0, _ => none
  | fuel + 1, first =>
      if bbIdxIsContained h first target.toInt then some (some first)
      else
        match searchChild h target first with
        | none => some none
        | some child => searchLoop h target fuel child

/-- The block that contains the target: the hint, the block after it, or what the tree says. -/
def findBb (h : BbHeap) (hint : Ptr) (target : BitVec 32) : Option (Option Ptr) :=
  if bbIdxIsContained h hint target.toInt then some (some hint)
  else
    match h.next hint with
    | some next =>
        if bbIdxIsContained h next target.toInt then some (some next)
        else searchLoop h target (h.count + 1) h.links.root
    | none => searchLoop h target (h.count + 1) h.links.root

/-- A new block, taken out of the end of `first`. It is not in the tree yet. -/
def cutBb (h : BbHeap) (first : Ptr) (target : BitVec 32) : BbHeap :=
  let res := h.count
  { links :=
      { h.links with
        left := Function.update h.links.left res none
        right := Function.update h.links.right res none
        parent := Function.update h.links.parent res none
        colour := Function.update h.links.colour res .red }
    next := Function.update (Function.update h.next res (h.next first)) first (some res)
    outBb := Function.update (Function.update h.outBb res (h.outBb first)) first []
    start := Function.update h.start res target.toInt
    stop := Function.update (Function.update h.stop res (h.stop first)) first target.toInt
    dead := Function.update h.dead res true
    count := h.count + 1 }

/-- `bb_split`. `NULL` comes with the error. -/
def bbSplit (h : BbHeap) (hint : Ptr) (target : BitVec 32) (linkBlocks : Bool) :
    Option (BbHeap × Except BbError Ptr) :=
  match findBb h hint target with
  | none => none
  | some none => some (h, .error (.invalidInstructionTarget target))
  | some (some first) =>
      if asGuint (h.start first) = target.toNat then some (h, .ok first)
      else
        let res := h.count
        let cut := cutBb h first target
        let cut := if linkBlocks then bbLink cut first res else cut
        match bbInsert cut.start h.count cut.links res with
        | none => none
        | some links => some ({ cut with links := links }, .ok res)

/-- The single block `[0, code_size)` that `mono_basic_block_split` starts with, number 0. -/
def initBb (codeSize : Int) : BbHeap where
  links :=
    { left := fun _ => none
      right := fun _ => none
      parent := fun _ => none
      colour := fun _ => .black
      root := 0 }
  next := fun _ => none
  outBb := fun _ => []
  start := fun _ => 0
  stop := fun _ => codeSize
  dead := fun _ => false
  count := 1

end MonoRuntime.BasicBlock
