/-
Module: MonoRuntime.Mini.AbcBlocks
Purpose: `process_block` of `abcremoval.c`: the walk over the dominator tree that adds facts to the relation lists and
  removes them again. Every relation is a cell of memory with its `next` pointer; the head of the list of a variable is the
  cell with the number of the variable. An allocation takes the next cell, and so do the two relations in a frame.
Trusted boundary: human-reviewed translation of the source; cells are not used again
Main exports: Memory
-/
import Mathlib.Algebra.Order.Ring.Int
import MonoRuntime.Mini.AbcRemoval

namespace MonoRuntime.Abc

variable {n : Nat}

/-! ### Relations in memory -/

/-- A relation with its `next` pointer. -/
@[ext] structure Cell (n : Nat) where
  relation : SummarizedValueRelation n
  next : Option Nat

/-- The cells, of which the ones below `top` are in use. -/
structure Memory (n : Nat) where
  cell : Nat → Cell n
  top : Nat

/-- Write to a `next` pointer. -/
def Memory.setNext (memory : Memory n) (address : Nat) (next : Option Nat) : Memory n :=
  { memory with cell := Function.update memory.cell address { memory.cell address with next := next } }

/-- A new relation, with no next one. Its cell is the one that was `top`. -/
def Memory.alloc (memory : Memory n) (relation : SummarizedValueRelation n) : Memory n :=
  { cell := Function.update memory.cell memory.top { relation := relation, next := none }, top := memory.top + 1 }

/-- The relations from a pointer on. -/
def Memory.relationsFrom (memory : Memory n) : Nat → Option Nat → List (SummarizedValueRelation n)
  | 0, _ => []
  | _, none => []
  | fuel + 1, some address =>
      (memory.cell address).relation :: memory.relationsFrom fuel (memory.cell address).next

/-- The relation graph that is in memory. -/
def Memory.evaluationArea (memory : Memory n) : EvaluationArea n where
  first variable_ := (memory.cell variable_).relation
  others variable_ := memory.relationsFrom memory.top (memory.cell variable_).next

/-- The parts of `MonoVariableRelationsEvaluationArea` that change. -/
structure EvaluationAreaState (n : Nat) where
  memory : Memory n
  contexts : Contexts n

/-! ### Changes of the lists -/

/-- `MonoAdditionalVariableRelation`, with the cell of its relation. The variable `-1` is none. -/
structure AdditionalVariableRelation (n : Nat) where
  variable_ : Option (Fin n)
  relation : Nat
  insertionPoint : Option Nat

/-- The loop of `apply_change_to_evaluation_area`: from a relation to the last one of the static definitions behind it. -/
def baseRelation (memory : Memory n) : Nat → Nat → Nat
  | 0, base => base
  | fuel + 1, base =>
      match (memory.cell base).next with
      | none => base
      | some next =>
          if (memory.cell next).relation.relationIsStaticDefinition then baseRelation memory fuel next else base

/-- `apply_change_to_evaluation_area`. A list has at most as many relations as there are cells. -/
def applyChange (memory : Memory n) (change : AdditionalVariableRelation n) :
    Memory n × AdditionalVariableRelation n :=
  match change.variable_ with
  | none => (memory, change)
  | some variable_ =>
      if (memory.cell change.relation).relation.relation ≠ .anyRelation then
        let base := baseRelation memory memory.top variable_
        ((memory.setNext change.relation (memory.cell base).next).setNext base (some change.relation),
          { change with insertionPoint := some base })
      else (memory, change)

/-- `remove_change_from_evaluation_area`. -/
def removeChange (memory : Memory n) (change : AdditionalVariableRelation n) : Memory n :=
  match change.insertionPoint with
  | none => memory
  | some base => (memory.setNext base (memory.cell change.relation).next).setNext change.relation none

/-! ### The entry condition of a block -/

/-- The conditions of branches. -/
inductive CompRelation where
  | eq | ne | le | ge | lt | gt | leUn | geUn | ltUn | gtUn
deriving DecidableEq

/-- What is looked at of the instruction in front of the last one of the block before. -/
inductive CompareIns (n : Nat) where
  | icompare (sreg1 sreg2 : Fin n)
  | icompareImm (sreg1 : Fin n) (immediate : Int)
  | other

/-- The end of the only block in front: the instruction before the last one, the condition of the last one where that is a
conditional branch, and whether the block is its true target; else it is the false one. -/
structure EntryBranch (n : Nat) where
  compare : CompareIns n
  branch : Option CompRelation
  codePath : Bool

/-- `get_relation_from_branch_instruction`. -/
def getRelationFromBranchInstruction (branch : Option CompRelation) : ValueRelation :=
  match branch with
  | none => .anyRelation
  | some .eq => .eqRelation
  | some .ne => .neRelation
  | some .le => .leRelation
  | some .leUn => .leRelation
  | some .ge => .geRelation
  | some .geUn => .geRelation
  | some .lt => .ltRelation
  | some .ltUn => .ltRelation
  | some .gt => .gtRelation
  | some .gtUn => .gtRelation

/-- A relation that was only initialized, for no variable. -/
def noRelation : Option (Fin n) × SummarizedValueRelation n :=
  (none, { relation := .anyRelation, relatedValue := .any, relationIsStaticDefinition := false })

/-- A relation of an entry condition. -/
def entryRelation (variable_ : Fin n) (relation : ValueRelation) (relatedValue : SummarizedValue n) :
    Option (Fin n) × SummarizedValueRelation n :=
  (some variable_, { relation := relation, relatedValue := relatedValue, relationIsStaticDefinition := false })

/-- `get_relations_from_previous_bb`. There is no branch where not one block is in front, or has not two instructions. -/
def getRelationsFromPreviousBb (previous : Option (EntryBranch n)) :
    (Option (Fin n) × SummarizedValueRelation n) × (Option (Fin n) × SummarizedValueRelation n) :=
  match previous with
  | none => (noRelation, noRelation)
  | some previous =>
      let branchRelation := getRelationFromBranchInstruction previous.branch
      if branchRelation ≠ .anyRelation then
        let branchRelation := if previous.codePath then branchRelation else branchRelation.negated
        match previous.compare with
        | .icompare sreg1 sreg2 =>
            (entryRelation sreg1 branchRelation (.variable_ sreg2 0),
              entryRelation sreg2 branchRelation.symmetric (.variable_ sreg1 0))
        | .icompareImm sreg1 immediate =>
            (entryRelation sreg1 branchRelation (.constant (Int32.ofInt immediate)), noRelation)
        | .other => (noRelation, noRelation)
      else (noRelation, noRelation)

/-! ### The instructions of a block -/

/-- The instructions that the walk looks at. -/
inductive Ins (n : Nat) where
  | boundsCheck (array index : Fin n)
  | checkThis (sreg1 : Fin n)
  | notNull (sreg1 : Fin n)
  | other

/-- A block. -/
structure BasicBlock (n : Nat) where
  previous : Option (EntryBranch n)
  code : List (Ins n)

/-- The list `dominated` of a block: every member with its own list, and the rest of the list. -/
inductive Dominated (n : Nat) where
  | nil
  | cons (bb : BasicBlock n) (dominated next : Dominated n)

/-- An evaluation from contexts none of which is in progress; it returns. -/
def evaluated (area : EvaluationAreaState n) (variable_ targetVariable : Fin n) : Contexts n :=
  match evaluateRelationWithTargetVariable area.memory.evaluationArea targetVariable (n + 1) variable_ none
      area.contexts with
  | .ok contexts => contexts
  | .error _ => area.contexts

/-- `remove_abc_from_inst`: the area behind it, and whether the instruction was nullified. That is done only where removals
are reported. -/
def removeAbcFromInst (report : Bool) (area : EvaluationAreaState n) (arrayVariable indexVariable : Fin n) :
    EvaluationAreaState n × Bool :=
  let area := { area with contexts := cleanContexts area.contexts }
  let area := { area with contexts := evaluated area indexVariable arrayVariable }
  let area := { area with contexts := evaluated area arrayVariable arrayVariable }
  let index := (area.contexts indexVariable).ranges
  let array := (area.contexts arrayVariable).ranges
  (area, decide (0 ≤ index.zero.lower ∧ (index.variable_.upper < 0 ∨ index.zero.upper < array.zero.lower)) && report)

/-- The area in the walk over the instructions, with the list `check_relations`. -/
structure BlockScan (n : Nat) where
  area : EvaluationAreaState n
  checkRelations : List (AdditionalVariableRelation n)

/-- A relation that is derived from an instruction. -/
def BlockScan.addRelation (scan : BlockScan n) (variable_ : Fin n) (relation : ValueRelation)
    (relatedValue : SummarizedValue n) : BlockScan n :=
  let memory := scan.area.memory.alloc
    { relation := relation, relatedValue := relatedValue, relationIsStaticDefinition := false }
  let applied := applyChange memory
    { variable_ := some variable_, relation := scan.area.memory.top, insertionPoint := none }
  { area := { scan.area with memory := applied.1 }, checkRelations := scan.checkRelations ++ [applied.2] }

/-- The body of the loop over the instructions. -/
def processIns (report : Bool) (scan : BlockScan n) : Ins n → BlockScan n
  | .boundsCheck arrayVar indexVar =>
      let removed := removeAbcFromInst report scan.area arrayVar indexVar
      let scan := { scan with area := removed.1 }
      if removed.2 then scan
      else
        (scan.addRelation indexVar .ltRelation (.variable_ arrayVar 0)).addRelation indexVar .geRelation (.constant 0)
  | .checkThis sreg1 =>
      let area := { scan.area with contexts := cleanContexts scan.area.contexts }
      { scan with area := { area with contexts := evaluated area sreg1 sreg1 } }
  | .notNull sreg1 => scan.addRelation sreg1 .gtRelation (.constant 0)
  | .other => scan

/-! ### The walk over the dominator tree -/

/-- The frame of `process_block` where the dominated blocks are processed. -/
structure Frame (n : Nat) where
  area : EvaluationAreaState n
  relation1 : AdditionalVariableRelation n
  relation2 : AdditionalVariableRelation n
  checkRelations : List (AdditionalVariableRelation n)

/-- The two relations of the frame, initialized, set to the entry condition of the block, and added. -/
def addEntryRelations (previous : Option (EntryBranch n)) (memory : Memory n) :
    Memory n × AdditionalVariableRelation n × AdditionalVariableRelation n :=
  let additional := getRelationsFromPreviousBb previous
  let allocated := (memory.alloc additional.1.2).alloc additional.2.2
  let first := applyChange allocated { variable_ := additional.1.1, relation := memory.top, insertionPoint := none }
  let second := applyChange first.1 { variable_ := additional.2.1, relation := memory.top + 1, insertionPoint := none }
  (second.1, first.2, second.2)

/-- `process_block` up to the dominated blocks. -/
def enterBlock (report : Bool) (bb : BasicBlock n) (area : EvaluationAreaState n) : Frame n :=
  let entry := addEntryRelations bb.previous area.memory
  let scan := bb.code.foldl (processIns report) { area := { area with memory := entry.1 }, checkRelations := [] }
  { area := scan.area, relation1 := entry.2.1, relation2 := entry.2.2, checkRelations := scan.checkRelations }

/-- `process_block` behind the dominated blocks. -/
def leaveBlock (frame : Frame n) (area : EvaluationAreaState n) : EvaluationAreaState n :=
  let memory := frame.checkRelations.foldl removeChange area.memory
  { area with memory := removeChange (removeChange memory frame.relation1) frame.relation2 }

/-- The loop over the dominated blocks. -/
def processDominated (report : Bool) : Dominated n → EvaluationAreaState n → EvaluationAreaState n
  | .nil, area => area
  | .cons bb dominated next, area =>
      let frame := enterBlock report bb area
      processDominated report next (leaveBlock frame (processDominated report dominated frame.area))

/-- `process_block`. -/
def processBlock (report : Bool) (bb : BasicBlock n) (dominated : Dominated n) (area : EvaluationAreaState n) :
    EvaluationAreaState n :=
  let frame := enterBlock report bb area
  leaveBlock frame (processDominated report dominated frame.area)

/-! ### What is to stay as it was found -/

/-- From a pointer on there is a list of relations, with their cells. -/
def Memory.Lists (memory : Memory n) : Option Nat → List (Nat × SummarizedValueRelation n) → Prop
  | none, [] => True
  | some address, (cell, relation) :: relations =>
      cell = address ∧ (memory.cell address).relation = relation ∧ memory.Lists (memory.cell address).next relations
  | _, _ => False

/-- Every variable has a list of relations; no cell is in two places of them, and all are in use. -/
structure Memory.WellFormed (memory : Memory n) (relations : Fin n → List (Nat × SummarizedValueRelation n)) : Prop where
  lists : ∀ v : Fin n, memory.Lists (some v) (relations v)
  nodup : ∀ v, ((relations v).map Prod.fst).Nodup
  disjoint : ∀ v w, v ≠ w → ((relations v).map Prod.fst).Disjoint ((relations w).map Prod.fst)
  allocated : ∀ v, ∀ cell ∈ (relations v).map Prod.fst, cell < memory.top

/-- The number of relations that the entry condition of a block puts on a variable. -/
def entryFacts (bb : BasicBlock n) (v : Fin n) : Nat :=
  let additional := getRelationsFromPreviousBb bb.previous
  [additional.1, additional.2].countP fun change => change.1 = some v ∧ change.2.relation ≠ .anyRelation

/-- The number of relations that the checks of a block put on a variable, in the area that it is entered with. -/
def checkFacts (report : Bool) (bb : BasicBlock n) (area : EvaluationAreaState n) (v : Fin n) : Nat :=
  (enterBlock report bb area).checkRelations.countP fun change => change.variable_ = some v

/-- One relation on a variable is of the entry condition of a block; or there is one relation on it at all; or there is none
and a condition holds of the dominated blocks. -/
def BlockRestores (entries checks : Nat) (dominated : Prop) : Prop :=
  entries = 1 ∨ entries = 0 ∧ checks = 1 ∨ entries = 0 ∧ checks = 0 ∧ dominated

/-- Every block of a list, on its turn, restores the list of a variable by the relations that it puts there. -/
def RestoredBy (report : Bool) (v : Fin n) : Dominated n → EvaluationAreaState n → Prop
  | .nil, _ => True
  | .cons bb dominated next, area =>
      BlockRestores (entryFacts bb v) (checkFacts report bb area v)
        (RestoredBy report v dominated (enterBlock report bb area).area) ∧
      RestoredBy report v next (processBlock report bb dominated area)

/-- The number of relations on a variable that are derived from instructions none of which is nullified. -/
def codeFacts (v : Fin n) (code : List (Ins n)) : Nat :=
  (code.map fun ins =>
    match ins with
    | .boundsCheck _ indexVar => if indexVar = v then 2 else 0
    | .notNull sreg1 => if sreg1 = v then 1 else 0
    | _ => 0).sum

/-- The same condition where removals are not reported: it is one on the blocks alone. -/
def QuietlyRestored (v : Fin n) : Dominated n → Prop
  | .nil => True
  | .cons bb dominated next =>
      BlockRestores (entryFacts bb v) (codeFacts v bb.code) (QuietlyRestored v dominated) ∧ QuietlyRestored v next

end MonoRuntime.Abc
