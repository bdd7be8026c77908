/-
Module: MonoRuntime.Mini.LinearScan
Purpose: The two global register allocators of `mini/linear-scan.c`: `mono_linear_scan`, which looks at
  the first and last use of a variable, and `mono_linear_scan2`, which looks at live intervals with
  holes, together with the interval queries of `mini/liveness.c`. A variable is known by its `idx`,
  so the `reg` fields are a map from `idx`. An assertion that fails aborts the process and is the
  result `none`, as are a `NULL` dereference and a write outside an array.
Trusted boundary: human-reviewed translation of the source
Main exports: MonoLiveInterval
-/
import MonoRuntime.Eglib.ListSort

namespace MonoRuntime.LinearScan

open Eglib

/-! ### Live intervals -/

/-- `MonoLiveRange2`. -/
structure MonoLiveRange2 where
  rangeFrom : Int
  rangeTo : Int
deriving DecidableEq, Repr

/-- `MonoLiveInterval`: the live ranges, sorted by `from`. `last_range` is the end of this list. -/
structure MonoLiveInterval where
  range : List MonoLiveRange2
deriving DecidableEq, Repr

/-- The loop of `mono_linterval_covers`; it stops at the first range past the position. -/
def coversLoop (pos : Int) : List MonoLiveRange2 → Bool
  | [] => false
  | range :: next =>
      if pos ≥ range.rangeFrom ∧ pos ≤ range.rangeTo then true
      else if range.rangeFrom > pos then false
      else coversLoop pos next

/-- Whether the interval covers the position. -/
def monoLintervalCovers (interval : MonoLiveInterval) (pos : Int) : Bool :=
  coversLoop pos interval.range

/-- The inner loop of `mono_linterval_get_intersect_pos`, for one range of the first interval. -/
def intersectLoop (r1 : MonoLiveRange2) : List MonoLiveRange2 → Option Int
  | [] => none
  | r2 :: next =>
      if r2.rangeTo > r1.rangeFrom ∧ r2.rangeFrom < r1.rangeTo then
        some (if r2.rangeFrom ≤ r1.rangeFrom then r1.rangeFrom else r2.rangeFrom)
      else intersectLoop r1 next

/-- The first point of intersection of the two intervals, or -1. -/
def monoLintervalGetIntersectPos (i1 i2 : MonoLiveInterval) : Int :=
  match i1.range.findSome? (fun r1 => intersectLoop r1 i2.range) with
  | some pos => pos
  | none => -1

/-! ### Variables -/

/-- What the allocators read of a `MonoMethodVar`; its `reg` field is kept apart. -/
structure MonoMethodVar where
  idx : Nat
  firstUse : Nat
  lastUse : Nat
  spillCosts : BitVec 32
  interval : Option MonoLiveInterval
deriving DecidableEq, Repr

/-- The opcodes of `cfg->varinfo` the allocators tell apart. -/
inductive VarOpcode where
  | opRegvar
  | opArg
  | other (opcode : Nat)
deriving DecidableEq, Repr

/-- The fields of an entry of `cfg->varinfo`. -/
structure VarInfo where
  opcode : VarOpcode
  dreg : Int

/-- What the allocators read of a `MonoCompile`. -/
structure MonoCompile where
  disableReuseRegisters : Bool
  saveLmf : Bool
  varinfo : Nat → VarInfo

/-- What the allocators leave: the `reg` fields, the variables that became `OP_REGVAR`, and the mask of
used registers, `w` bits of a `regmask_t`. -/
structure ScanResult (w : Nat) where
  reg : Nat → Int
  cfg : MonoCompile
  usedMask : BitVec w

/-- Whether `mono_varlist_insert_sorted` puts `mv` before `v1`. -/
def insertsBefore (sortType : Nat) (mv v1 : MonoMethodVar) : Bool :=
  if sortType = 2 then v1.spillCosts.sle mv.spillCosts
  else if sortType = 1 then mv.lastUse ≤ v1.lastUse
  else mv.firstUse ≤ v1.firstUse

/-- Insert a variable before the first one it is not after. -/
def monoVarlistInsertSorted (list : List MonoMethodVar) (mv : MonoMethodVar) (sortType : Nat) :
    List MonoMethodVar :=
  match list with
  | [] => [mv]
  | v1 :: next =>
      if insertsBefore sortType mv v1 then mv :: v1 :: next
      else v1 :: monoVarlistInsertSorted next mv sortType

/-- The mask of the registers that are left in a variable: `used_regs |= 1LL << vmv->reg`. -/
def usedRegs (w : Nat) (reg : Nat → Int) (vars : List MonoMethodVar) : BitVec w :=
  vars.foldl
    (fun used vmv =>
      if 0 ≤ reg vmv.idx then used ||| (1#w <<< (reg vmv.idx).toNat) else used)
    0#w

/-- Make a variable a register variable. -/
def MonoCompile.setRegvar (cfg : MonoCompile) (vmv : MonoMethodVar) (reg : Int) : MonoCompile :=
  { cfg with varinfo := Function.update cfg.varinfo vmv.idx { opcode := .opRegvar, dreg := reg } }

/-! ### mono_linear_scan -/

/-- The variables `mono_linear_scan` works on. -/
structure ScanState where
  active : List MonoMethodVar
  regs : List Int
  gains : Int → BitVec 32
  reg : Nat → Int

/-- Add the spill costs of a variable to the gains of its register. -/
def addGain (gains : Int → BitVec 32) (reg : Int) (vmv : MonoMethodVar) : Int → BitVec 32 :=
  Function.update gains reg (gains reg + vmv.spillCosts)

/-- Expire the intervals at the front of `active` that end before `vmv` starts. -/
def expireLoop (vmv : MonoMethodVar) (reg : Nat → Int) :
    List MonoMethodVar → List Int → (Int → BitVec 32) →
      List MonoMethodVar × List Int × (Int → BitVec 32)
  | [], regs, gains => ([], regs, gains)
  | amv :: active, regs, gains =>
      if amv.lastUse > vmv.firstUse then (amv :: active, regs, gains)
      else expireLoop vmv reg active (reg amv.idx :: regs) (addGain gains (reg amv.idx) amv)

/-- Expire old intervals, unless registers are not to be reused. -/
def ScanState.expire (cfg : MonoCompile) (s : ScanState) (vmv : MonoMethodVar) : ScanState :=
  if cfg.disableReuseRegisters then s
  else
    let (active, regs, gains) := expireLoop vmv s.reg s.active s.regs s.gains
    { s with active := active, regs := regs, gains := gains }

/-- Spill: the variable takes the register of the last active one if that one is cheaper. -/
def ScanState.spill (maxRegs : Nat) (s : ScanState) (vmv : MonoMethodVar) : Option ScanState := do
  let amv ← s.active[maxRegs - 1]?
  if amv.spillCosts.slt vmv.spillCosts then
    pure { s with
      active := monoVarlistInsertSorted (s.active.eraseIdx (maxRegs - 1)) vmv 2
      reg := Function.update (Function.update s.reg vmv.idx (s.reg amv.idx)) amv.idx (-1) }
  else pure { s with reg := Function.update s.reg vmv.idx (-1) }

/-- Assign the first free register. -/
def ScanState.assign (s : ScanState) (vmv : MonoMethodVar) : Option ScanState :=
  match s.regs with
  | [] => none
  | reg :: regs =>
      some { s with
        active := monoVarlistInsertSorted s.active vmv 1
        regs := regs
        reg := Function.update s.reg vmv.idx reg }

/-- One round of the linear scan. `cost_driven` is always `TRUE`. -/
def scanStep (cfg : MonoCompile) (maxRegs : Nat) (s : ScanState) (vmv : MonoMethodVar) :
    Option ScanState :=
  let s := s.expire cfg vmv
  if s.active ≠ [] ∧ s.active.length = maxRegs then s.spill maxRegs vmv
  else s.assign vmv

/-- Add the gains of the variables that are still active. -/
def activeGains (reg : Nat → Int) (gains : Int → BitVec 32) (active : List MonoMethodVar) :
    Int → BitVec 32 :=
  active.foldl (fun gains amv => addGain gains (reg amv.idx) amv) gains

/-- One round of the final loop: keep the register if it pays. -/
def keepStep (archRegallocCost : MonoCompile → MonoMethodVar → BitVec 32) (gains : Int → BitVec 32)
    (acc : MonoCompile × (Nat → Int)) (vmv : MonoMethodVar) : MonoCompile × (Nat → Int) :=
  let (cfg, reg) := acc
  if 0 ≤ reg vmv.idx then
    if (archRegallocCost cfg vmv).ult (gains (reg vmv.idx)) ∧
        (cfg.varinfo vmv.idx).opcode ≠ .opRegvar then
      (cfg.setRegvar vmv (reg vmv.idx), reg)
    else (cfg, Function.update reg vmv.idx (-1))
  else acc

/-- `mono_linear_scan` after the choice between the two allocators. `archRegallocCost` is the target's
`mono_arch_regalloc_cost` and `w` the width of `regmask_t`. -/
def linearScan (w : Nat) (archRegallocCost : MonoCompile → MonoMethodVar → BitVec 32)
    (cfg : MonoCompile) (vars : List MonoMethodVar) (reg : Nat → Int) (regs : List Int)
    (usedMask : BitVec w) : Option (ScanResult w) := do
  guard (∀ regnum ∈ regs, 0 ≤ regnum ∧ regnum < w)
  let s ← vars.foldlM (scanStep cfg regs.length)
    { active := [], regs := regs, gains := fun _ => 0, reg := reg }
  let gains := activeGains s.reg s.gains s.active
  let (cfg, reg) := vars.foldl (keepStep archRegallocCost gains) (cfg, s.reg)
  pure { reg := reg, cfg := cfg, usedMask := usedMask ||| usedRegs w reg vars }

/-! ### mono_linear_scan2 -/

/-- The live ranges of a variable; none where `interval` or its `range` is `NULL`. -/
def MonoMethodVar.ranges (v : MonoMethodVar) : List MonoLiveRange2 :=
  match v.interval with
  | some interval => interval.range
  | none => []

/-- `mono_linterval_covers` on the interval of a variable. -/
def MonoMethodVar.covers (v : MonoMethodVar) (pos : Int) : Bool :=
  monoLintervalCovers ⟨v.ranges⟩ pos

/-- `mono_linterval_get_intersect_pos` on the intervals of two variables. -/
def MonoMethodVar.intersectPos (v1 v2 : MonoMethodVar) : Int :=
  monoLintervalGetIntersectPos ⟨v1.ranges⟩ ⟨v2.ranges⟩

/-- Whether the last range of a variable ends before the position. Only asked of variables that have a
range. -/
def MonoMethodVar.expired (v : MonoMethodVar) (pos : Int) : Bool :=
  match v.ranges.getLast? with
  | some lastRange => lastRange.rangeTo < pos
  | none => false

/-- Order variables by the start of their interval; those without a range come last. -/
def compareByIntervalStartPosFunc (v1 v2 : MonoMethodVar) : Int :=
  if v1 = v2 then 0
  else
    match v1.ranges, v2.ranges with
    | r1 :: _, r2 :: _ => r1.rangeFrom - r2.rangeFrom
    | _ :: _, [] => -1
    | [], _ => 1

/-- Move the expired and inactive variables out of `active`. Every round restarts at the front, after
taking one variable out; `fuel` is the number of rounds. -/
def sweepActive (pos : Int) :
    (fuel : Nat) → (active inactive : List MonoMethodVar) → List MonoMethodVar × List MonoMethodVar
  | 0, active, inactive => (active, inactive)
  | fuel + 1, active, inactive =>
      match active.find? (fun v => v.expired pos || !v.covers pos) with
      | none => (active, inactive)
      | some v =>
          let active := active.eraseP (fun v => v.expired pos || !v.covers pos)
          if v.expired pos then sweepActive pos fuel active inactive
          else sweepActive pos fuel active (inactive ++ [v])

/-- Move the expired and active variables out of `inactive`. -/
def sweepInactive (pos : Int) :
    (fuel : Nat) → (active inactive : List MonoMethodVar) → List MonoMethodVar × List MonoMethodVar
  | 0, active, inactive => (active, inactive)
  | fuel + 1, active, inactive =>
      match inactive.find? (fun v => v.expired pos || v.covers pos) with
      | none => (active, inactive)
      | some v =>
          let inactive := inactive.eraseP (fun v => v.expired pos || v.covers pos)
          if v.expired pos then sweepInactive pos fuel active inactive
          else sweepInactive pos fuel (active ++ [v]) inactive

/-- Registers that an active variable holds are not free. -/
def blockActive (reg : Nat → Int) (freePos : Int → Int) (active : List MonoMethodVar) : Int → Int :=
  active.foldl
    (fun freePos v =>
      if 0 ≤ reg v.idx then Function.update freePos (reg v.idx) 0 else freePos)
    freePos

/-- Registers that an inactive variable holds are free up to the first intersection. -/
def blockInactive (current : MonoMethodVar) (reg : Nat → Int) (freePos : Int → Int)
    (inactive : List MonoMethodVar) : Int → Int :=
  inactive.foldl
    (fun freePos v =>
      if 0 ≤ reg v.idx then
        if current.intersectPos v ≠ -1 then
          Function.update freePos (reg v.idx) (current.intersectPos v)
        else freePos
      else freePos)
    freePos

/-- The first register with the largest free position, from `(reg, max_free_pos) = (-1, -1)` on. -/
def maxFreePos (freePos : Int → Int) (nRegs : Nat) : Int × Int :=
  (List.range nRegs).foldl
    (fun best (i : Nat) => if freePos i > best.2 then ((i : Int), freePos i) else best)
    (-1, -1)

/-- The variables `mono_linear_scan2` works on. -/
structure Scan2State where
  active : List MonoMethodVar
  inactive : List MonoMethodVar
  gains : Int → BitVec 32
  reg : Nat → Int

/-- Bring `active` and `inactive` to the position where the current interval starts. -/
def Scan2State.advance (s : Scan2State) (pos : Int) : Scan2State :=
  let (active, inactive) := sweepActive pos s.active.length s.active s.inactive
  let (active, inactive) := sweepInactive pos inactive.length active inactive
  { s with active := active, inactive := inactive }

/-- `free_pos` for the current interval. -/
def Scan2State.freePos (s : Scan2State) (current : MonoMethodVar) : Int → Int :=
  blockInactive current s.reg (blockActive s.reg (fun _ => 0x7fffffff) s.active) s.inactive

/-- Spill the first active interval if it is cheaper than the current one, which stays without a register
in either case. -/
def Scan2State.spill (s : Scan2State) (current : MonoMethodVar) : Scan2State :=
  match s.active with
  | [] => s
  | vmv :: active =>
      if vmv.spillCosts.slt current.spillCosts then
        { s with
          active := active
          gains := Function.update s.gains (s.reg vmv.idx) (s.gains (s.reg vmv.idx) - vmv.spillCosts)
          reg := Function.update s.reg vmv.idx (-1) }
      else s

/-- The register is available for the whole interval. -/
def Scan2State.assign (s : Scan2State) (current : MonoMethodVar) (reg : Int) : Scan2State :=
  { s with
    active := s.active ++ [current]
    gains := addGain s.gains reg current
    reg := Function.update s.reg current.idx reg }

/-- One round of the main loop of `mono_linear_scan2`. -/
def scan2Step (nRegs : Nat) (s : Scan2State) (current : MonoMethodVar) : Option Scan2State :=
  match current.ranges with
  | [] => some s
  | first :: rest =>
      let s := s.advance first.rangeFrom
      let freePos := s.freePos current
      let (reg, _) := maxFreePos freePos nRegs
      if reg = -1 then none
      else if freePos reg ≥ ((first :: rest).getLast (by simp)).rangeTo then
        some (s.assign current reg)
      else some (s.spill current)

/-- Decrease the gains by the cost of saving and restoring the register. -/
def adjustGains (saveLmf : Bool) (gains : Int → BitVec 32) (i : Int) : BitVec 32 :=
  if gains i ≠ 0 then
    let gain := gains i - (if saveLmf then 1 else 2)
    if gain.slt 0 then 0 else gain
  else 0

/-- `regalloc_cost`: load if it is an argument. -/
def regallocCost (cfg : MonoCompile) (vmv : MonoMethodVar) : BitVec 32 :=
  if (cfg.varinfo vmv.idx).opcode = .opArg then 1 else 0

/-- One round of the actual register assignment; `reg` held an index into `regs` so far. -/
def assignStep (regs : List Int) (gains : Int → BitVec 32) (acc : MonoCompile × (Nat → Int))
    (vmv : MonoMethodVar) : MonoCompile × (Nat → Int) :=
  let (cfg, reg) := acc
  if 0 ≤ reg vmv.idx then
    let hreg := regs.getD (reg vmv.idx).toNat 0
    if (regallocCost cfg vmv).ult (gains (reg vmv.idx)) ∧
        (cfg.varinfo vmv.idx).opcode ≠ .opRegvar then
      (cfg.setRegvar vmv hreg, Function.update reg vmv.idx hreg)
    else (cfg, Function.update reg vmv.idx (-1))
  else acc

/-- `mono_linear_scan2`. Every variable has an interval, and `free_pos` has `w` entries. -/
def monoLinearScan2 (w : Nat) (cfg : MonoCompile) (vars : List MonoMethodVar) (reg : Nat → Int)
    (regs : List Int) (usedMask : BitVec w) : Option (ScanResult w) := do
  guard (regs.length ≤ w ∧ ∀ v ∈ vars, v.interval.isSome)
  let unhandled := gListSort compareByIntervalStartPosFunc vars
  let s ← unhandled.foldlM (scan2Step regs.length)
    { active := [], inactive := [], gains := fun _ => 0, reg := reg }
  let (cfg, reg) := vars.foldl (assignStep regs (adjustGains cfg.saveLmf s.gains)) (cfg, s.reg)
  pure { reg := reg, cfg := cfg, usedMask := usedMask ||| usedRegs w reg vars }

/-- `mono_linear_scan`: variables with live intervals are left to `mono_linear_scan2`. -/
def monoLinearScan (w : Nat) (archRegallocCost : MonoCompile → MonoMethodVar → BitVec 32)
    (cfg : MonoCompile) (vars : List MonoMethodVar) (reg : Nat → Int) (regs : List Int)
    (usedMask : BitVec w) : Option (ScanResult w) :=
  match vars with
  | vmv :: _ =>
      if vmv.interval.isSome then monoLinearScan2 w cfg vars reg regs usedMask
      else linearScan w archRegallocCost cfg vars reg regs usedMask
  | [] => linearScan w archRegallocCost cfg vars reg regs usedMask

end MonoRuntime.LinearScan
