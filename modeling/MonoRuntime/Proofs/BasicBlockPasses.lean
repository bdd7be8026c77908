/-
Module: MonoRuntime.Proofs.BasicBlockPasses
Purpose: The pass over the IL leaves every edge of the scanned instructions in the blocks, except the edges
  of a switch from the first target on that splits the block of the switch; the pass over the clauses keeps
  them where the clauses cut the control flow.
Trusted boundary: none
Main exports: Recorded
-/
import MonoRuntime.Proofs.BasicBlockFormation
import MonoRuntime.Proofs.IlScan

namespace MonoRuntime.BasicBlock

open Il Fallible List

variable {code : List (BitVec 8)} {p ip value : Nat} {h h' : BbHeap}

/-! ### Recorded instructions -/

/-- The blocks have the control flow of the instruction at `p`. -/
structure Recorded (code : List (BitVec 8)) (h : BbHeap) (p ip value : Nat) : Prop where
  inner : ∀ x, p ≤ x → x + 1 < insEnd code ip value → Flow h x
  falls : FallsThrough value → insEnd code ip value < code.length → Flow h (insEnd code ip value - 1)
  ends : EndsBlock value → insEnd code ip value < code.length → IsStart h (insEnd code ip value)
  targetStarts : ∀ t ∈ targets code p ip value, IsStart h t.toNat
  edges : ∀ (j : Nat) (t : BitVec 32), (targets code p ip value)[j]? = some t →
    (∀ i ≤ j, ¬ SplitsOwnBlock code p ip value i) →
      t.toNat = p ∨ BranchEdge h p (insEnd code ip value) t.toNat

theorem endsBlock_of_target {t : BitVec 32} (isTarget : t ∈ targets code p ip value) : EndsBlock value := by
  unfold targets at isTarget
  split at isTarget
  next short => exact Or.inr (Or.inr (Or.inl short))
  next long => exact Or.inr (Or.inr (Or.inr (Or.inl long)))
  next switch => exact Or.inr (Or.inr (Or.inr (Or.inr switch)))
  next => cases isTarget

/-- A split keeps what is recorded, if it links, or does not cut the control flow of the instruction. -/
theorem Recorded.split {t : Nat} {linkBlocks : Bool} {res : Ptr} (recorded : Recorded code h p ip value)
    (decoded : decodeIl code p = some (ip, value)) (view : SplitView code.length h t linkBlocks h' res)
    (crosses : linkBlocks = true ∨ (p < t → t ≤ insEnd code ip value → insEnd code ip value = t ∧ ¬ FallsThrough value)) :
    Recorded code h' p ip value where
  inner x after inside := by
    refine view.flow x (recorded.inner x after inside) (crosses.imp id fun cut same => ?_)
    have := (cut (by omega) (by omega)).1
    omega
  falls falls inside := by
    have grows := (le_of_decodeIl decoded).2
    refine view.flow _ (recorded.falls falls inside) (crosses.imp id fun cut same => ?_)
    exact (cut (by omega) (by omega)).2 falls
  ends ends inside := view.start (recorded.ends ends inside)
  targetStarts t isTarget := view.start (recorded.targetStarts t isTarget)
  edges j t isTarget kept := by
    refine (recorded.edges j t isTarget kept).imp id fun edge => view.branch _ _ _ edge ?_ ?_
    · rcases Nat.lt_or_ge (insEnd code ip value) code.length with inside | outside
      · exact Or.inl (recorded.ends (endsBlock_of_target (mem_of_getElem? isTarget)) inside)
      · exact Or.inr outside
    · refine crosses.imp id fun cut inside => ?_
      have := (cut inside.1 (by omega)).1
      omega

theorem Recorded.link (recorded : Recorded code h p ip value) (fromBb toBb : Ptr) :
    Recorded code (bbLink h fromBb toBb) p ip value where
  inner x after inside := (recorded.inner x after inside).link _ _
  falls falls inside := (recorded.falls falls inside).link _ _
  ends ends inside := ((sameBlocks_bbLink _ _ _).isStart _).2 (recorded.ends ends inside)
  targetStarts t isTarget := ((sameBlocks_bbLink _ _ _).isStart _).2 (recorded.targetStarts t isTarget)
  edges j t isTarget kept := (recorded.edges j t isTarget kept).imp id fun edge => edge.link _ _

/-- Removing an edge to the block at `r` keeps what is recorded of an instruction that ends before `r`, if
the edge is not one of its own. -/
theorem Recorded.unlink {r : Nat} {fromBb toBb : Ptr} (recorded : Recorded code h p ip value)
    (ok : BbOk code.length h) (decoded : decodeIl code p = some (ip, value)) (allocated : toBb < h.count)
    (isStart : h.start toBb = r) (before : insEnd code ip value < r)
    (other : ∀ x, x < insEnd code ip value → (∃ t, t ∈ targets code p ip value) → ¬ InBlock h x fromBb) :
    Recorded code (bbUnlink h fromBb toBb) p ip value where
  inner x after inside := (recorded.inner x after inside).unlink ok allocated isStart (by omega)
  falls falls inside := by
    have grows := (le_of_decodeIl decoded).2
    exact (recorded.falls falls inside).unlink ok allocated isStart (by omega)
  ends ends inside := ((sameBlocks_bbUnlink _ _ _).isStart _).2 (recorded.ends ends inside)
  targetStarts t isTarget :=
    ((sameBlocks_bbUnlink _ _ _).isStart _).2 (recorded.targetStarts t isTarget)
  edges j t isTarget kept := by
    refine (recorded.edges j t isTarget kept).imp id fun edge => edge.unlink fun x _ high inB _ => ?_
    exact other x high ⟨t, mem_of_getElem? isTarget⟩ inB

theorem Recorded.same (recorded : Recorded code h p ip value) (same : SameBlocks h h')
    (outs : h'.outBb = h.outBb) : Recorded code h' p ip value where
  inner x after inside := same.flow (recorded.inner x after inside) fun _ _ _ _ member => outs ▸ member
  falls falls inside := same.flow (recorded.falls falls inside) fun _ _ _ _ member => outs ▸ member
  ends ends inside := (same.isStart _).2 (recorded.ends ends inside)
  targetStarts t isTarget := (same.isStart _).2 (recorded.targetStarts t isTarget)
  edges j t isTarget kept := (recorded.edges j t isTarget kept).imp id fun edge =>
    same.branch edge fun _ _ _ _ _ _ _ _ member => outs ▸ member

/-! ### The scan -/

/-- The invariant of `bb_formation_il_pass` when it comes to `n`. -/
structure IlInv (code : List (BitVec 8)) (n : Nat) (h : BbHeap) : Prop where
  ok : BbOk code.length h
  recorded : ∀ p ip value, IsIns code p ip value → p < n → Recorded code h p ip value
  ahead : ∀ x, n ≤ x → x + 1 < code.length → Flow h x
  entry : h.dead 0 = false

/-- What holds while the instruction at `p` is recorded; `cur` is the variable `current`. Control passes
behind the instruction only as far as it needs to. -/
structure Scanning (code : List (BitVec 8)) (p ip value : Nat) (cur : Ptr) (h : BbHeap) : Prop where
  ok : BbOk code.length h
  older : ∀ p' ip' value', IsIns code p' ip' value' → p' < p → Recorded code h p' ip' value'
  ahead : ∀ x, p ≤ x → x + 1 < code.length → (x + 1 = insEnd code ip value → FallsThrough value) →
    Flow h x
  isBlock : cur < h.count
  before : h.start cur ≤ p
  offOlder : ∀ p' ip' value', IsIns code p' ip' value' → p' < p →
    (∃ t, t ∈ targets code p' ip' value') → ∀ x < insEnd code ip' value', ¬ InBlock h x cur
  entry : h.dead 0 = false

theorem Scanning.boundary {cur : Ptr} (scanning : Scanning code p ip value cur h) {b : Nat}
    (boundary : Boundary code p b) (inside : b < code.length) : IsStart h b := by
  cases boundary with
  | start => exact ⟨0, scanning.ok.first.1, scanning.ok.first.2⟩
  | behind ins before ends => exact (scanning.older _ _ _ ins before).ends ends inside
  | target ins before isTarget => exact (scanning.older _ _ _ ins before).targetStarts _ isTarget

theorem IlInv.scanning {cur : Ptr} (inv : IlInv code p h) (ins : IsIns code p ip value)
    (inB : InBlock h p cur) : Scanning code p ip value cur h where
  ok := inv.ok
  older := inv.recorded
  ahead x after inside _ := inv.ahead x after inside
  isBlock := inB.1
  before := inB.2.1
  offOlder p' ip' value' older before hasTarget x high inOld := by
    obtain ⟨t, isTarget⟩ := hasTarget
    have endBefore := ins.insEnd_le_of_lt older before
    have inside := ins.inside
    have isStart := (inv.recorded p' ip' value' older before).ends (endsBlock_of_target isTarget)
      (by omega)
    have low := inv.ok.start_le inB isStart endBefore
    have := inOld.2
    omega
  entry := inv.entry

section Scanning

variable {cur : Ptr}

/-- A split while scanning: it links, or it is the one behind an instruction that control does not leave
downwards. -/
theorem Scanning.split {t : Nat} {linkBlocks : Bool} {res : Ptr} (scanning : Scanning code p ip value cur h)
    (ins : IsIns code p ip value) (view : SplitView code.length h t linkBlocks h' res)
    (crosses : linkBlocks = true ∨ (t = insEnd code ip value ∧ ¬ FallsThrough value)) :
    Scanning code p ip value cur h' where
  ok := view.ok
  older p' ip' value' older before := by
    refine (scanning.older p' ip' value' older before).split older.decoded view
      (crosses.imp id fun cut _ reaches => ?_)
    have endBefore := ins.insEnd_le_of_lt older before
    have grows := (le_of_decodeIl ins.decoded).2
    omega
  ahead x after inside passes := by
    refine view.flow x (scanning.ahead x after inside passes) (crosses.imp id fun cut same => ?_)
    exact cut.2 (passes (same.trans cut.1))
  isBlock := Nat.lt_of_lt_of_le scanning.isBlock view.grows
  before := by
    rw [view.starts cur scanning.isBlock]
    exact scanning.before
  offOlder p' ip' value' older before hasTarget x high inB :=
    scanning.offOlder p' ip' value' older before hasTarget x high
      (view.shrinks cur scanning.isBlock x inB)
  entry := (view.dead 0 scanning.ok.first.1).trans scanning.entry

theorem Scanning.link {fromBb toBb : Ptr} (scanning : Scanning code p ip value cur h)
    (allocated : toBb < h.count) : Scanning code p ip value cur (bbLink h fromBb toBb) where
  ok := scanning.ok.link allocated
  older p' ip' value' older before := (scanning.older p' ip' value' older before).link _ _
  ahead x after inside passes := (scanning.ahead x after inside passes).link _ _
  isBlock := by
    rw [(sameBlocks_bbLink _ _ _).count]
    exact scanning.isBlock
  before := by
    rw [(sameBlocks_bbLink _ _ _).start]
    exact scanning.before
  offOlder p' ip' value' older before hasTarget x high inB :=
    scanning.offOlder p' ip' value' older before hasTarget x high
      (((sameBlocks_bbLink _ _ _).inBlock x cur).1 inB)
  entry := by
    rw [dead_bbLink]
    exact scanning.entry

theorem Scanning.unlink {toBb : Ptr} (scanning : Scanning code p ip value cur h) (ins : IsIns code p ip value)
    (allocated : toBb < h.count) (isStart : h.start toBb = insEnd code ip value)
    (stops : ¬ FallsThrough value) : Scanning code p ip value cur (bbUnlink h cur toBb) where
  ok := scanning.ok.unlink _ _
  older p' ip' value' older before := by
    have endBefore := ins.insEnd_le_of_lt older before
    have grows := (le_of_decodeIl ins.decoded).2
    exact (scanning.older p' ip' value' older before).unlink scanning.ok older.decoded allocated isStart
      (by omega) fun x high hasTarget => scanning.offOlder p' ip' value' older before hasTarget x high
  ahead x after inside passes :=
    (scanning.ahead x after inside passes).unlink scanning.ok allocated isStart
      fun same => stops (passes same)
  isBlock := scanning.isBlock
  before := scanning.before
  offOlder := scanning.offOlder
  entry := scanning.entry

/-- When all edges of the instruction are recorded, the scan goes on behind it. -/
theorem Scanning.finish (scanning : Scanning code p ip value cur h) (ins : IsIns code p ip value)
    (ends : EndsBlock value → insEnd code ip value < code.length → IsStart h (insEnd code ip value))
    (targetStarts : ∀ t ∈ targets code p ip value, IsStart h t.toNat)
    (edges : ∀ (j : Nat) (t : BitVec 32), (targets code p ip value)[j]? = some t →
      (∀ i ≤ j, ¬ SplitsOwnBlock code p ip value i) → t.toNat = p ∨ BranchEdge h p (insEnd code ip value) t.toNat) :
    IlInv code (insEnd code ip value) h := by
  have grows := (le_of_decodeIl ins.decoded).2
  refine ⟨scanning.ok, fun p' ip' value' ins' before => ?_, fun x after inside => ?_, scanning.entry⟩
  · rcases Nat.lt_trichotomy p' p with less | same | later
    · exact scanning.older p' ip' value' ins' less
    · subst same
      have decoded := ins.decoded
      rw [ins'.decoded] at decoded
      cases decoded
      refine ⟨fun x after inside => ?_, fun falls inside => ?_, ends, targetStarts, edges⟩
      · rcases Nat.lt_or_ge (x + 1) code.length with inCode | outside
        · exact scanning.ahead x after inCode (by omega)
        · exact scanning.ok.flow_of_outside outside
      · exact scanning.ahead _ (by omega) (by omega) fun _ => falls
    · have := ins'.insEnd_le_of_lt ins later
      omega
  · exact scanning.ahead x (by omega) inside (by omega)

end Scanning

/-! ### One instruction -/

/-- The scan has come behind the instruction. -/
def Scanned (code : List (BitVec 8)) (ip value : Nat) (result : Nat × Ptr) (h : BbHeap) : Prop :=
  result.1 = insEnd code ip value ∧ IlInv code result.1 h ∧ result.2 < h.count ∧
    h.start result.2 ≤ result.1

/-- The scan has found the block of the instruction. -/
def AtIns (code : List (BitVec 8)) (p ip value : Nat) (cur : Ptr) (h : BbHeap) : Prop :=
  Scanning code p ip value cur h ∧ InBlock h p cur

section Instruction

variable {cur : Ptr} {m : Nat}

theorem Scanning.scanned (scanning : Scanning code p ip value cur h) (ins : IsIns code p ip value)
    (isEnd : m = insEnd code ip value) (inv : IlInv code (insEnd code ip value) h) : Scanned code ip value (m, cur) h := by
  subst isEnd
  have grows := (le_of_decodeIl ins.decoded).2
  have before := scanning.before
  exact ⟨rfl, inv, scanning.isBlock, by dsimp only; omega⟩

theorem plain_spec (ins : IsIns code p ip value) (isEnd : m = insEnd code ip value)
    (noEnd : EndsBlock value → code.length ≤ insEnd code ip value) (noTargets : targets code p ip value = []) :
    Triple (AtIns code p ip value cur) (pure (m, cur) : BbM (Nat × Ptr)) (Scanned code ip value) := by
  refine triple_pure fun h start => start.1.scanned ins isEnd (start.1.finish ins ?_ ?_ ?_)
  · intro ends inside
    have := noEnd ends
    omega
  · rw [noTargets]
    exact fun t isTarget => by cases isTarget
  · rw [noTargets]
    exact fun j t isTarget => by cases isTarget

theorem splitAfter_spec (ins : IsIns code p ip value) (small : code.length < 2 ^ 31)
    (isEnd : m = insEnd code ip value) (inside : m < code.length) (stops : ¬ FallsThrough value)
    (noTargets : targets code p ip value = []) :
    Triple (AtIns code p ip value cur) (splitAfter cur m) (Scanned code ip value) := by
  have isNat : (BitVec.ofNat 32 m).toNat = m := by
    exact Nat.mod_eq_of_lt (by omega)
  refine triple_bind (Q := fun next h => Scanning code p ip value cur h ∧ next < h.count ∧
    h.start next = m) (callSplit_triple small ?_ ?_) fun next => ?_
  · exact fun h start => ⟨start.1.ok, start.2.1⟩
  · intro h h' res start view
    rw [isNat] at view
    exact ⟨start.1.split ins view (Or.inr ⟨isEnd, stops⟩), view.isBlock, view.isStart⟩
  · refine triple_bind (Q := fun _ h => Scanning code p ip value cur h ∧ next < h.count ∧
      h.start next = m) (triple_update ?_) fun _ => triple_pure ?_
    · rintro h ⟨scanning, isBlock, isStart⟩
      exact ⟨scanning.unlink ins isBlock (by rw [isStart, isEnd]) stops, isBlock, isStart⟩
    · rintro h ⟨scanning, isBlock, isStart⟩
      refine ⟨isEnd, ?_, isBlock, Int.le_of_eq isStart⟩
      have here : IsStart h (insEnd code ip value) := ⟨next, isBlock, by rw [isStart, isEnd]⟩
      have inv := scanning.finish ins (fun _ _ => here)
        (by rw [noTargets]; exact fun t isTarget => by cases isTarget)
        (by rw [noTargets]; exact fun j t isTarget => by cases isTarget)
      rwa [← isEnd] at inv

/-- The variable `current` after the split at the target of a branch: it is the block of the branch, except
for a branch to itself. -/
structure AtBranch (code : List (BitVec 8)) (p ip value : Nat) (o : Nat) (branch cur : Ptr)
    (h : BbHeap) : Prop where
  scanning : Scanning code p ip value cur h
  isBlock : branch < h.count
  isStart : h.start branch = o
  inB : o ≠ p → InBlock h p cur

theorem AtBranch.link {o : Nat} {branch toBb : Ptr} (at' : AtBranch code p ip value o branch cur h)
    (fromBb : Ptr) (allocated : toBb < h.count) : AtBranch code p ip value o branch cur (bbLink h fromBb toBb) where
  scanning := at'.scanning.link allocated
  isBlock := by
    rw [(sameBlocks_bbLink _ _ _).count]
    exact at'.isBlock
  isStart := by
    rw [(sameBlocks_bbLink _ _ _).start]
    exact at'.isStart
  inB ne := ((sameBlocks_bbLink _ _ _).inBlock p cur).2 (at'.inB ne)

theorem AtIns.atBranch {o : Nat} {branch : Ptr} (start : AtIns code p ip value cur h) (ins : IsIns code p ip value)
    (view : SplitView code.length h o true h' branch) : AtBranch code p ip value o branch
      (if o < p ∧ decide (h'.start branch > h'.start cur) = true then branch else cur) h' := by
  obtain ⟨scanning, inB⟩ := start
  have scanning' := scanning.split ins view (Or.inl rfl)
  have sameStart := view.starts cur inB.1
  have isStart := view.isStart
  split
  next splits =>
    -- The target is inside the block, before the branch: the branch is in the new block.
    obtain ⟨before, after⟩ := splits
    rw [decide_eq_true_eq, isStart, sameStart] at after
    have inCur : InBlock h o cur := ⟨inB.1, by omega, by have := inB.2; omega⟩
    have inBranch := view.moves cur p inB inCur (by omega)
    refine ⟨⟨view.ok, scanning'.older, scanning'.ahead, view.isBlock, by omega, ?_, scanning'.entry⟩,
      view.isBlock, isStart, fun _ => inBranch⟩
    intro p' ip' value' older before' hasTarget x high inNew
    exact scanning.offOlder p' ip' value' older before' hasTarget x high
      (view.newShrinks cur x inCur inNew)
  next stays =>
    refine ⟨scanning', view.isBlock, isStart, fun ne => view.keeps cur p inB ?_⟩
    rw [decide_eq_true_eq, isStart, sameStart] at stays
    omega

theorem AtBranch.finish {o : BitVec 32} {branch : Ptr} (at' : AtBranch code p ip value o.toNat branch cur h)
    (ins : IsIns code p ip value) (isTarget : targets code p ip value = [o])
    (ends : insEnd code ip value < code.length → IsStart h (insEnd code ip value))
    (edge : o.toNat ≠ p → BranchEdge h p (insEnd code ip value) o.toNat) : IlInv code (insEnd code ip value) h := by
  refine at'.scanning.finish ins (fun _ => ends) ?_ ?_
  · rw [isTarget]
    intro t member
    rw [mem_singleton.1 member]
    exact ⟨branch, at'.isBlock, at'.isStart⟩
  · rw [isTarget]
    intro j t isT _
    have same : t = o := mem_singleton.1 (mem_of_getElem? isT)
    subst same
    by_cases self : t.toNat = p
    · exact Or.inl self
    · exact Or.inr (edge self)

theorem ilBranch_spec {o : BitVec 32} {flowType : FlowType} (ins : IsIns code p ip value)
    (small : code.length < 2 ^ 31) (isEnd : m = insEnd code ip value) (isTarget : targets code p ip value = [o])
    (passes : flowType ≠ .branch ∨ ¬ FallsThrough value) :
    Triple (AtIns code p ip value cur) (ilBranch code p m o flowType cur) (Scanned code ip value) := by
  have grows := (le_of_decodeIl ins.decoded).2
  refine triple_bind (Q := fun branch h => ∃ h0, AtIns code p ip value cur h0 ∧
    SplitView code.length h0 o.toNat true h branch) (callSplit_triple small ?_ ?_) fun branch => ?_
  · exact fun h start => ⟨start.1.ok, start.2.1⟩
  · exact fun h h' res start view => ⟨h, start, view⟩
  refine triple_bind (Q := fun splitCurrent h => AtBranch code p ip value o.toNat branch
    (if o.toNat < p ∧ splitCurrent = true then branch else cur) h) (triple_read ?_)
    fun splitCurrent => ?_
  · rintro h ⟨h0, start, view⟩
    exact start.atBranch ins view
  generalize (if o.toNat < p ∧ splitCurrent = true then branch else cur) = cur'
  have recorded : ∀ {h : BbHeap}, AtBranch code p ip value o.toNat branch cur' h → o.toNat ≠ p →
      BranchEdge (bbLink h cur' branch) p (insEnd code ip value) o.toNat := fun at' ne =>
    branchEdge_link grows (at'.inB ne) at'.isBlock at'.isStart
  split
  next inside =>
    have isNat : (BitVec.ofNat 32 m).toNat = m := by
      exact Nat.mod_eq_of_lt (by omega)
    refine triple_bind (Q := fun next h => AtBranch code p ip value o.toNat branch cur' h ∧
      next < h.count ∧ h.start next = m) (callSplit_triple small ?_ ?_) fun next => ?_
    · exact fun h at' => ⟨at'.scanning.ok, at'.scanning.isBlock⟩
    · intro h h' res at' view
      rw [isNat] at view
      have crosses : (flowType != .branch) = true ∨ (m = insEnd code ip value ∧ ¬ FallsThrough value) :=
        passes.imp (fun ne => bne_iff_ne.2 ne) fun stops => ⟨isEnd, stops⟩
      refine ⟨⟨at'.scanning.split ins view crosses, Nat.lt_of_lt_of_le at'.isBlock view.grows, ?_,
        fun ne => ?_⟩, view.isBlock, view.isStart⟩
      · rw [view.starts branch at'.isBlock]
        exact at'.isStart
      · exact view.keeps cur' p (at'.inB ne) (Or.inl (by omega))
    refine triple_bind (Q := fun _ h => AtBranch code p ip value o.toNat branch cur' h ∧
      next < h.count ∧ h.start next = m ∧
      (o.toNat ≠ p → BranchEdge h p (insEnd code ip value) o.toNat)) (triple_update ?_) fun _ => ?_
    · rintro h ⟨at', isBlock, isStart⟩
      have same := sameBlocks_bbLink h cur' branch
      refine ⟨at'.link cur' at'.isBlock, ?_, ?_, recorded at'⟩
      · rw [same.count]
        exact isBlock
      · rw [same.start]
        exact isStart
    split
    next removes =>
      -- An unconditional branch: the edge to the next instruction goes.
      obtain ⟨isJump, ne⟩ := removes
      have stops : ¬ FallsThrough value := passes.resolve_left fun other => other isJump
      refine triple_bind (Q := fun _ h => AtBranch code p ip value o.toNat branch cur' h ∧
        next < h.count ∧ h.start next = m ∧
        (o.toNat ≠ p → BranchEdge h p (insEnd code ip value) o.toNat)) (triple_update ?_)
        fun _ => triple_pure ?_
      · rintro h ⟨at', isBlock, isStart, edge⟩
        refine ⟨⟨at'.scanning.unlink ins isBlock (by rw [isStart, isEnd]) stops, at'.isBlock, at'.isStart,
          at'.inB⟩, isBlock, isStart, fun self => (edge self).unlink ?_⟩
        intro x _ _ _ isTargetStart
        -- The removed edge leads to another block.
        have apart := at'.scanning.ok.apart isBlock at'.isBlock
        have boundsN := at'.scanning.ok.bounds isBlock
        have boundsB := at'.scanning.ok.bounds at'.isBlock
        have startB := at'.isStart
        rcases apart with same | before | before
        · exact ne same
        · omega
        · omega
      · rintro h ⟨at', isBlock, isStart, edge⟩
        have inv := at'.finish ins isTarget (fun _ => ⟨next, isBlock, by rw [isStart, isEnd]⟩) edge
        rw [← isEnd] at inv
        exact ⟨isEnd, inv, isBlock, Int.le_of_eq isStart⟩
    next =>
      refine triple_pure ?_
      rintro h ⟨at', isBlock, isStart, edge⟩
      exact at'.scanning.scanned ins isEnd
        (at'.finish ins isTarget (fun _ => ⟨next, isBlock, by rw [isStart, isEnd]⟩) edge)
  next outside =>
    refine triple_bind (Q := fun _ h => AtBranch code p ip value o.toNat branch cur' h ∧
      (o.toNat ≠ p → BranchEdge h p (insEnd code ip value) o.toNat)) (triple_update ?_)
      fun _ => triple_pure ?_
    · exact fun h at' => ⟨at'.link cur' at'.isBlock, recorded at'⟩
    · rintro h ⟨at', edge⟩
      exact at'.scanning.scanned ins isEnd
        (at'.finish ins isTarget (fun inside => absurd inside (by omega)) edge)

/-- A switch when its first `k` targets are done; `tmp` is the block behind it. -/
structure AtSwitch (code : List (BitVec 8)) (p ip value : Nat) (cur tmp : Ptr) (k : Nat) (h : BbHeap) :
    Prop where
  scanning : Scanning code p ip value cur h
  isBlock : tmp < h.count
  isStart : h.start tmp = insEnd code ip value
  targetStarts : ∀ i < k, ∀ t, (targets code p ip value)[i]? = some t → IsStart h t.toNat
  edges : ∀ i < k, ∀ t, (targets code p ip value)[i]? = some t →
    (∀ i' ≤ i, ¬ SplitsOwnBlock code p ip value i') → BranchEdge h p (insEnd code ip value) t.toNat
  inB : (∀ i < k, ¬ SplitsOwnBlock code p ip value i) → InBlock h p cur

theorem AtSwitch.next {tmp res : Ptr} {k : Nat} {t : BitVec 32} (at' : AtSwitch code p ip value cur tmp k h)
    (ins : IsIns code p ip value) (isSwitch : (monoOpcodes value).argument = .inlineSwitch)
    (isTarget : (targets code p ip value)[k]? = some t) (view : SplitView code.length h t.toNat true h' res) :
    AtSwitch code p ip value cur tmp (k + 1) (bbLink h' cur res) := by
  have grows := (le_of_decodeIl ins.decoded).2
  have same := sameBlocks_bbLink h' cur res
  have inB' : (∀ i < k + 1, ¬ SplitsOwnBlock code p ip value i) → InBlock h' p cur := by
    intro kept
    have inB := at'.inB fun i less => kept i (Nat.lt_succ_of_lt less)
    refine view.keeps cur p inB ?_
    rcases Nat.lt_or_ge p t.toNat with after | notAfter
    · exact Or.inl after
    · -- A boundary between the target and the switch starts the block of the switch.
      right
      have notOwn := kept k (Nat.lt_succ_self k)
      simp only [SplitsOwnBlock, isSwitch, true_and, not_exists, not_and, not_forall, not_not] at notOwn
      obtain ⟨b, above, below, known⟩ := notOwn t isTarget notAfter
      have inside := ins.inside
      have isStart : IsStart h b := by
        rcases known with boundary | ⟨i, less, t', isT, rfl⟩
        · exact at'.scanning.boundary boundary (by omega)
        · exact at'.targetStarts i less t' isT
      have := at'.scanning.ok.start_le inB isStart below
      omega
  have startTmp : tmp < h'.count ∧ h'.start tmp = insEnd code ip value :=
    ⟨Nat.lt_of_lt_of_le at'.isBlock view.grows, (view.starts tmp at'.isBlock).trans at'.isStart⟩
  have ends : IsStart h (insEnd code ip value) := ⟨tmp, at'.isBlock, at'.isStart⟩
  refine ⟨(at'.scanning.split ins view (Or.inl rfl)).link view.isBlock, ?_, ?_, ?_, ?_, ?_⟩
  · rw [same.count]
    exact startTmp.1
  · rw [same.start]
    exact startTmp.2
  · intro i less t' isT
    rw [same.isStart]
    rcases Nat.lt_succ_iff_lt_or_eq.1 less with earlier | rfl
    · exact view.start (at'.targetStarts i earlier t' isT)
    · rw [isTarget] at isT
      cases isT
      exact ⟨res, view.isBlock, view.isStart⟩
  · intro i less t' isT kept
    rcases Nat.lt_succ_iff_lt_or_eq.1 less with earlier | rfl
    · exact (view.branch _ _ _ (at'.edges i earlier t' isT kept) (Or.inl ends) (Or.inl rfl)).link _ _
    · rw [isTarget] at isT
      cases isT
      exact branchEdge_link grows (inB' fun i' lessI => kept i' (Nat.lt_succ_iff.1 lessI)) view.isBlock
        view.isStart
  · exact fun kept => (same.inBlock p cur).2 (inB' kept)

/-- The loop over the targets: the induction is on the number of targets left. -/
theorem switchLoop_spec {tmp : Ptr} {offset : BitVec 32} {count : Nat} (ins : IsIns code p ip value)
    (small : code.length < 2 ^ 31) (isSwitch : (monoOpcodes value).argument = .inlineSwitch)
    (isTargets : targets code p ip value
      = (List.range count).map fun j => offset + read32 code (ip + 5 + 4 * j)) :
    ∀ (n k : Nat) (next : Ptr), k + n = count →
      Triple (fun h => AtSwitch code p ip value cur tmp k h ∧ next < h.count)
        (switchLoop code p offset cur n (ip + 5 + 4 * k) next)
        fun m h => m = ip + 5 + 4 * count ∧ AtSwitch code p ip value cur tmp count h
  | 0, k, next, all => by
      have done : k = count := by omega
      subst done
      exact triple_pure fun h start => ⟨rfl, start.1⟩
  | n + 1, k, next, all => by
      unfold switchLoop
      split
      next => exact triple_fail
      next =>
        have isTarget : (targets code p ip value)[k]? = some (offset + read32 code (ip + 5 + 4 * k)) := by
          rw [isTargets, getElem?_map, getElem?_range (by omega)]
          rfl
        refine triple_bind (Q := fun res h => ∃ h0, AtSwitch code p ip value cur tmp k h0 ∧
          SplitView code.length h0 (offset + read32 code (ip + 5 + 4 * k)).toNat true h res)
          (callSplit_triple small ?_ ?_) fun res => ?_
        · exact fun h start => ⟨start.1.scanning.ok, start.2⟩
        · exact fun h h' res start view => ⟨h, start.1, view⟩
        refine triple_bind (Q := fun _ h => AtSwitch code p ip value cur tmp (k + 1) h ∧ res < h.count)
          (triple_update ?_) fun _ => ?_
        · rintro h ⟨h0, at', view⟩
          refine ⟨at'.next ins isSwitch isTarget view, ?_⟩
          rw [(sameBlocks_bbLink _ _ _).count]
          exact view.isBlock
        · exact switchLoop_spec ins small isSwitch isTargets n (k + 1) res (by omega)

theorem ilSwitch_spec (ins : IsIns code p ip value) (small : code.length < 2 ^ 31)
    (isSwitch : (monoOpcodes value).argument = .inlineSwitch) :
    Triple (AtIns code p ip value cur) (ilSwitch code p ip cur) (Scanned code ip value) := by
  have grows := (le_of_decodeIl ins.decoded).2
  have bound := (insEnd_le ins.decoded).2 isSwitch
  have last := last_eq_of_target ins.decoded (Or.inr (Or.inr isSwitch))
  have isEnd : insEnd code ip value = ip + 5 + 4 * (read32 code (ip + 1)).toNat := by
    rw [insEnd, isSwitch, argumentLength, ← Nat.add_assoc]
  have isNat : (BitVec.ofNat 32 (p + 5) + 4 * read32 code (ip + 1)).toNat = insEnd code ip value := by
    have four : (4 : BitVec 32).toNat = 4 := rfl
    rw [BitVec.toNat_add, BitVec.toNat_mul, BitVec.toNat_ofNat, four]
    omega
  have isTargets : targets code p ip value = (List.range (read32 code (ip + 1)).toNat).map fun j =>
      BitVec.ofNat 32 (p + 5) + 4 * read32 code (ip + 1) + read32 code (ip + 5 + 4 * j) := by
    rw [targets, isSwitch]
  refine triple_bind (Q := fun next h => ∃ h0, AtIns code p ip value cur h0 ∧
    SplitView code.length h0 (insEnd code ip value) true h next) (callSplit_triple small ?_ ?_)
    fun next => ?_
  · exact fun h start => ⟨start.1.ok, start.2.1⟩
  · intro h h' res start view
    rw [isNat] at view
    exact ⟨h, start, view⟩
  refine triple_bind (Q := fun _ h => AtSwitch code p ip value cur next 0 h ∧ next < h.count)
    (triple_update ?_) fun _ => ?_
  · rintro h ⟨h0, ⟨scanning, inB⟩, view⟩
    have same := sameBlocks_bbLink h cur next
    have isBlock : next < (bbLink h cur next).count := by
      rw [same.count]
      exact view.isBlock
    refine ⟨⟨(scanning.split ins view (Or.inl rfl)).link view.isBlock, isBlock, ?_, ?_, ?_, fun _ => ?_⟩,
      isBlock⟩
    · rw [same.start]
      exact view.isStart
    · exact fun i none => absurd none (Nat.not_lt_zero _)
    · exact fun i none => absurd none (Nat.not_lt_zero _)
    · exact (same.inBlock p cur).2 (view.keeps cur p inB (Or.inl grows))
  refine triple_bind (switchLoop_spec ins small isSwitch isTargets _ 0 next (Nat.zero_add _))
    fun m => triple_pure ?_
  rintro h ⟨isLast, at'⟩
  have here : IsStart h (insEnd code ip value) := ⟨next, at'.isBlock, at'.isStart⟩
  have length : (targets code p ip value).length = (read32 code (ip + 1)).toNat := by
    rw [isTargets, length_map, length_range]
  have inv := at'.scanning.finish ins (fun _ _ => here)
    (fun t member => by
      obtain ⟨i, isT⟩ := mem_iff_getElem?.1 member
      have less := (List.getElem?_eq_some_iff.1 isT).1
      exact at'.targetStarts i (by omega) t isT)
    (fun j t isT kept => by
      have less := (List.getElem?_eq_some_iff.1 isT).1
      exact Or.inr (at'.edges j (by omega) t isT kept))
  refine ⟨by rw [isLast, isEnd], ?_, at'.isBlock, ?_⟩
  · rw [isLast, ← isEnd]
    exact inv
  · dsimp only
    rw [isLast, ← isEnd, at'.isStart]

end Instruction

theorem argument_of_static (isStatic : monoOpcodeHasStaticBranch value = true) :
    (monoOpcodes value).argument = .inlineNone := by
  simp only [monoOpcodeHasStaticBranch, decide_eq_true_eq] at isStatic
  rcases isStatic with rfl | rfl | rfl | rfl <;> decide

theorem argument_of_jmp : (monoOpcodes monoCeeJmp).argument = .inlineMethod := by
  decide

theorem not_endsBlock (notNone : (monoOpcodes value).argument ≠ .inlineNone)
    (notMethod : (monoOpcodes value).argument ≠ .inlineMethod)
    (notShort : (monoOpcodes value).argument ≠ .shortInlineBrTarget)
    (notBranch : (monoOpcodes value).argument ≠ .inlineBrTarget)
    (notSwitch : (monoOpcodes value).argument ≠ .inlineSwitch) : ¬ EndsBlock value := by
  rintro (isStatic | rfl | short | branch | switch)
  · exact notNone (argument_of_static isStatic)
  · exact notMethod argument_of_jmp
  · exact notShort short
  · exact notBranch branch
  · exact notSwitch switch

theorem ilInstruction_spec {cur : Ptr} (ins : IsIns code p ip value) (small : code.length < 2 ^ 31) :
    Triple (AtIns code p ip value cur) (ilInstruction code p ip value cur) (Scanned code ip value) := by
  have plain : ∀ k, insEnd code ip value = ip + k → ¬ EndsBlock value → targets code p ip value = [] →
      Triple (AtIns code p ip value cur) (pure (ip + k, cur) : BbM (Nat × Ptr))
        (Scanned code ip value) :=
    fun k isEnd noEnd noTargets => plain_spec ins isEnd.symm (fun ends => absurd ends noEnd) noTargets
  unfold ilInstruction
  cases argument : (monoOpcodes value).argument with
  | inlineNone =>
    have isEnd : insEnd code ip value = ip + 1 := by rw [insEnd, argument, argumentLength]
    have noTargets : targets code p ip value = [] := by simp only [targets, argument]
    simp only [argument]
    split
    next goesOn =>
      refine plain_spec ins isEnd.symm (fun ends => ?_) noTargets
      rcases goesOn with notStatic | outside
      · rcases ends with isStatic | rfl | other | other | other
        · rw [notStatic] at isStatic
          cases isStatic
        · rw [argument_of_jmp] at argument
          cases argument
        all_goals
          rw [argument] at other
          cases other
      · omega
    next splits =>
      rw [not_or] at splits
      exact splitAfter_spec ins small isEnd.symm (by omega) (fun falls => splits.1 falls.1) noTargets
  | inlineMethod =>
    have isEnd : insEnd code ip value = ip + 5 := by rw [insEnd, argument, argumentLength]
    have noTargets : targets code p ip value = [] := by simp only [targets, argument]
    simp only [argument]
    split
    next goesOn =>
      refine plain_spec ins isEnd.symm (fun ends => ?_) noTargets
      rcases goesOn with notJmp | outside
      · rcases ends with isStatic | isJmp | other | other | other
        · rw [argument_of_static isStatic] at argument
          cases argument
        · exact absurd isJmp notJmp
        all_goals
          rw [argument] at other
          cases other
      · omega
    next splits =>
      rw [not_or, not_not] at splits
      exact splitAfter_spec ins small isEnd.symm (by omega) (fun falls => falls.2.2.1 splits.1) noTargets
  | shortInlineBrTarget =>
    have isEnd : insEnd code ip value = ip + 2 := by rw [insEnd, argument, argumentLength]
    simp only [argument]
    refine ilBranch_spec ins small isEnd.symm (by simp only [targets, argument]) ?_
    by_cases isJump : (monoOpcodes value).flowType = .branch
    · exact Or.inr fun falls => falls.2.2.2 ⟨Or.inl argument, isJump⟩
    · exact Or.inl isJump
  | inlineBrTarget =>
    have isEnd : insEnd code ip value = ip + 5 := by rw [insEnd, argument, argumentLength]
    simp only [argument]
    refine ilBranch_spec ins small isEnd.symm (by simp only [targets, argument]) ?_
    by_cases isJump : (monoOpcodes value).flowType = .branch
    · exact Or.inr fun falls => falls.2.2.2 ⟨Or.inr argument, isJump⟩
    · exact Or.inl isJump
  | inlineSwitch =>
    simp only [argument]
    exact ilSwitch_spec ins small argument
  | _ =>
    simp only [argument]
    refine plain _ (by rw [insEnd, argument, argumentLength]) (not_endsBlock ?_ ?_ ?_ ?_ ?_)
      (by simp only [targets, argument])
    all_goals
      rw [argument]
      decide

/-! ### The whole pass -/

/-- `current` goes on to the block of the instruction: the induction is on the blocks behind it. -/
theorem seekLoop_chain {n : Nat} (small : n < 2 ^ 31) {cliAddr : Nat} (inside : cliAddr < n) :
    ∀ (rest : List Ptr) (fuel : Nat) {cur : Ptr} {low : Int}, Chained h.next (cur :: rest) →
      Tiles h.start h.stop low (cur :: rest) n → (∀ b ∈ cur :: rest, b < h.count) →
        (∀ b ∈ cur :: rest, 0 ≤ h.start b) → h.start cur ≤ cliAddr → rest.length < fuel →
          ∃ bb, seekLoop h cliAddr fuel cur = some bb ∧ InBlock h cliAddr bb
  | _, 0, _, _, _, _, _, _, _, short => absurd short (Nat.not_lt_zero _)
  | rest, fuel + 1, cur, low, ⟨isNext, chained⟩, ⟨_, nonempty, tiles⟩, allocated, nonneg, before, short => by
      have high := tiles.bounds.1
      have low := nonneg cur mem_cons_self
      have unsigned := asGuint_of_nonneg (show 0 ≤ h.stop cur by omega) (by omega)
      by_cases behind : cliAddr ≥ asGuint (h.stop cur)
      · cases rest with
        | nil =>
          have isEnd : h.stop cur = n := tiles
          omega
        | cons q rest =>
          have next : h.next cur = some q := isNext
          have isStart : h.start q = h.stop cur := tiles.1
          obtain ⟨bb, run, inB⟩ := seekLoop_chain small inside rest fuel chained tiles
            (fun b member => allocated b (mem_cons_of_mem _ member))
            (fun b member => nonneg b (mem_cons_of_mem _ member)) (by omega)
            (by simp only [length_cons] at short; omega)
          exact ⟨bb, by simp only [seekLoop, if_pos behind, next, run], inB⟩
      · exact ⟨cur, by simp only [seekLoop, if_neg behind], allocated cur mem_cons_self, before,
          by omega⟩

theorem seekLoop_spec {n : Nat} (ok : BbOk n h) (small : n < 2 ^ 31) {cliAddr : Nat}
    (inside : cliAddr < n) {cur : Ptr} (isBlock : cur < h.count) (before : h.start cur ≤ cliAddr) :
    ∃ bb, seekLoop h cliAddr (h.count + 1) cur = some bb ∧ InBlock h cliAddr bb := by
  obtain ⟨blocks, t, valid⟩ := ok.valid
  obtain ⟨pre, rest, split⟩ := append_of_mem ((valid.members cur).2 isBlock)
  have chained := valid.chained
  have tiles := valid.tiles
  have length := valid.length
  rw [split] at chained tiles length
  obtain ⟨low, tiles⟩ := tiles.suffix
  have allocated : ∀ b ∈ cur :: rest, b < h.count := by
    intro b member
    refine (valid.members b).1 ?_
    rw [split]
    exact mem_append_right _ member
  refine seekLoop_chain small inside rest _ chained.suffix tiles allocated
    (fun b member => (ok.bounds (allocated b member)).1) before ?_
  rw [length_append, length_cons] at length
  omega

/-- The pass over the code from the address `p` on: the induction is on the fuel, of which there is more
than code. -/
theorem ilPass_spec (small : code.length < 2 ^ 31) : ∀ (fuel : Nat) {p : Nat} {cur : Ptr},
    ScanPos code p → code.length - p < fuel →
      Triple (fun h => IlInv code p h ∧ cur < h.count ∧ h.start cur ≤ p)
        (bbFormationIlPass code fuel p cur) fun _ h => IlInv code code.length h
  | 0, _, _, _, short => absurd short (Nat.not_lt_zero _)
  | fuel + 1, p, cur, pos, short => by
      unfold bbFormationIlPass
      split
      next inside =>
        split
        next => exact triple_fail
        next ip value size decoded =>
          have isDecoded : decodeIl code p = some (ip, value) := by
            rw [decodeIl, decoded]
          have ins : IsIns code p ip value := ⟨pos, inside, isDecoded⟩
          have grows := (le_of_decodeIl isDecoded).2
          refine triple_bind (Q := AtIns code p ip value) (triple_readSome ?_) fun current => ?_
          · rintro h ⟨inv, isBlock, before⟩
            obtain ⟨bb, run, inB⟩ := seekLoop_spec inv.ok small inside isBlock before
            exact ⟨bb, run, inv.scanning ins inB, inB⟩
          refine triple_bind (ilInstruction_spec ins small) fun result => ?_
          intro h start
          have isEnd := start.1
          have next : ScanPos code result.1 := isEnd ▸ ScanPos.next pos inside isDecoded
          exact ilPass_spec small fuel next (by omega) h start.2
      next outside =>
        split
        next => exact triple_fail
        next isEnd =>
          refine triple_pure fun h start => ?_
          have done : p = code.length := by omega
          rw [← done]
          exact start.1

/-! ### The clauses -/

/-- The invariant of `bb_formation_eh_pass`; at the entries so far start blocks that are alive. -/
structure EhInv (code : List (BitVec 8)) (entries : Nat → Prop) (h : BbHeap) : Prop where
  ok : BbOk code.length h
  recorded : ∀ p ip value, IsIns code p ip value → Recorded code h p ip value
  alive : ∀ o, entries o → ∃ b < h.count, h.start b = o ∧ h.dead b = false

section Clauses

variable {entries : Nat → Prop}

theorem EhInv.split {t : Nat} {linkBlocks : Bool} {res : Ptr} (inv : EhInv code entries h)
    (view : SplitView code.length h t linkBlocks h' res)
    (crosses : linkBlocks = true ∨ CutsFlow code t) : EhInv code entries h' where
  ok := view.ok
  recorded p ip value ins :=
    (inv.recorded p ip value ins).split ins.decoded view (crosses.imp id fun cut => cut p ip value ins)
  alive o isEntry := by
    obtain ⟨b, allocated, isStart, isAlive⟩ := inv.alive o isEntry
    exact ⟨b, Nat.lt_of_lt_of_le allocated view.grows, (view.starts b allocated).trans isStart,
      (view.dead b allocated).trans isAlive⟩

theorem EhInv.congr {entries' : Nat → Prop} (inv : EhInv code entries h)
    (fewer : ∀ o, entries' o → entries o) : EhInv code entries' h :=
  ⟨inv.ok, inv.recorded, fun o isEntry => inv.alive o (fewer o isEntry)⟩

theorem EhInv.enter {o : Nat} {bb : Ptr} (inv : EhInv code entries h) (isBlock : bb < h.count)
    (isStart : h.start bb = o) : EhInv code (fun x => entries x ∨ x = o) (setDead h bb false) where
  ok := (sameBlocks_setDead h bb false).ok inv.ok inv.ok.outs
  recorded p ip value ins := (inv.recorded p ip value ins).same (sameBlocks_setDead h bb false) rfl
  alive x isEntry := by
    rcases isEntry with old | rfl
    · obtain ⟨b, allocated, isStart, isAlive⟩ := inv.alive x old
      refine ⟨b, allocated, isStart, ?_⟩
      simp only [setDead, Function.update_apply, isAlive, ite_self]
    · exact ⟨bb, isBlock, isStart, Function.update_self _ _ _⟩

theorem splitEntry_spec (hint other : Ptr) {offset : BitVec 32} (small : code.length < 2 ^ 31)
    (cuts : CutsFlow code offset.toNat) :
    Triple (fun h => EhInv code entries h ∧ hint < h.count ∧ other < h.count) (splitEntry hint offset)
      fun handler h => EhInv code (fun x => entries x ∨ x = offset.toNat) h ∧ hint < h.count ∧
        other < h.count ∧ handler < h.count := by
  refine triple_bind (Q := fun handler h => EhInv code entries h ∧ hint < h.count ∧ other < h.count ∧
    handler < h.count ∧ h.start handler = offset.toNat) (callSplit_triple small ?_ ?_) fun handler => ?_
  · exact fun h start => ⟨start.1.ok, start.2.1⟩
  · exact fun h h' res start view => ⟨start.1.split view (Or.inr cuts),
      Nat.lt_of_lt_of_le start.2.1 view.grows, Nat.lt_of_lt_of_le start.2.2 view.grows, view.isBlock,
      view.isStart⟩
  refine triple_bind (Q := fun _ h => EhInv code (fun x => entries x ∨ x = offset.toNat) h ∧
    hint < h.count ∧ other < h.count ∧ handler < h.count) (triple_update ?_)
    fun _ => triple_pure fun h start => start
  rintro h ⟨inv, isHint, isOther, isBlock, isStart⟩
  exact ⟨inv.enter isBlock isStart, isHint, isOther, isBlock⟩

theorem splitAtEnd_spec (hint other : Ptr) {last : BitVec 32} (small : code.length < 2 ^ 31)
    (cuts : CutsFlow code last.toNat) :
    Triple (fun h => EhInv code entries h ∧ hint < h.count ∧ other < h.count)
      (splitAtEnd code.length hint last) fun _ h => EhInv code entries h ∧ other < h.count := by
  unfold splitAtEnd
  split
  next =>
    refine triple_bind (Q := fun _ h => EhInv code entries h ∧ other < h.count)
      (callSplit_triple small ?_ ?_) fun _ => triple_pure fun h start => start
    · exact fun h start => ⟨start.1.ok, start.2.1⟩
    · exact fun h h' res start view => ⟨start.1.split view (Or.inr cuts),
        Nat.lt_of_lt_of_le start.2.2 view.grows⟩
  next => exact triple_pure fun h start => ⟨start.1, start.2.2⟩

theorem mem_clauseEntries {clause : MonoExceptionClause} {o : BitVec 32} : o ∈ clauseEntries clause ↔
    o = clause.handlerOffset ∨ (clause.flags = monoExceptionClauseFilter ∧ o = clause.filterOffset) := by
  unfold clauseEntries
  split
  next isFilter => simp [isFilter]
  next noFilter => simp [noFilter]

theorem splitFilter_spec {clause : MonoExceptionClause} {tryBlock handler : Ptr} (small : code.length < 2 ^ 31)
    (cuts : ∀ cut ∈ clauseCuts clause, CutsFlow code cut.toNat) :
    Triple (fun h => EhInv code (fun x => entries x ∨ x = clause.handlerOffset.toNat) h ∧
        tryBlock < h.count ∧ handler < h.count) (splitFilter tryBlock clause)
      fun _ h => EhInv code (fun x => entries x ∨ ∃ o ∈ clauseEntries clause, x = o.toNat) h ∧
        tryBlock < h.count ∧ handler < h.count := by
  unfold splitFilter
  split
  next isFilter =>
    have cutsFilter : CutsFlow code clause.filterOffset.toNat :=
      cuts _ (by simp [clauseCuts, isFilter])
    refine triple_bind (splitEntry_spec tryBlock handler small cutsFilter) fun filter =>
      triple_pure fun h start => ⟨start.1.congr fun x => ?_, start.2.1, start.2.2.1⟩
    rintro (old | ⟨o, member, rfl⟩)
    · exact Or.inl (Or.inl old)
    · rcases mem_clauseEntries.1 member with rfl | ⟨_, rfl⟩
      · exact Or.inl (Or.inr rfl)
      · exact Or.inr rfl
  next noFilter =>
    refine triple_pure fun h start => ⟨start.1.congr fun x => ?_, start.2⟩
    rintro (old | ⟨o, member, rfl⟩)
    · exact Or.inl old
    · rcases mem_clauseEntries.1 member with rfl | ⟨isFilter, _⟩
      · exact Or.inr rfl
      · exact absurd isFilter noFilter

theorem ehClause_spec {clause : MonoExceptionClause} (small : code.length < 2 ^ 31)
    (cuts : ∀ cut ∈ clauseCuts clause, CutsFlow code cut.toNat) : Triple (EhInv code entries) (ehClause code.length clause)
      fun _ => EhInv code fun x => entries x ∨ ∃ o ∈ clauseEntries clause, x = o.toNat := by
  have cutsHandler : CutsFlow code clause.handlerOffset.toNat := cuts _ (by simp [clauseCuts])
  refine triple_bind (Q := fun tryBlock h => EhInv code entries h ∧ tryBlock < h.count)
    (callSplit_triple small ?_ ?_) fun tryBlock => ?_
  · exact fun h inv => ⟨inv.ok, inv.ok.first.1⟩
  · exact fun h h' res inv view => ⟨inv.split view (Or.inl rfl), view.isBlock⟩
  refine triple_bind ((splitEntry_spec tryBlock tryBlock small cutsHandler).pre
    fun h start => ⟨start.1, start.2, start.2⟩) fun handler => ?_
  refine triple_bind ((splitFilter_spec small cuts).pre fun h start => ⟨start.1, start.2.1, start.2.2.2⟩)
    fun _ => ?_
  have cutsTry : CutsFlow code (clause.tryOffset + clause.tryLen).toNat :=
    cuts _ (by simp [clauseCuts])
  have cutsEnd : CutsFlow code (clause.handlerOffset + clause.handlerLen).toNat :=
    cuts _ (by simp [clauseCuts])
  refine triple_bind (splitAtEnd_spec tryBlock handler small cutsTry) fun _ => ?_
  exact (splitAtEnd_spec handler handler small cutsEnd).mono
    (fun h start => ⟨start.1, start.2, start.2⟩) fun _ h start => start.1

/-- The entries of a method: its start, the handlers and the filters. -/
def Entry (clauses : List MonoExceptionClause) (o : Nat) : Prop :=
  o = 0 ∨ ∃ clause ∈ clauses, ∃ offset ∈ clauseEntries clause, o = offset.toNat

theorem ehPass_spec {clauses : List MonoExceptionClause} (small : code.length < 2 ^ 31)
    (cuts : ∀ clause ∈ clauses, ∀ cut ∈ clauseCuts clause, CutsFlow code cut.toNat) :
    Triple (EhInv code (Entry [])) (bbFormationEhPass code.length clauses)
      fun _ => EhInv code (Entry clauses) := by
  refine triple_forM (I := fun done => EhInv code (Entry done)) clauses [] fun before clause rest split => ?_
  have isClause : clause ∈ clauses := by
    rw [nil_append] at split
    rw [split]
    exact mem_append_right _ mem_cons_self
  refine (ehClause_spec small (cuts clause isClause)).mono (fun h inv => inv) fun _ h inv =>
    inv.congr fun x => ?_
  rintro (isStart | ⟨other, member, isEntry⟩)
  · exact Or.inl (Or.inl isStart)
  · rcases mem_append.1 member with earlier | last
    · exact Or.inl (Or.inr ⟨other, earlier, isEntry⟩)
    · rw [mem_singleton.1 last] at isEntry
      exact Or.inr isEntry

end Clauses

end MonoRuntime.BasicBlock
