/-
Module: MonoRuntime.Proofs.LinearScan
Purpose: Safety of `mono_linear_scan`: variables that share a register have live ranges that do not
  overlap. The invariant relates the free list, the active list and the variables that were retired;
  it does not mention the order of the active list, which a spill need not keep.
Trusted boundary: none
Main exports: monoLinearScan_safe
-/
import MonoRuntime.Mini.LinearScan
import MonoRuntime.Lib.Assignment

namespace MonoRuntime.LinearScan

open Assignment List Function

/-- The live ranges of two variables do not overlap. -/
def RangesApart (v w : MonoMethodVar) : Prop :=
  v.lastUse ≤ w.firstUse ∨ w.lastUse ≤ v.firstUse

instance (v w : MonoMethodVar) : Decidable (RangesApart v w) :=
  inferInstanceAs (Decidable (_ ∨ _))

theorem RangesApart.symm {v w : MonoMethodVar} (ranges : RangesApart v w) : RangesApart w v :=
  Or.symm ranges

/-! ### The parts of a round -/

theorem monoVarlistInsertSorted_perm (mv : MonoMethodVar) (sortType : Nat) :
    ∀ list : List MonoMethodVar, (monoVarlistInsertSorted list mv sortType).Perm (mv :: list)
  | [] => List.Perm.refl _
  | v1 :: next => by
      simp only [monoVarlistInsertSorted]
      split
      · exact List.Perm.refl _
      · have rest := monoVarlistInsertSorted_perm mv sortType next
        exact (List.Perm.cons v1 rest).trans (List.Perm.swap mv v1 next)

/-- The loop takes a front part off the active list and returns its registers to the free list. -/
theorem expireLoop_spec (vmv : MonoMethodVar) (reg : Nat → Int) :
    ∀ (active : List MonoMethodVar) (regs : List Int) (gains : Int → BitVec 32), ∃ gone active' gains',
        expireLoop vmv reg active regs gains
            = (active', (gone.map fun v => reg v.idx).reverse ++ regs, gains') ∧
          active = gone ++ active' ∧ ∀ v ∈ gone, v.lastUse ≤ vmv.firstUse
  | [], regs, gains => ⟨[], [], gains, rfl, rfl, fun _ member => absurd member not_mem_nil⟩
  | amv :: active, regs, gains => by
      simp only [expireLoop]
      split
      · exact ⟨[], amv :: active, gains, rfl, rfl, fun _ member => absurd member not_mem_nil⟩
      · next ended =>
        obtain ⟨gone, active', gains', run, parts, early⟩ :=
          expireLoop_spec vmv reg active (reg amv.idx :: regs)
            (addGain gains (reg amv.idx) amv)
        refine ⟨amv :: gone, active', gains', ?_, by rw [parts, cons_append], ?_⟩
        · rw [run]
          simp
        · intro v member
          rcases mem_cons.mp member with rfl | later
          · exact Nat.le_of_not_lt ended
          · exact early v later

/-! ### The invariant -/

/-- The state between two rounds: `done` are the variables placed so far, `rest` those to come. -/
structure ScanInvariant (regs : List Int) (done rest : List MonoMethodVar) (s : ScanState) :
    Prop where
  /-- Every register is either free or held by one active variable. -/
  perm : (s.regs ++ s.active.map fun v => s.reg v.idx).Perm regs
  /-- A variable that is no longer active but kept its register ended early enough. -/
  retired : ∀ v ∈ done, 0 ≤ s.reg v.idx → v ∈ s.active ∨ ∀ w ∈ rest, v.lastUse ≤ w.firstUse
  listed : ∀ v ∈ done, 0 ≤ s.reg v.idx → s.reg v.idx ∈ regs
  fresh : ∀ v ∈ done, ∀ w ∈ rest, v.idx ≠ w.idx
  active_done : ∀ v ∈ s.active, v ∈ done
  conflictFree : ConflictFree (0 ≤ ·) RangesApart (fun v => s.reg v.idx) done

theorem scanInvariant_init (regs : List Int) (vars : List MonoMethodVar) (gains : Int → BitVec 32) (reg : Nat → Int) :
    ScanInvariant regs [] vars { active := [], regs := regs, gains := gains, reg := reg } where
  perm := by simp
  retired := fun _ member => absurd member not_mem_nil
  listed := fun _ member => absurd member not_mem_nil
  fresh := fun _ member => absurd member not_mem_nil
  active_done := fun _ member => member
  conflictFree := conflictFree_nil

section Round

variable {regs : List Int} {done rest : List MonoMethodVar} {s : ScanState} {vmv : MonoMethodVar}

theorem ScanInvariant.expire (cfg : MonoCompile) (inv : ScanInvariant regs done (vmv :: rest) s)
    (first : ∀ w ∈ rest, vmv.firstUse ≤ w.firstUse) : ScanInvariant regs done (vmv :: rest) (s.expire cfg vmv) := by
  unfold ScanState.expire
  split
  · exact inv
  · obtain ⟨gone, active', gains', run, parts, early⟩ :=
      expireLoop_spec vmv s.reg s.active s.regs s.gains
    rw [run]
    refine ⟨?_, ?_, inv.listed, inv.fresh, ?_, inv.conflictFree⟩
    · refine List.Perm.trans ?_ inv.perm
      rw [parts, map_append, ← append_assoc]
      refine List.Perm.append_right _ ?_
      exact (List.Perm.append_right _ (reverse_perm _)).trans perm_append_comm
    · intro v member holds
      rcases inv.retired v member holds with isActive | ended
      · rw [parts] at isActive
        rcases mem_append.mp isActive with isGone | stays
        · refine Or.inr fun w memberW => ?_
          rcases mem_cons.mp memberW with rfl | later
          · exact early v isGone
          · exact Nat.le_trans (early v isGone) (first w later)
        · exact Or.inl stays
      · exact Or.inr ended
    · intro v member
      exact inv.active_done v (by rw [parts]; exact mem_append_right _ member)

theorem ScanInvariant.update_of_mem (inv : ScanInvariant regs done (vmv :: rest) s)
    {v : MonoMethodVar} (member : v ∈ done) (reg : Int) : Function.update s.reg vmv.idx reg v.idx = s.reg v.idx :=
  update_of_ne (inv.fresh v member vmv mem_cons_self) _ _

theorem ScanInvariant.skip (inv : ScanInvariant regs done (vmv :: rest) s) (distinct : ∀ w ∈ rest, vmv.idx ≠ w.idx) :
    ScanInvariant regs (vmv :: done) rest
      { s with reg := Function.update s.reg vmv.idx (-1) } where
  perm := by
    have same : (s.active.map fun v => Function.update s.reg vmv.idx (-1) v.idx)
        = s.active.map fun v => s.reg v.idx :=
      map_congr_left fun v member => inv.update_of_mem (inv.active_done v member) _
    simpa only [same] using inv.perm
  retired := by
    intro v member holds
    rcases mem_cons.mp member with rfl | old
    · simp at holds
    · simp only [inv.update_of_mem old] at holds
      rcases inv.retired v old holds with isActive | ended
      · exact Or.inl isActive
      · exact Or.inr fun w memberW => ended w (mem_cons_of_mem _ memberW)
  listed := by
    intro v member holds
    rcases mem_cons.mp member with rfl | old
    · simp at holds
    · simp only [inv.update_of_mem old] at holds ⊢
      exact inv.listed v old holds
  fresh := by
    intro v member w memberW
    rcases mem_cons.mp member with rfl | old
    · exact distinct w memberW
    · exact inv.fresh v old w (mem_cons_of_mem _ memberW)
  active_done := fun v member => mem_cons_of_mem _ (inv.active_done v member)
  conflictFree := by
    refine ConflictFree.take RangesApart.symm (inv.conflictFree.release ?_) ?_
    · intro v old _
      exact inv.update_of_mem old _
    · intro holds
      simp at holds

theorem ScanInvariant.nodup (inv : ScanInvariant regs done rest s) (nodup : regs.Nodup) :
    (s.regs ++ s.active.map fun v => s.reg v.idx).Nodup :=
  inv.perm.nodup_iff.mpr nodup

theorem ScanInvariant.assign (inv : ScanInvariant regs done (vmv :: rest) s) (nodup : regs.Nodup)
    (distinct : ∀ w ∈ rest, vmv.idx ≠ w.idx) {r : Int} {free : List Int} (head : s.regs = r :: free) :
    ScanInvariant regs (vmv :: done) rest
      { s with
        active := monoVarlistInsertSorted s.active vmv 1
        regs := free
        reg := Function.update s.reg vmv.idx r } where
  perm := by
    have same : (s.active.map fun v => Function.update s.reg vmv.idx r v.idx)
        = s.active.map fun v => s.reg v.idx :=
      map_congr_left fun v member => inv.update_of_mem (inv.active_done v member) _
    have inserted := (monoVarlistInsertSorted_perm vmv 1 s.active).map
      fun v => Function.update s.reg vmv.idx r v.idx
    rw [map_cons, same, update_self] at inserted
    have whole := inv.perm
    rw [head, cons_append] at whole
    exact ((List.Perm.append_left free inserted).trans perm_middle).trans whole
  retired := by
    intro v member holds
    rw [(monoVarlistInsertSorted_perm vmv 1 s.active).mem_iff]
    rcases mem_cons.mp member with rfl | old
    · exact Or.inl mem_cons_self
    · simp only [inv.update_of_mem old] at holds
      rcases inv.retired v old holds with isActive | ended
      · exact Or.inl (mem_cons_of_mem _ isActive)
      · exact Or.inr fun w memberW => ended w (mem_cons_of_mem _ memberW)
  listed := by
    intro v member holds
    rcases mem_cons.mp member with rfl | old
    · simp only [update_self]
      exact inv.perm.subset (by simp [head])
    · simp only [inv.update_of_mem old] at holds ⊢
      exact inv.listed v old holds
  fresh := by
    intro v member w memberW
    rcases mem_cons.mp member with rfl | old
    · exact distinct w memberW
    · exact inv.fresh v old w (mem_cons_of_mem _ memberW)
  active_done := by
    intro v member
    rcases mem_cons.mp ((monoVarlistInsertSorted_perm vmv 1 s.active).subset member)
      with rfl | old
    · exact mem_cons_self
    · exact mem_cons_of_mem _ (inv.active_done v old)
  conflictFree := by
    refine ConflictFree.take RangesApart.symm (inv.conflictFree.release ?_) ?_
    · intro v old _
      exact inv.update_of_mem old _
    · intro holds v old same
      simp only [update_self, inv.update_of_mem old] at holds same
      rcases inv.retired v old (same ▸ holds) with isActive | ended
      · -- An active variable cannot hold a register of the free list.
        have apart := inv.nodup nodup
        rw [head, cons_append, nodup_cons] at apart
        exact absurd (mem_append_right free
          (mem_map.mpr ⟨v, isActive, same⟩)) apart.1
      · exact Or.inl (ended vmv mem_cons_self)

theorem ScanInvariant.evict (inv : ScanInvariant regs done (vmv :: rest) s) (nodup : regs.Nodup)
    (distinct : ∀ w ∈ rest, vmv.idx ≠ w.idx) {amv : MonoMethodVar} {others : List MonoMethodVar}
    (parts : (amv :: others).Perm s.active) {sortType : Nat} : ScanInvariant regs (vmv :: done) rest
      { s with
        active := monoVarlistInsertSorted others vmv sortType
        reg := Function.update (Function.update s.reg vmv.idx (s.reg amv.idx)) amv.idx (-1) } := by
  have amvActive : amv ∈ s.active := parts.subset mem_cons_self
  have amvDone : amv ∈ done := inv.active_done amv amvActive
  have vmvNew : vmv.idx ≠ amv.idx := (inv.fresh amv amvDone vmv mem_cons_self).symm
  have heldOnce : s.reg amv.idx ∉ others.map fun v => s.reg v.idx := by
    have apart := (nodup_append.mp (inv.nodup nodup)).2.1
    rw [← (parts.map fun v => s.reg v.idx).nodup_iff, map_cons, nodup_cons] at apart
    exact apart.1
  have othersAway : ∀ v ∈ others, v.idx ≠ amv.idx := by
    intro v member sameIdx
    exact heldOnce (mem_map.mpr ⟨v, member, by rw [sameIdx]⟩)
  -- What the two updates do to a variable placed before.
  have regDone : ∀ v ∈ done, v.idx ≠ amv.idx →
      Function.update (Function.update s.reg vmv.idx (s.reg amv.idx)) amv.idx (-1) v.idx
        = s.reg v.idx := by
    intro v member away
    rw [update_of_ne away, inv.update_of_mem member]
  have regVmv : Function.update (Function.update s.reg vmv.idx (s.reg amv.idx)) amv.idx (-1) vmv.idx
      = s.reg amv.idx := by
    rw [update_of_ne vmvNew, update_self]
  have away_of_holds : ∀ {v : MonoMethodVar},
      0 ≤ Function.update (Function.update s.reg vmv.idx (s.reg amv.idx)) amv.idx (-1) v.idx →
        v.idx ≠ amv.idx := by
    intro v holds sameIdx
    simp [sameIdx] at holds
  constructor
  · have same : (others.map fun v =>
          Function.update (Function.update s.reg vmv.idx (s.reg amv.idx)) amv.idx (-1) v.idx)
        = others.map fun v => s.reg v.idx :=
      map_congr_left fun v member =>
        regDone v (inv.active_done v (parts.subset (mem_cons_of_mem _ member)))
          (othersAway v member)
    have inserted := (monoVarlistInsertSorted_perm vmv sortType others).map fun v =>
      Function.update (Function.update s.reg vmv.idx (s.reg amv.idx)) amv.idx (-1) v.idx
    rw [map_cons, same, regVmv] at inserted
    have active := parts.map fun v => s.reg v.idx
    exact (List.Perm.append_left s.regs (inserted.trans active)).trans
      inv.perm
  · intro v member holds
    rw [(monoVarlistInsertSorted_perm vmv sortType others).mem_iff]
    rcases mem_cons.mp member with rfl | old
    · exact Or.inl mem_cons_self
    · have away := away_of_holds holds
      simp only [regDone v old away] at holds
      rcases inv.retired v old holds with isActive | ended
      · rcases mem_cons.mp (parts.symm.subset isActive) with rfl | stays
        · exact absurd rfl away
        · exact Or.inl (mem_cons_of_mem _ stays)
      · exact Or.inr fun w memberW => ended w (mem_cons_of_mem _ memberW)
  · intro v member holds
    rcases mem_cons.mp member with rfl | old
    · simp only [regVmv]
      exact inv.perm.subset
        (mem_append_right _ (mem_map.mpr ⟨amv, amvActive, rfl⟩))
    · simp only [regDone v old (away_of_holds holds)] at holds ⊢
      exact inv.listed v old holds
  · intro v member w memberW
    rcases mem_cons.mp member with rfl | old
    · exact distinct w memberW
    · exact inv.fresh v old w (mem_cons_of_mem _ memberW)
  · intro v member
    rcases mem_cons.mp ((monoVarlistInsertSorted_perm vmv sortType others).subset member)
      with rfl | old
    · exact mem_cons_self
    · exact mem_cons_of_mem _
        (inv.active_done v (parts.subset (mem_cons_of_mem _ old)))
  · refine ConflictFree.take RangesApart.symm (inv.conflictFree.release ?_) ?_
    · intro v old holds
      exact regDone v old (away_of_holds holds)
    · intro holds v old same
      dsimp only at holds same
      have away : v.idx ≠ amv.idx := away_of_holds (same ▸ holds)
      simp only [regVmv, regDone v old away] at holds same
      rcases inv.retired v old (same ▸ holds) with isActive | ended
      · rcases mem_cons.mp (parts.symm.subset isActive) with rfl | stays
        · exact absurd rfl away
        · exact absurd (mem_map.mpr ⟨v, stays, same⟩) heldOnce
      · exact Or.inl (ended vmv mem_cons_self)

theorem scanStep_invariant (cfg : MonoCompile) (inv : ScanInvariant regs done (vmv :: rest) s)
    (nodup : regs.Nodup) (nonempty : regs ≠ [])
    (first : ∀ w ∈ rest, vmv.firstUse ≤ w.firstUse) (distinct : ∀ w ∈ rest, vmv.idx ≠ w.idx) :
    ∃ s', scanStep cfg regs.length s vmv = some s' ∧ ScanInvariant regs (vmv :: done) rest s' := by
  have expired := inv.expire cfg first
  have count := expired.perm.length_eq
  rw [length_append, length_map] at count
  simp only [scanStep]
  split
  · next full =>
    have inside : regs.length - 1 < (s.expire cfg vmv).active.length := by
      have := length_pos_iff.mpr nonempty
      omega
    simp only [ScanState.spill, getElem?_eq_getElem inside, Option.bind_eq_bind,
      Option.bind_some]
    split
    · exact ⟨_, rfl, expired.evict nodup distinct (getElem_cons_eraseIdx_perm inside)⟩
    · exact ⟨_, rfl, expired.skip distinct⟩
  · next room =>
    simp only [ScanState.assign]
    split
    · next empty =>
      -- All registers are held by active variables, so the other branch was taken.
      rw [empty, length_nil, Nat.zero_add] at count
      refine absurd ⟨?_, count⟩ room
      intro none
      rw [none, length_nil] at count
      exact nonempty (length_eq_zero_iff.mp count.symm)
    · next r free head => exact ⟨_, rfl, expired.assign nodup distinct head⟩

end Round

theorem scanLoop_invariant (cfg : MonoCompile) {regs : List Int} (nodup : regs.Nodup) (nonempty : regs ≠ []) :
    ∀ (rest done : List MonoMethodVar) (s : ScanState), ScanInvariant regs done rest s →
      rest.Pairwise (fun v w => v.firstUse ≤ w.firstUse) → (rest.map (·.idx)).Nodup →
        ∃ s', rest.foldlM (scanStep cfg regs.length) s = some s' ∧ ScanInvariant regs (rest.reverse ++ done) [] s'
  | [], done, s, inv, _, _ => ⟨s, rfl, inv⟩
  | vmv :: rest, done, s, inv, sorted, distinct => by
      obtain ⟨first, sorted'⟩ := pairwise_cons.mp sorted
      rw [map_cons, nodup_cons] at distinct
      have different : ∀ w ∈ rest, vmv.idx ≠ w.idx := fun w member same =>
        distinct.1 (mem_map.mpr ⟨w, member, same.symm⟩)
      obtain ⟨s', step, inv'⟩ := scanStep_invariant cfg inv nodup nonempty first different
      obtain ⟨final, run, inv''⟩ :=
        scanLoop_invariant cfg nodup nonempty rest (vmv :: done) s' inv' sorted' distinct.2
      refine ⟨final, ?_, ?_⟩
      · rw [foldlM_cons, step]
        exact run
      · simpa using inv''

/-! ### The final loops -/

theorem keepLoop_reg (archRegallocCost : MonoCompile → MonoMethodVar → BitVec 32) (gains : Int → BitVec 32) :
    ∀ (vars : List MonoMethodVar) (cfg : MonoCompile) (reg : Nat → Int) (i : Nat),
      (vars.foldl (keepStep archRegallocCost gains) (cfg, reg)).2 i = reg i ∨
        (vars.foldl (keepStep archRegallocCost gains) (cfg, reg)).2 i = -1
  | [], _, _, _ => Or.inl rfl
  | vmv :: vars, cfg, reg, i => by
      rw [foldl_cons]
      simp only [keepStep]
      split
      · split
        · exact keepLoop_reg archRegallocCost gains vars _ _ i
        · rcases keepLoop_reg archRegallocCost gains vars cfg
            (Function.update reg vmv.idx (-1)) i with kept | lost
          · by_cases same : i = vmv.idx
            · right
              rw [kept, same, update_self]
            · left
              rw [kept, update_of_ne same]
          · exact Or.inr lost
      · exact keepLoop_reg archRegallocCost gains vars _ _ i

theorem usedRegs_getLsbD {w : Nat} {reg : Nat → Int} {vars : List MonoMethodVar} {vmv : MonoMethodVar}
    (member : vmv ∈ vars) (holds : 0 ≤ reg vmv.idx) (small : reg vmv.idx < w) :
    (usedRegs w reg vars).getLsbD (reg vmv.idx).toNat = true := by
  have inside : (reg vmv.idx).toNat < w := by omega
  have keeps : ∀ (list : List MonoMethodVar) (used : BitVec w),
      (vmv ∈ list ∨ used.getLsbD (reg vmv.idx).toNat = true) →
        (list.foldl (fun used v =>
          if 0 ≤ reg v.idx then used ||| (1#w <<< (reg v.idx).toNat) else used) used).getLsbD
            (reg vmv.idx).toNat = true := by
    intro list
    induction list with
    | nil =>
      intro used given
      simpa using given
    | cons v list ih =>
      intro used given
      rw [foldl_cons]
      apply ih
      rcases given with here | set
      · rcases mem_cons.mp here with rfl | later
        · right
          rw [if_pos holds]
          simp [inside]
        · exact Or.inl later
      · right
        split
        · simp [set]
        · exact set
  exact keeps vars 0#w (Or.inl member)

/-- A method whose variables are locals. -/
def sampleCompile : MonoCompile where
  disableReuseRegisters := false
  saveLmf := true
  varinfo := fun _ => { opcode := .other 0, dreg := 0 }

/-! ### Safety -/

/-- Two variables without live intervals that end up in the same register have live ranges that do not
overlap, every register is one of the list, and its bit is in the mask. -/
theorem monoLinearScan_safe {w : Nat} {archRegallocCost : MonoCompile → MonoMethodVar → BitVec 32}
    {cfg : MonoCompile} {vars : List MonoMethodVar} {reg : Nat → Int} {regs : List Int}
    {usedMask : BitVec w}
    (sorted : vars.Pairwise fun v w => v.firstUse ≤ w.firstUse)
    (distinct : (vars.map (·.idx)).Nodup)
    (noInterval : ∀ vmv ∈ vars.head?, vmv.interval = none)
    (nonempty : regs ≠ [])
    (nodup : regs.Nodup)
    (inMask : ∀ r ∈ regs, 0 ≤ r ∧ r < w) :
    ∃ result, monoLinearScan w archRegallocCost cfg vars reg regs usedMask = some result ∧
      (∀ v ∈ vars, ∀ u ∈ vars, v ≠ u → 0 ≤ result.reg v.idx →
        result.reg v.idx = result.reg u.idx → RangesApart v u) ∧
      ∀ v ∈ vars, 0 ≤ result.reg v.idx →
        result.reg v.idx ∈ regs ∧ result.usedMask.getLsbD (result.reg v.idx).toNat = true := by
  have dispatch : monoLinearScan w archRegallocCost cfg vars reg regs usedMask
      = linearScan w archRegallocCost cfg vars reg regs usedMask := by
    cases vars with
    | nil => rfl
    | cons vmv rest =>
        have isNone := noInterval vmv rfl
        simp [monoLinearScan, isNone]
  obtain ⟨s, run, inv⟩ := scanLoop_invariant cfg nodup nonempty vars [] _
    (scanInvariant_init regs vars (fun _ => 0) reg) sorted distinct
  have all : ∀ v ∈ vars, v ∈ vars.reverse ++ [] := fun v member => by simpa using member
  have assertion : (guard (∀ r ∈ regs, 0 ≤ r ∧ r < (w : Int)) : Option Unit) = some () :=
    if_pos inMask
  rw [dispatch, linearScan, assertion]
  simp only [run, Option.pure_def, Option.bind_eq_bind, Option.bind_some]
  generalize loop : vars.foldl (keepStep archRegallocCost (activeGains s.reg s.gains s.active))
    (cfg, s.reg) = kept
  have keptReg : ∀ i, 0 ≤ kept.2 i → kept.2 i = s.reg i := by
    intro i holds
    have either := keepLoop_reg archRegallocCost (activeGains s.reg s.gains s.active) vars
      cfg s.reg i
    rw [loop] at either
    omega
  refine ⟨_, rfl, ?_, ?_⟩
  · have free := (inv.conflictFree.subset all).release fun v _ => keptReg v.idx
    exact free
  · intro v member holds
    have isListed : kept.2 v.idx ∈ regs := by
      have same := keptReg v.idx holds
      dsimp only at holds
      rw [same] at holds ⊢
      exact inv.listed v (all v member) holds
    refine ⟨isListed, ?_⟩
    rw [BitVec.getLsbD_or, usedRegs_getLsbD member holds (inMask _ isListed).2, Bool.or_true]

/-- Two variables of which the second one takes over the only register. -/
theorem monoLinearScan_safe_handover :
    ∃ result, monoLinearScan 64 (fun _ _ => 0) sampleCompile
        [⟨0, 1, 9, 2, none⟩, ⟨1, 4, 6, 5, none⟩, ⟨2, 6, 7, 5, none⟩] (fun _ => -1) [3] 0
          = some result ∧
      (∀ v ∈ [(⟨0, 1, 9, 2, none⟩ : MonoMethodVar), ⟨1, 4, 6, 5, none⟩, ⟨2, 6, 7, 5, none⟩],
        ∀ u ∈ [(⟨0, 1, 9, 2, none⟩ : MonoMethodVar), ⟨1, 4, 6, 5, none⟩, ⟨2, 6, 7, 5, none⟩],
          v ≠ u → 0 ≤ result.reg v.idx → result.reg v.idx = result.reg u.idx → RangesApart v u) ∧
      ∀ v ∈ [(⟨0, 1, 9, 2, none⟩ : MonoMethodVar), ⟨1, 4, 6, 5, none⟩, ⟨2, 6, 7, 5, none⟩],
        0 ≤ result.reg v.idx → result.reg v.idx ∈ [(3 : Int)] ∧
          result.usedMask.getLsbD (result.reg v.idx).toNat = true :=
  monoLinearScan_safe (by decide) (by decide) (by simp) (by decide) (by decide) (by decide)

/-- With live intervals the choice falls on the other allocator, for which the hole in the first interval
is room enough. -/
theorem monoLinearScan_shares_overlapping_ranges :
    let v : MonoMethodVar := ⟨0, 1, 10, 100, some ⟨[⟨1, 3⟩, ⟨8, 10⟩]⟩⟩
    let u : MonoMethodVar := ⟨1, 4, 6, 100, some ⟨[⟨4, 6⟩]⟩⟩
    v.firstUse ≤ u.firstUse ∧
      (monoLinearScan 64 (fun _ _ => 0) sampleCompile [v, u] (fun _ => -1) [3] 0).map
        (fun result => (result.reg v.idx, result.reg u.idx)) = some (3, 3) ∧
      ¬ RangesApart v u := by
  refine ⟨by decide, by decide, by decide⟩

end MonoRuntime.LinearScan
