/-
Module: MonoRuntime.Proofs.Liveness
Purpose: Correctness of the liveness analysis: it finds what is used on some path through the instructions before it
  is assigned. The gen and kill sets of a block stand for its instructions, and the worklist iteration ends with the
  least solution of the dataflow equations. Its invariant: a block that is not queued has live-in sets for all its
  successors, and its live-out set contains them; so when nothing is queued, nothing is missing.
Trusted boundary: none
Main exports: analyzeLiveness_least, analyzeLiveness_liveAt
-/
import MonoRuntime.Mini.Liveness
import MonoRuntime.Lib.Dataflow
import Mathlib.Algebra.Order.BigOperators.Group.Finset
import Mathlib.Tactic.Linarith

namespace MonoRuntime.Liveness

open Dataflow List Function

variable {ν : Type} [DecidableEq ν]

/-! ### Gen and kill sets -/

/-- The variables an instruction uses. -/
def LivenessInst.uses (vregToInst : Nat → Option ν) (ins : LivenessInst ν) : Finset ν :=
  let sregs := (ins.sregs.filterMap vregToInst).toFinset
  match ins.op with
  | .opNop => ∅
  | .opLdaddr var => insert var sregs
  | .storeMembase => sregs ∪ ((ins.dreg.bind vregToInst).toFinset)
  | .other => sregs

/-- The variable an instruction assigns. -/
def LivenessInst.assigns (vregToInst : Nat → Option ν) (ins : LivenessInst ν) : Finset ν :=
  match ins.op with
  | .opNop => ∅
  | .storeMembase => ∅
  | _ => (ins.dreg.bind vregToInst).toFinset

/-- What is live before an instruction, from what is live after it. -/
def LivenessInst.liveBefore (vregToInst : Nat → Option ν) (ins : LivenessInst ν)
    (after : Finset ν) : Finset ν :=
  after \ ins.assigns vregToInst ∪ ins.uses vregToInst

/-- The live-in set a pair of sets gives for a live-out set. -/
def GenKill.apply (sets : GenKill ν) (liveOut : Finset ν) : Finset ν :=
  liveOut \ sets.killSet ∪ sets.genSet

variable (vregToInst : Nat → Option ν) (sets : GenKill ν)

theorem GenKill.apply_use (idx : ν) (liveOut : Finset ν) :
    (sets.use idx).apply liveOut = sets.apply (insert idx liveOut) := by
  ext x
  simp only [GenKill.use, GenKill.apply]
  split
  · next killed =>
    simp only [Finset.mem_union, Finset.mem_sdiff, Finset.mem_insert]
    constructor
    · rintro (⟨out, kept⟩ | generated)
      · exact Or.inl ⟨Or.inr out, kept⟩
      · exact Or.inr generated
    · rintro (⟨rfl | out, kept⟩ | generated)
      · exact absurd killed kept
      · exact Or.inl ⟨out, kept⟩
      · exact Or.inr generated
  · next notKilled =>
    simp only [Finset.mem_union, Finset.mem_sdiff, Finset.mem_insert]
    constructor
    · rintro (⟨out, kept⟩ | rfl | generated)
      · exact Or.inl ⟨Or.inr out, kept⟩
      · exact Or.inl ⟨Or.inl rfl, notKilled⟩
      · exact Or.inr generated
    · rintro (⟨rfl | out, kept⟩ | generated)
      · exact Or.inr (Or.inl rfl)
      · exact Or.inl ⟨out, kept⟩
      · exact Or.inr (Or.inr generated)

theorem GenKill.apply_sregs (vregToInst : Nat → Option ν) : ∀ (sregs : List Nat) (sets : GenKill ν) (liveOut : Finset ν),
      (sregs.foldl (GenKill.useVreg vregToInst) sets).apply liveOut
        = sets.apply (liveOut ∪ (sregs.filterMap vregToInst).toFinset)
  | [], sets, liveOut => by simp
  | sreg :: sregs, sets, liveOut => by
      rw [foldl_cons, GenKill.apply_sregs vregToInst sregs]
      cases found : vregToInst sreg with
      | none => simp only [GenKill.useVreg, found, filterMap_cons_none found]
      | some idx =>
        simp only [GenKill.useVreg, found, filterMap_cons_some found, toFinset_cons]
        rw [GenKill.apply_use, Finset.union_insert]

theorem GenKill.apply_kill (idx : ν) (liveOut : Finset ν) :
    ({ sets with killSet := insert idx sets.killSet } : GenKill ν).apply liveOut
      = sets.apply (liveOut \ {idx}) := by
  ext x
  simp only [GenKill.apply, Finset.mem_union, Finset.mem_sdiff, Finset.mem_insert,
    Finset.mem_singleton, not_or]
  tauto

variable (ins : LivenessInst ν) (liveOut : Finset ν)

theorem GenKill.apply_dest : (sets.dest vregToInst ins).apply liveOut
      = sets.apply (match ins.op with
          | .storeMembase => liveOut ∪ (ins.dreg.bind vregToInst).toFinset
          | _ => liveOut \ (ins.dreg.bind vregToInst).toFinset) := by
  cases hasDreg : ins.dreg with
  | none => cases ins.op <;> simp [GenKill.dest, hasDreg]
  | some dreg =>
    cases found : vregToInst dreg with
    | none => cases ins.op <;> simp [GenKill.dest, hasDreg, found]
    | some idx =>
      cases kind : ins.op with
      | storeMembase =>
        simp only [GenKill.dest, hasDreg, found, kind, GenKill.apply_use, Option.bind_some,
          Option.toFinset_some]
        rw [Finset.union_comm, ← Finset.insert_eq]
      | opNop | other | opLdaddr var => simp [GenKill.dest, hasDreg, found, kind, GenKill.apply_kill]

theorem GenKill.apply_ins : (analyzeLivenessIns vregToInst sets ins).apply liveOut
      = sets.apply (ins.liveBefore vregToInst liveOut) := by
  cases kind : ins.op with
  | opNop =>
    simp [analyzeLivenessIns, LivenessInst.liveBefore, LivenessInst.assigns, LivenessInst.uses,
      kind]
  | opLdaddr var =>
    simp only [analyzeLivenessIns, LivenessInst.liveBefore, LivenessInst.assigns,
      LivenessInst.uses, kind]
    rw [GenKill.apply_dest, GenKill.apply_sregs, GenKill.apply_use]
    simp only [kind, Finset.union_insert]
  | storeMembase =>
    simp only [analyzeLivenessIns, LivenessInst.liveBefore, LivenessInst.assigns,
      LivenessInst.uses, kind, Finset.sdiff_empty]
    rw [GenKill.apply_dest, GenKill.apply_sregs]
    simp only [kind]
    rw [Finset.union_assoc, Finset.union_comm (Option.toFinset _)]
  | other =>
    simp only [analyzeLivenessIns, LivenessInst.liveBefore, LivenessInst.assigns,
      LivenessInst.uses, kind]
    rw [GenKill.apply_dest, GenKill.apply_sregs]
    simp only [kind]

/-- The gen and kill sets of a block stand for going backward through its instructions. -/
theorem analyzeLivenessBb_transfer (code : List (LivenessInst ν)) (liveOut : Finset ν) :
    (analyzeLivenessBb vregToInst code).apply liveOut = code.foldr (LivenessInst.liveBefore vregToInst) liveOut := by
  have general : ∀ (code : List (LivenessInst ν)) (sets : GenKill ν),
      (code.foldl (analyzeLivenessIns vregToInst) sets).apply liveOut
        = sets.apply (code.foldr (LivenessInst.liveBefore vregToInst) liveOut) := by
    intro code
    induction code with
    | nil => exact fun _ => rfl
    | cons ins code ih =>
      intro sets
      rw [foldl_cons, ih, GenKill.apply_ins, foldr_cons]
  rw [analyzeLivenessBb, general]
  simp [GenKill.apply]

/-! ### The problem the iteration solves -/

section Iteration

variable {n : Nat}

/-- The dataflow problem of a graph. -/
def LivenessGraph.problem (cfg : LivenessGraph n ν) : Problem (Fin n) ν where
  succ := fun b s => s ∈ cfg.outBb b
  gen := fun b => (cfg.sets b).genSet
  kill := fun b => (cfg.sets b).killSet

variable {cfg : LivenessGraph n ν}

/-- The sets hold only what is live. -/
structure LivenessState.Sound (cfg : LivenessGraph n ν) (s : LivenessState n ν) : Prop where
  in_sound : ∀ b liveIn, s.liveInSet b = some liveIn → ∀ x ∈ liveIn, LiveIn cfg.problem x b
  out_sound : ∀ b, ∀ x ∈ s.liveOutSet b, LiveOut cfg.problem x b

variable {b bb : Fin n} {s s' : LivenessState n ν}

theorem transfer_sound {liveOut : Finset ν} (out_sound : ∀ x ∈ liveOut, LiveOut cfg.problem x b) :
    ∀ x ∈ cfg.transfer b liveOut, LiveIn cfg.problem x b := by
  intro x member
  rcases Finset.mem_union.mp member with passed | generated
  · obtain ⟨out, kept⟩ := Finset.mem_sdiff.mp passed
    obtain ⟨s, edge, live⟩ := out_sound x out
    exact LiveIn.pass edge live (by simpa [LivenessGraph.problem] using kept)
  · exact LiveIn.gen (by simpa [LivenessGraph.problem] using generated)

/-! ### Joining the successors -/

section Join

variable {bb : Fin n} {s : LivenessState n ν}

/-- What joining one successor does: it has a live-in set afterwards, and that is part of the live-out
set. -/
theorem joinOut_spec (cfg : LivenessGraph n ν) (bb : Fin n) (s : LivenessState n ν) (o : Fin n) :
    ∃ liveIn, (joinOut cfg bb s o).liveInSet o = some liveIn ∧ (s.liveInSet o = some liveIn ∨
        s.liveInSet o = none ∧ liveIn = cfg.transfer o (s.liveOutSet o)) ∧ (joinOut cfg bb s o).liveOutSet
        = Function.update s.liveOutSet bb (s.liveOutSet bb ∪ liveIn) ∧
      ∀ b ≠ o, (joinOut cfg bb s o).liveInSet b = s.liveInSet b := by
  unfold joinOut
  split
  · next liveIn found => exact ⟨liveIn, found, Or.inl found, rfl, fun _ _ => rfl⟩
  · next missing =>
    exact ⟨_, update_self _ _ _, Or.inr ⟨missing, rfl⟩, rfl,
      fun b away => update_of_ne away _ _⟩

theorem joinOut_sound (sound : s.Sound cfg) {o : Fin n} (edge : o ∈ cfg.outBb bb) : (joinOut cfg bb s o).Sound cfg := by
  obtain ⟨liveIn, here, origin, out_eq, others⟩ := joinOut_spec cfg bb s o
  have liveInSound : ∀ x ∈ liveIn, LiveIn cfg.problem x o := by
    rcases origin with old | ⟨_, new⟩
    · exact sound.in_sound o liveIn old
    · rw [new]
      exact transfer_sound (sound.out_sound o)
  constructor
  · intro b liveIn' found
    by_cases same : b = o
    · subst same
      obtain rfl : liveIn = liveIn' := Option.some.inj (here.symm.trans found)
      exact liveInSound
    · rw [others b same] at found
      exact sound.in_sound b liveIn' found
  · intro b x member
    rw [out_eq] at member
    by_cases same : b = bb
    · subst same
      rw [update_self] at member
      rcases Finset.mem_union.mp member with old | new
      · exact sound.out_sound b x old
      · exact ⟨o, edge, liveInSound x new⟩
    · rw [update_of_ne same] at member
      exact sound.out_sound b x member

/-- What joining successors does to the state `s`. -/
structure Joins (cfg : LivenessGraph n ν) (bb : Fin n) (s : LivenessState n ν) (outs : List (Fin n))
    (s' : LivenessState n ν) : Prop where
  worklist_eq : s'.worklist = s.worklist
  inWorklist_eq : s'.inWorklist = s.inWorklist
  out_other : ∀ b ≠ bb, s'.liveOutSet b = s.liveOutSet b
  out_grows : s.liveOutSet bb ⊆ s'.liveOutSet bb
  in_keeps : ∀ b liveIn, s.liveInSet b = some liveIn → s'.liveInSet b = some liveIn
  in_new : ∀ b ≠ bb, ∀ liveIn, s'.liveInSet b = some liveIn →
    s.liveInSet b = some liveIn ∨ liveIn = cfg.transfer b (s.liveOutSet b)
  covered : ∀ o ∈ outs, ∃ liveIn, s'.liveInSet o = some liveIn ∧ liveIn ⊆ s'.liveOutSet bb

theorem joinOut_joins (cfg : LivenessGraph n ν) (bb : Fin n) (s : LivenessState n ν) (o : Fin n) :
    Joins cfg bb s [o] (joinOut cfg bb s o) := by
  obtain ⟨liveIn, here, origin, out_eq, others⟩ := joinOut_spec cfg bb s o
  constructor
  · unfold joinOut
    split <;> rfl
  · unfold joinOut
    split <;> rfl
  · intro b away
    rw [out_eq, update_of_ne away]
  · rw [out_eq, update_self]
    exact Finset.subset_union_left
  · intro b liveIn' found
    by_cases same : b = o
    · subst same
      rcases origin with old | ⟨missing, _⟩
      · rw [here, ← old, found]
      · rw [missing] at found
        cases found
    · rw [others b same, found]
  · intro b _ liveIn' found
    by_cases same : b = o
    · subst same
      obtain rfl : liveIn = liveIn' := Option.some.inj (here.symm.trans found)
      exact origin.imp_right fun new => new.2
    · rw [others b same] at found
      exact Or.inl found
  · intro o' member
    rw [mem_singleton.mp member]
    refine ⟨liveIn, here, ?_⟩
    rw [out_eq, update_self]
    exact Finset.subset_union_right

theorem Joins.trans {s' s'' : LivenessState n ν} {outs outs' : List (Fin n)}
    (first : Joins cfg bb s outs s') (second : Joins cfg bb s' outs' s'') : Joins cfg bb s (outs ++ outs') s'' where
  worklist_eq := second.worklist_eq.trans first.worklist_eq
  inWorklist_eq := second.inWorklist_eq.trans first.inWorklist_eq
  out_other := fun b away => (second.out_other b away).trans (first.out_other b away)
  out_grows := first.out_grows.trans second.out_grows
  in_keeps := fun b liveIn found => second.in_keeps b liveIn (first.in_keeps b liveIn found)
  in_new := by
    intro b away liveIn found
    rcases second.in_new b away liveIn found with old | new
    · exact first.in_new b away liveIn old
    · rw [first.out_other b away] at new
      exact Or.inr new
  covered := by
    intro o member
    rcases mem_append.mp member with early | late
    · obtain ⟨liveIn, found, part⟩ := first.covered o early
      exact ⟨liveIn, second.in_keeps o liveIn found, part.trans second.out_grows⟩
    · exact second.covered o late

theorem joinLoop_joins (cfg : LivenessGraph n ν) (bb : Fin n) :
    ∀ (outs : List (Fin n)) (s : LivenessState n ν), Joins cfg bb s outs (outs.foldl (joinOut cfg bb) s)
  | [], _ =>
    { worklist_eq := rfl
      inWorklist_eq := rfl
      out_other := fun _ _ => rfl
      out_grows := Finset.Subset.refl _
      in_keeps := fun _ _ found => found
      in_new := fun _ _ _ found => Or.inl found
      covered := fun _ member => absurd member not_mem_nil }
  | o :: outs, s => (joinOut_joins cfg bb s o).trans (joinLoop_joins cfg bb outs _)

theorem joinLoop_sound (bb : Fin n) :
    ∀ (outs : List (Fin n)) {s : LivenessState n ν}, s.Sound cfg → (∀ o ∈ outs, o ∈ cfg.outBb bb) →
      (outs.foldl (joinOut cfg bb) s).Sound cfg
  | [], _, sound, _ => sound
  | o :: outs, _, sound, edges => by
      exact joinLoop_sound bb outs (joinOut_sound sound (edges o mem_cons_self))
        fun o' member => edges o' (mem_cons_of_mem _ member)

end Join

/-! ### Queueing the predecessors -/

/-- `in_worklist` tells what the worklist holds. -/
structure LivenessState.Queued (s : LivenessState n ν) : Prop where
  nodup : s.worklist.Nodup
  listed : ∀ b, s.inWorklist b = true ↔ b ∈ s.worklist

omit [DecidableEq ν] in
theorem LivenessState.Queued.length_le (queued : s.Queued) : s.worklist.length ≤ n := by
  have bound := queued.nodup.length_le_card
  rwa [Fintype.card_fin] at bound

omit [DecidableEq ν] in
theorem pushIn_spec (s : LivenessState n ν) (i : Option (Fin n)) (queued : s.Queued) :
    (pushIn s i).Queued ∧ (pushIn s i).liveInSet = s.liveInSet ∧
      (pushIn s i).liveOutSet = s.liveOutSet ∧ s.worklist ⊆ (pushIn s i).worklist ∧
      ∀ b ∈ i, b ∈ (pushIn s i).worklist := by
  cases i with
  | none =>
    exact ⟨queued, rfl, rfl, List.Subset.refl _, fun _ member => nomatch member⟩
  | some p =>
    simp only [pushIn]
    split
    · next inside =>
      refine ⟨queued, rfl, rfl, List.Subset.refl _, fun b member => ?_⟩
      obtain rfl : p = b := Option.some.inj member
      exact (queued.listed p).mp inside
    · next outside =>
      have fresh : p ∉ s.worklist := fun member => outside ((queued.listed p).mpr member)
      refine ⟨⟨nodup_cons.mpr ⟨fresh, queued.nodup⟩, fun b => ?_⟩, rfl, rfl,
        subset_cons_self _ _, fun b member => ?_⟩
      · by_cases same : b = p
        · subst same
          simp
        · dsimp only
          rw [update_of_ne same, queued.listed b, mem_cons]
          exact ⟨Or.inr, fun either => either.resolve_left same⟩
      · obtain rfl : p = b := Option.some.inj member
        exact mem_cons_self

omit [DecidableEq ν] in
theorem pushLoop_spec : ∀ (ins : List (Option (Fin n))) (s : LivenessState n ν), s.Queued →
      (ins.foldl pushIn s).Queued ∧ (ins.foldl pushIn s).liveInSet = s.liveInSet ∧
        (ins.foldl pushIn s).liveOutSet = s.liveOutSet ∧ s.worklist ⊆ (ins.foldl pushIn s).worklist ∧
        ∀ b, some b ∈ ins → b ∈ (ins.foldl pushIn s).worklist
  | [], _, queued =>
    ⟨queued, rfl, rfl, List.Subset.refl _, fun _ member => absurd member not_mem_nil⟩
  | i :: ins, s, queued => by
      obtain ⟨queued', in_eq, out_eq, keeps, pushed⟩ := pushIn_spec s i queued
      obtain ⟨queued'', in_eq', out_eq', keeps', pushed'⟩ := pushLoop_spec ins (pushIn s i) queued'
      refine ⟨queued'', in_eq'.trans in_eq, out_eq'.trans out_eq, fun b member => keeps' (keeps member),
        fun b member => ?_⟩
      rcases mem_cons.mp member with rfl | later
      · exact keeps' (pushed b rfl)
      · exact pushed' b later

omit [DecidableEq ν] in
theorem LivenessState.Queued.congr (queued : s.Queued)
    (worklist_eq : s'.worklist = s.worklist) (inWorklist_eq : s'.inWorklist = s.inWorklist) : s'.Queued where
  nodup := worklist_eq ▸ queued.nodup
  listed := by
    rw [worklist_eq, inWorklist_eq]
    exact queued.listed

theorem Joins.queued {outs : List (Fin n)} (joins : Joins cfg bb s outs s') (queued : s.Queued) : s'.Queued :=
  queued.congr joins.worklist_eq joins.inWorklist_eq

/-! ### The invariant -/

/-- The invariant of the loop. While block `exempt` is being worked on, it is neither queued nor joined. -/
structure LivenessInvariant (cfg : LivenessGraph n ν) (exempt : Option (Fin n))
    (s : LivenessState n ν) : Prop where
  sound : s.Sound cfg
  queued : s.Queued
  /-- A live-in set is always the one for the present live-out set. -/
  consistent : ∀ b liveIn, s.liveInSet b = some liveIn → liveIn = cfg.transfer b (s.liveOutSet b)
  /-- A block that is not queued has taken in the live-in sets of its successors. -/
  joined : ∀ b ∉ s.worklist, b ∉ exempt → ∀ o ∈ cfg.outBb b,
    ∃ liveIn, s.liveInSet o = some liveIn ∧ liveIn ⊆ s.liveOutSet b

theorem livenessInvariant_init (cfg : LivenessGraph n ν) : LivenessInvariant cfg none LivenessState.init where
  sound :=
    { in_sound := fun _ _ found => nomatch found
      out_sound := fun _ _ member => absurd member (Finset.notMem_empty _) }
  queued :=
    { nodup := nodup_reverse.mpr (nodup_finRange n)
      listed := fun b => by simp [LivenessState.init] }
  consistent := fun _ _ found => nomatch found
  joined := fun b outside => absurd (by simp [LivenessState.init]) outside

theorem LivenessInvariant.pop {rest : List (Fin n)}
    (inv : LivenessInvariant cfg none s) (head : s.worklist = bb :: rest) : LivenessInvariant cfg (some bb)
      { s with worklist := rest, inWorklist := Function.update s.inWorklist bb false } := by
  have nodup := inv.queued.nodup
  rw [head, nodup_cons] at nodup
  refine ⟨⟨inv.sound.in_sound, inv.sound.out_sound⟩, ⟨nodup.2, fun b => ?_⟩, inv.consistent,
    fun b outside away => ?_⟩
  · have listed := inv.queued.listed b
    rw [head, mem_cons] at listed
    dsimp only
    by_cases same : b = bb
    · subst same
      simp [nodup.1]
    · rw [update_of_ne same, listed]
      exact ⟨fun either => either.resolve_left same, Or.inr⟩
  · refine inv.joined b ?_ (fun member => nomatch member)
    rw [head, mem_cons, not_or]
    exact ⟨fun same => away (same ▸ rfl), outside⟩

/-- Recomputing the live-in set of the block and queueing its predecessors restores the invariant. -/
theorem LivenessInvariant.propagate (inv : LivenessInvariant cfg (some bb) s) (joins : Joins cfg bb s (cfg.outBb bb) s')
    (sound : s'.Sound cfg) : LivenessInvariant cfg none (propagate cfg bb s') := by
  have queued' : (refreshLiveIn cfg bb s').Queued := (joins.queued inv.queued).congr rfl rfl
  obtain ⟨queued, in_eq, out_eq, keeps, pushed⟩ :=
    pushLoop_spec (cfg.inBb bb) (refreshLiveIn cfg bb s') queued'
  rw [← Liveness.propagate] at queued in_eq out_eq keeps pushed
  simp only [refreshLiveIn] at in_eq out_eq keeps
  refine ⟨⟨fun b liveIn found => ?_, fun b => ?_⟩, queued, fun b liveIn found => ?_,
    fun b outside _ o edge => ?_⟩
  · rw [in_eq] at found
    by_cases same : b = bb
    · subst same
      rw [update_self] at found
      obtain rfl := Option.some.inj found
      exact transfer_sound (sound.out_sound b)
    · rw [update_of_ne same] at found
      exact sound.in_sound b liveIn found
  · rw [out_eq]
    exact sound.out_sound b
  · rw [in_eq] at found
    rw [out_eq]
    by_cases same : b = bb
    · subst same
      rw [update_self] at found
      exact (Option.some.inj found).symm
    · rw [update_of_ne same] at found
      rw [joins.out_other b same]
      exact (joins.in_new b same liveIn found).elim (inv.consistent b liveIn) id
  · -- A predecessor of `bb` is queued now, so `o` is another block.
    have other : o ≠ bb := by
      intro same
      subst same
      exact outside (pushed b (cfg.in_of_out b o edge))
    rw [in_eq, out_eq, update_of_ne other]
    by_cases same : b = bb
    · subst same
      exact joins.covered o edge
    · rw [joins.out_other b same]
      have notQueued : b ∉ s.worklist := fun member =>
        outside (keeps (by rw [joins.worklist_eq]; exact member))
      obtain ⟨liveIn, found, part⟩ :=
        inv.joined b notQueued (fun member => same (Option.some.inj member).symm) o edge
      exact ⟨liveIn, joins.in_keeps o liveIn found, part⟩

theorem LivenessInvariant.unchanged (inv : LivenessInvariant cfg (some bb) s) (joins : Joins cfg bb s (cfg.outBb bb) s')
    (sound : s'.Sound cfg) (present : s.liveInSet bb ≠ none)
    (same_out : s.liveOutSet bb = s'.liveOutSet bb) : LivenessInvariant cfg none s' := by
  have out_eq : ∀ b, s'.liveOutSet b = s.liveOutSet b := by
    intro b
    by_cases same : b = bb
    · rw [same, same_out]
    · exact joins.out_other b same
  refine ⟨sound, joins.queued inv.queued, fun b liveIn found => ?_, fun b outside _ o edge => ?_⟩
  · rw [out_eq]
    by_cases same : b = bb
    · subst same
      obtain ⟨old, isSome⟩ := Option.ne_none_iff_exists'.mp present
      rw [joins.in_keeps b old isSome] at found
      obtain rfl := Option.some.inj found
      exact inv.consistent b old isSome
    · exact (joins.in_new b same liveIn found).elim (inv.consistent b liveIn) id
  · by_cases same : b = bb
    · subst same
      exact joins.covered o edge
    · rw [joins.worklist_eq] at outside
      obtain ⟨liveIn, found, part⟩ :=
        inv.joined b outside (fun member => same (Option.some.inj member).symm) o edge
      refine ⟨liveIn, joins.in_keeps o liveIn found, ?_⟩
      rw [out_eq]
      exact part

theorem LivenessInvariant.process
    (inv : LivenessInvariant cfg (some bb) s) : LivenessInvariant cfg none (processBb cfg bb s) := by
  have joins := joinLoop_joins cfg bb (cfg.outBb bb) s
  have sound := joinLoop_sound bb (cfg.outBb bb) inv.sound fun _ member => member
  simp only [processBb]
  split
  · next noOut =>
    refine ⟨inv.sound, inv.queued, inv.consistent, fun b outside _ o edge => ?_⟩
    by_cases same : b = bb
    · rw [same, noOut] at edge
      exact absurd edge not_mem_nil
    · exact inv.joined b outside (fun member => same (Option.some.inj member).symm) o edge
  · split
    · exact inv.propagate joins sound
    · next noChange =>
      rw [not_or, not_not] at noChange
      exact inv.unchanged joins sound noChange.1 noChange.2

theorem livenessStep_cons (cfg : LivenessGraph n ν) {rest : List (Fin n)} (head : s.worklist = bb :: rest) :
    livenessStep cfg s = processBb cfg bb
      { s with worklist := rest, inWorklist := Function.update s.inWorklist bb false } := by
  obtain ⟨worklist, _, _, _⟩ := s
  subst head
  rfl

theorem livenessStep_invariant (inv : LivenessInvariant cfg none s) : LivenessInvariant cfg none (livenessStep cfg s) := by
  unfold livenessStep
  split
  · exact inv
  · next bb rest head => exact (inv.pop head).process

theorem livenessLoop_invariant : ∀ (fuel : Nat) {s : LivenessState n ν}, LivenessInvariant cfg none s →
      LivenessInvariant cfg none (livenessLoop cfg fuel s)
  | 0, _, inv => inv
  | fuel + 1, s, inv => by
      rw [livenessLoop]
      split
      · exact inv
      · exact livenessLoop_invariant fuel (livenessStep_invariant inv)

/-! ### Termination -/

/-- How often a block can still cause others to be queued: its live-in set can be created, and its live-out
set can grow. -/
def LivenessState.weight (cfg : LivenessGraph n ν) (s : LivenessState n ν) (b : Fin n) : Nat :=
  cfg.generated.card - (s.liveOutSet b).card + if s.liveInSet b = none then 1 else 0

/-- Every event queues at most `n` blocks. -/
def LivenessState.potential (cfg : LivenessGraph n ν) (s : LivenessState n ν) : Nat :=
  s.worklist.length + n * ∑ b, s.weight cfg b

theorem LivenessState.Sound.card_le (sound : s.Sound cfg) (b : Fin n) : s.liveOutSet b ⊆ cfg.generated := by
  intro x member
  obtain ⟨_, _, live⟩ := sound.out_sound b x member
  obtain ⟨c, generated⟩ := live.exists_gen
  exact Finset.mem_biUnion.mpr ⟨c, Finset.mem_univ c, by simpa [LivenessGraph.problem] using generated⟩

theorem weight_le (grows : s.liveOutSet b ⊆ s'.liveOutSet b)
    (keeps : s'.liveInSet b = none → s.liveInSet b = none) : s'.weight cfg b ≤ s.weight cfg b := by
  have card := Finset.card_le_card grows
  have flag : (if s'.liveInSet b = none then 1 else 0) ≤ if s.liveInSet b = none then 1 else 0 := by
    by_cases missing : s'.liveInSet b = none
    · rw [if_pos missing, if_pos (keeps missing)]
    · rw [if_neg missing]
      exact Nat.zero_le _
  exact Nat.add_le_add (Nat.sub_le_sub_left card _) flag

theorem weight_lt (sound : s'.Sound cfg) (grows : s.liveOutSet b ⊆ s'.liveOutSet b) (present : s'.liveInSet b ≠ none)
    (event : s.liveInSet b = none ∨ s.liveOutSet b ≠ s'.liveOutSet b) : s'.weight cfg b < s.weight cfg b := by
  have card := Finset.card_le_card grows
  have bound := Finset.card_le_card (sound.card_le b)
  unfold LivenessState.weight
  rw [if_neg present]
  rcases event with missing | changed
  · rw [if_pos missing]
    omega
  · have larger := Finset.card_lt_card (Finset.ssubset_iff_subset_ne.mpr ⟨grows, changed⟩)
    omega

theorem livenessStep_potential (inv : LivenessInvariant cfg none s)
    (busy : s.worklist ≠ []) : (livenessStep cfg s).potential cfg < s.potential cfg := by
  have after := livenessStep_invariant inv
  cases head : s.worklist with
  | nil => exact absurd head busy
  | cons bb rest =>
    rw [livenessStep_cons cfg head] at after ⊢
    set s0 : LivenessState n ν :=
      { s with worklist := rest, inWorklist := Function.update s.inWorklist bb false } with s0_def
    have weight_s0 : ∀ b, s0.weight cfg b = s.weight cfg b := fun _ => rfl
    have joins := joinLoop_joins cfg bb (cfg.outBb bb) s0
    have length_s : s.worklist.length = rest.length + 1 := by rw [head, length_cons]
    simp only [processBb] at after ⊢
    split at after
    · next noOut =>
      rw [if_pos noOut]
      simp only [LivenessState.potential, weight_s0, length_s]
      exact Nat.add_lt_add_right (Nat.lt_succ_self _) _
    · next someOut =>
      rw [if_neg someOut]
      have out_grows : ∀ b, s0.liveOutSet b
          ⊆ ((cfg.outBb bb).foldl (joinOut cfg bb) s0).liveOutSet b := by
        intro b
        by_cases same : b = bb
        · rw [same]
          exact joins.out_grows
        · rw [joins.out_other b same]
      have in_keeps : ∀ b, ((cfg.outBb bb).foldl (joinOut cfg bb) s0).liveInSet b = none →
          s0.liveInSet b = none := by
        intro b missing
        by_contra present
        obtain ⟨liveIn, isSome⟩ := Option.ne_none_iff_exists'.mp present
        rw [joins.in_keeps b liveIn isSome] at missing
        cases missing
      generalize joined : (cfg.outBb bb).foldl (joinOut cfg bb) s0 = s' at *
      split at after
      · next event =>
        rw [if_pos event]
        obtain ⟨_, in_eq, out_eq, _⟩ :=
          pushLoop_spec (cfg.inBb bb) (refreshLiveIn cfg bb s')
            ((joins.queued (inv.pop head).queued).congr rfl rfl)
        rw [← Liveness.propagate] at in_eq out_eq
        simp only [refreshLiveIn] at in_eq out_eq
        have here : (propagate cfg bb s').weight cfg bb < s0.weight cfg bb := by
          refine weight_lt after.sound ?_ ?_ ?_
          · rw [out_eq]
            exact out_grows bb
          · rw [in_eq, update_self]
            exact Option.some_ne_none _
          · rw [out_eq]
            exact event
        have others : ∀ b ∈ Finset.univ, (propagate cfg bb s').weight cfg b ≤ s0.weight cfg b := by
          intro b _
          by_cases same : b = bb
          · rw [same]
            exact Nat.le_of_lt here
          · refine weight_le ?_ fun missing => in_keeps b ?_
            · rw [out_eq]
              exact out_grows b
            · rwa [in_eq, update_of_ne same] at missing
        have sum := Finset.sum_lt_sum others ⟨bb, Finset.mem_univ bb, here⟩
        have length := after.queued.length_le
        simp only [weight_s0] at sum
        simp only [LivenessState.potential, length_s]
        nlinarith
      · next noEvent =>
        rw [if_neg noEvent]
        have sum : ∑ b, s'.weight cfg b ≤ ∑ b, s0.weight cfg b :=
          Finset.sum_le_sum fun b _ => weight_le (out_grows b) (in_keeps b)
        simp only [weight_s0] at sum
        simp only [LivenessState.potential, length_s, joins.worklist_eq]
        have scaled := Nat.mul_le_mul_left n sum
        exact Nat.add_lt_add_of_lt_of_le (Nat.lt_succ_self _) scaled

theorem livenessLoop_ends : ∀ (fuel : Nat) {s : LivenessState n ν}, LivenessInvariant cfg none s → s.potential cfg ≤ fuel →
      (livenessLoop cfg fuel s).worklist = []
  | 0, s, _, enough => by
      have none : s.worklist.length = 0 := by
        unfold LivenessState.potential at enough
        omega
      exact length_eq_zero_iff.mp none
  | fuel + 1, s, inv, enough => by
      rw [livenessLoop]
      split
      · next empty => exact empty
      · next busy =>
        have lower := livenessStep_potential inv busy
        exact livenessLoop_ends fuel (livenessStep_invariant inv) (by omega)

theorem potential_init (cfg : LivenessGraph n ν) :
    (LivenessState.init : LivenessState n ν).potential cfg ≤ cfg.rounds := by
  simp [LivenessState.potential, LivenessState.weight, LivenessState.init, LivenessGraph.rounds]

/-! ### The result -/

/-- When nothing is queued, the sets with the skipped blocks filled in are closed. -/
theorem LivenessInvariant.isClosed (inv : LivenessInvariant cfg none s) (empty : s.worklist = []) :
    IsClosed cfg.problem (fun b => ↑(s.finalLiveIn cfg b)) (fun b => ↑(s.liveOutSet b)) where
  out_closed := by
    intro b o x edge member
    obtain ⟨liveIn, found, part⟩ := inv.joined b (by rw [empty]; exact not_mem_nil)
      (fun member => nomatch member) o edge
    have isIn : s.finalLiveIn cfg o = liveIn := by simp only [LivenessState.finalLiveIn, found]
    rw [isIn] at member
    exact part member
  in_closed := by
    intro b
    have closed : s.finalLiveIn cfg b = cfg.transfer b (s.liveOutSet b) := by
      unfold LivenessState.finalLiveIn
      split
      · next liveIn found => exact inv.consistent b liveIn found
      · rfl
    rw [closed, LivenessGraph.transfer, Finset.coe_union, Finset.coe_sdiff, Set.union_comm]
    exact subset_rfl

/-- The loop ends, with the least solution of the dataflow equations, and at no time holds more than
`num_bblocks` blocks: within a round the worklist first loses a block and then only grows. -/
theorem analyzeLiveness_least (cfg : LivenessGraph n ν) :
    (livenessLoop cfg cfg.rounds LivenessState.init).worklist = [] ∧
      IsLeastSolution cfg.problem (fun b => ↑((analyzeLiveness cfg).1 b))
        (fun b => ↑((analyzeLiveness cfg).2 b)) ∧
      ∀ fuel, (livenessLoop cfg fuel LivenessState.init).worklist.length ≤ n := by
  have empty := livenessLoop_ends cfg.rounds (livenessInvariant_init cfg) (potential_init cfg)
  have inv := livenessLoop_invariant cfg.rounds (livenessInvariant_init cfg)
  refine ⟨empty, isLeastSolution_of_closed (inv.isClosed empty) ?_ inv.sound.out_sound, fun fuel => ?_⟩
  · intro b x member
    have member : x ∈ LivenessState.finalLiveIn cfg _ b := member
    unfold LivenessState.finalLiveIn at member
    split at member
    · next liveIn found => exact inv.sound.in_sound b liveIn found x member
    · exact transfer_sound (inv.sound.out_sound b) x member
  · exact (livenessLoop_invariant fuel (livenessInvariant_init cfg)).queued.length_le

/-! ### Paths through the instructions -/

section Paths

variable {vregToInst : Nat → Option ν} {code : Fin n → List (LivenessInst ν)} {x : ν} {rest : List (LivenessInst ν)}

/-- Some path from a place in a block leads to an instruction that uses `x`, without one that assigns it on the way. The
place is given by the instructions that are left of the block. -/
inductive LiveAt (cfg : LivenessGraph n ν) (vregToInst : Nat → Option ν) (code : Fin n → List (LivenessInst ν)) (x : ν) :
    Fin n → List (LivenessInst ν) → Prop where
  | use {b : Fin n} {ins : LivenessInst ν} {rest : List (LivenessInst ν)} (used : x ∈ ins.uses vregToInst) :
      LiveAt cfg vregToInst code x b (ins :: rest)
  | pass {b : Fin n} {ins : LivenessInst ν} {rest : List (LivenessInst ν)} (kept : x ∉ ins.assigns vregToInst)
      (live : LiveAt cfg vregToInst code x b rest) : LiveAt cfg vregToInst code x b (ins :: rest)
  | edge {b s : Fin n} (along : s ∈ cfg.outBb b) (live : LiveAt cfg vregToInst code x s (code s)) :
      LiveAt cfg vregToInst code x b []

theorem liveAt_of_foldr {liveOut : Finset ν} (after : x ∈ liveOut → LiveAt cfg vregToInst code x b []) :
    ∀ rest : List (LivenessInst ν), x ∈ rest.foldr (LivenessInst.liveBefore vregToInst) liveOut →
      LiveAt cfg vregToInst code x b rest
  | [], member => after member
  | ins :: rest, member => by
    rcases Finset.mem_union.mp member with later | used
    · obtain ⟨later, kept⟩ := Finset.mem_sdiff.mp later
      exact .pass kept (liveAt_of_foldr after rest later)
    · exact .use used

theorem liveAt_of_liveIn (live : LiveIn (cfg.analyzeBlocks vregToInst code).problem x b) :
    LiveAt cfg vregToInst code x b (code b) := by
  induction live with
  | @gen b generated =>
    have member : x ∈ (analyzeLivenessBb vregToInst (code b)).apply ∅ := Finset.mem_union_right _ generated
    rw [analyzeLivenessBb_transfer] at member
    exact liveAt_of_foldr (fun none => absurd none (Finset.notMem_empty x)) _ member
  | @pass b s along _ kept ih =>
    have member : x ∈ (analyzeLivenessBb vregToInst (code b)).apply {x} :=
      Finset.mem_union_left _ (Finset.mem_sdiff.mpr ⟨Finset.mem_singleton_self x, kept⟩)
    rw [analyzeLivenessBb_transfer] at member
    have along : s ∈ cfg.outBb b := along
    exact liveAt_of_foldr (fun _ => .edge along ih) _ member

theorem LiveAt.mem_foldr {liveIn liveOut : Fin n → Finset ν}
    (closed : IsClosed (cfg.analyzeBlocks vregToInst code).problem (fun b => ↑(liveIn b)) (fun b => ↑(liveOut b)))
    (live : LiveAt cfg vregToInst code x b rest) : x ∈ rest.foldr (LivenessInst.liveBefore vregToInst) (liveOut b) := by
  induction live with
  | use used => exact Finset.mem_union_right _ used
  | pass kept _ ih => exact Finset.mem_union_left _ (Finset.mem_sdiff.mpr ⟨ih, kept⟩)
  | @edge b s along _ ih =>
    rw [← analyzeLivenessBb_transfer] at ih
    exact closed.out_closed along (closed.in_closed s ((Finset.mem_union.mp ih).symm.imp_right Finset.mem_sdiff.mp))

/-- The analysis of the code of a method, block by block and then over the edges, finds what is live at the start and
at the end of each block: what is used on some path through the instructions from there before it is assigned. -/
theorem analyzeLiveness_liveAt (cfg : LivenessGraph n ν) (vregToInst : Nat → Option ν)
    (code : Fin n → List (LivenessInst ν)) (b : Fin n) (x : ν) :
    (x ∈ (analyzeLiveness (cfg.analyzeBlocks vregToInst code)).1 b ↔ LiveAt cfg vregToInst code x b (code b)) ∧
      (x ∈ (analyzeLiveness (cfg.analyzeBlocks vregToInst code)).2 b ↔ LiveAt cfg vregToInst code x b []) := by
  have start := livenessInvariant_init (cfg.analyzeBlocks vregToInst code)
  have inv := livenessLoop_invariant (cfg.analyzeBlocks vregToInst code).rounds start
  have closed := inv.isClosed (livenessLoop_ends _ start (potential_init _))
  refine ⟨⟨fun member => liveAt_of_liveIn ?_, fun live => ?_⟩, fun member => ?_, fun live => live.mem_foldr closed⟩
  · have member : x ∈ LivenessState.finalLiveIn _ _ b := member
    unfold LivenessState.finalLiveIn at member
    split at member
    · next liveIn found => exact inv.sound.in_sound b liveIn found x member
    · exact transfer_sound (inv.sound.out_sound b) x member
  · have member := live.mem_foldr closed
    rw [← analyzeLivenessBb_transfer] at member
    exact closed.in_closed b ((Finset.mem_union.mp member).symm.imp_right Finset.mem_sdiff.mp)
  · obtain ⟨s, along, live⟩ := inv.sound.out_sound b x member
    have along : s ∈ cfg.outBb b := along
    exact .edge along (liveAt_of_liveIn live)

end Paths

end Iteration

end MonoRuntime.Liveness
