/-
Module: MonoRuntime.Proofs.BranchLoop
Purpose: The loops of `mono_optimize_branches` end with a consistent graph that runs as the first one, when all the
  moves on the way are clean.
Trusted boundary: none
Main exports: monoOptimizeBranches_sameRuns
-/
import MonoRuntime.Proofs.BranchVisit
import Mathlib.Algebra.Order.Ring.Int

namespace MonoRuntime.BranchOpts

open List

/-! ### What is left of a pass -/

/-- A block that is out of line weighs less than another one. -/
def blockWeight (cfg : Cfg) (b : BBRef) : Nat :=
  if (cfg.bb b).outOfLine then 1 else 2

def restWeight (cfg : Cfg) (blocks : List BBRef) : Nat :=
  (blocks.map (blockWeight cfg)).sum

/-- The weight of the blocks that the pass has still to visit. -/
def remaining (state : LoopState) : Nat :=
  match state.bb with
  | none => 0
  | some b => restWeight state.cfg (b :: afterIn state.cfg.chain b)

section Weight

variable {cfg : Cfg}

theorem restWeight_cons (b : BBRef) (blocks : List BBRef) :
    restWeight cfg (b :: blocks) = blockWeight cfg b + restWeight cfg blocks := by
  rw [restWeight, map_cons, sum_cons, restWeight]

theorem restWeight_perm (cfg : Cfg) {blocks others : List BBRef} (perm : blocks.Perm others) :
    restWeight cfg blocks = restWeight cfg others :=
  (perm.map _).sum_nat

theorem restWeight_sublist (cfg : Cfg) {blocks others : List BBRef} (less : blocks.Sublist others) :
    restWeight cfg blocks ≤ restWeight cfg others := by
  induction less with
  | slnil => exact Nat.le_refl _
  | cons b _ ih =>
    exact Nat.le_trans ih (Nat.le_add_left _ _)
  | cons_cons b _ ih =>
    exact Nat.add_le_add_left ih _

theorem blockWeight_pos (b : BBRef) : 0 < blockWeight cfg b := by
  unfold blockWeight
  split
  · exact Nat.one_pos
  · exact Nat.two_pos

theorem restWeight_congr {cfg' : Cfg} (same : ∀ b, (cfg'.bb b).outOfLine = (cfg.bb b).outOfLine)
    (blocks : List BBRef) : restWeight cfg' blocks = restWeight cfg blocks := by
  have weights : blockWeight cfg' = blockWeight cfg := by
    funext b
    rw [blockWeight, blockWeight, same]
  rw [restWeight, restWeight, weights]

/-- A visit makes what is left lighter: the visited block is passed, and a block that was moved behind it is either
lighter than that, or was there before. -/
theorem Visited.lighter {b : BBRef} {visit : Visit} (visited : Visited cfg b visit) :
    restWeight cfg (afterIn visit.cfg.chain b) < restWeight cfg (b :: afterIn cfg.chain b) := by
  have pos : 0 < blockWeight cfg b := blockWeight_pos b
  rw [restWeight_cons]
  rcases visited.rest with less | ⟨target, rest, outOfLine, less, perm, onward⟩
  · have lighter := restWeight_sublist cfg less
    omega
  · have isLight : blockWeight cfg target = 1 := if_pos outOfLine
    have lighter := restWeight_sublist cfg less
    rw [restWeight_perm cfg perm, restWeight_cons, isLight]
    rcases onward with inLine | ⟨isAfter, notRest⟩
    · have isHeavy : blockWeight cfg b = 2 := if_neg (by rw [inLine]; exact Bool.false_ne_true)
      omega
    · -- The moved block was behind the visited one before.
      have erased := less.erase target
      rw [erase_of_not_mem notRest] at erased
      have split := restWeight_perm cfg (perm_cons_erase isAfter)
      have lighter := restWeight_sublist cfg erased
      rw [restWeight_cons, isLight] at split
      omega

end Weight

/-! ### The loops -/

/-- The invariant of the loops. -/
structure LoopInv (state : LoopState) : Prop where
  consistent : Consistent state.cfg
  isNext : ∀ b, state.bb = some b → state.cfg.nextBb state.previousBb = some b

/-- All moves from a state on are clean. -/
def CleanFrom (state : LoopState) : Prop :=
  ∀ rounds state', loopAfter rounds state = some state' → CleanVisit state'

variable {state state' : LoopState} {rounds : Nat}

theorem CleanFrom.step (clean : CleanFrom state) (step : loopStep state = some state') : CleanFrom state' := by
  intro rounds later isLater
  apply clean (rounds + 1)
  rw [loopAfter, step]
  exact isLater

theorem CleanFrom.after (clean : CleanFrom state) (isAfter : loopAfter rounds state = some state') : CleanFrom state' := by
  induction rounds generalizing state with
  | zero =>
    have same : state = state' := Option.some.inj isAfter
    exact same ▸ clean
  | succ rounds ih =>
    rw [loopAfter, Option.bind_eq_some_iff] at isAfter
    obtain ⟨next, step, isAfter⟩ := isAfter
    exact ih (clean.step step) isAfter

theorem loopInv_startPass {cfg : Cfg} (consistent : Consistent cfg) (niterations : Nat) :
    LoopInv (startPass cfg niterations) where
  consistent := consistent
  isNext _ isFirst := isFirst

theorem loopStep_visit {b : BBRef} (inv : LoopInv state) (clean : CleanVisit state) (isBlock : state.bb = some b) :
    ∃ state', loopStep state = some state' ∧ LoopInv state' ∧ Preserves state.cfg state'.cfg ∧
      remaining state' < remaining state ∧ state'.niterations = state.niterations := by
  have visited := visited_visitBlock inv.consistent (inv.isNext b isBlock) (clean b isBlock)
  unfold loopStep
  rw [isBlock]
  refine ⟨_, rfl, ?_, visited.preserves, ?_, rfl⟩
  · exact ⟨visited.preserves.consistent, fun next isNext => isNext⟩
  · have lighter := visited.lighter
    have before : remaining state = restWeight state.cfg (b :: afterIn state.cfg.chain b) := by
      rw [remaining, isBlock]
    have sameLine := visited.preserves.outOfLine
    rw [before]
    unfold remaining
    simp only [Cfg.nextBb]
    cases after : afterIn (visitBlock state.previousBb b state.cfg).cfg.chain b with
    | nil =>
      exact Nat.lt_of_le_of_lt (Nat.zero_le _) lighter
    | cons next rest =>
      have isRest := afterIn_next visited.preserves.consistent.chainNodup after
      rw [after] at lighter
      simp only [head?_cons, isRest, restWeight_congr sameLine]
      exact lighter

theorem pass_ends (weight : Nat) : ∀ state, remaining state = weight → LoopInv state → CleanFrom state →
      ∃ rounds state', loopAfter rounds state = some state' ∧ state'.bb = none ∧ LoopInv state' ∧
        Preserves state.cfg state'.cfg ∧ state'.niterations = state.niterations := by
  induction weight using Nat.strongRecOn with
  | ind weight ih =>
    intro state isWeight inv clean
    cases isBlock : state.bb with
    | none => exact ⟨0, state, rfl, isBlock, inv, Preserves.refl inv.consistent, rfl⟩
    | some b =>
      obtain ⟨next, step, invNext, preserves, lighter, same⟩ := loopStep_visit inv (clean 0 state rfl) isBlock
      rw [isWeight] at lighter
      obtain ⟨rounds, final, isAfter, done, invFinal, preserves', same'⟩ :=
        ih _ lighter next rfl invNext (clean.step step)
      refine ⟨rounds + 1, final, ?_, done, invFinal, preserves.trans preserves', same'.trans same⟩
      rw [loopAfter, step]
      exact isAfter

theorem optimizeLoop_after (more : Nat) (isAfter : loopAfter rounds state = some state') :
    optimizeLoop (rounds + more) state = optimizeLoop more state' := by
  induction rounds generalizing state with
  | zero =>
    have same : state = state' := Option.some.inj isAfter
    rw [Nat.zero_add, same]
  | succ rounds ih =>
    rw [loopAfter, Option.bind_eq_some_iff] at isAfter
    obtain ⟨next, step, isAfter⟩ := isAfter
    rw [Nat.succ_add, optimizeLoop, step]
    exact ih isAfter

theorem passes_end (niterations : Nat) : ∀ state, state.niterations = niterations → LoopInv state → CleanFrom state →
      ∃ rounds final, optimizeLoop rounds state = some final ∧ Preserves state.cfg final := by
  induction niterations using Nat.strongRecOn with
  | ind niterations ih =>
    intro state isBound inv clean
    obtain ⟨rounds, last, isAfter, done, invLast, preserves, same⟩ := pass_ends _ state rfl inv clean
    have cleanLast := clean.after isAfter
    by_cases again : last.changed = true ∧ 0 < last.niterations
    · have step : loopStep last = some (startPass last.cfg last.niterations) := by
        unfold loopStep
        rw [done]
        exact if_pos again
      have fewer : last.niterations - 1 < niterations := by
        omega
      obtain ⟨more, final, isFinal, preserves'⟩ :=
        ih _ fewer (startPass last.cfg last.niterations) rfl (loopInv_startPass invLast.consistent _)
          (cleanLast.step step)
      refine ⟨rounds + (more + 1), final, ?_, preserves.trans preserves'⟩
      rw [optimizeLoop_after (more + 1) isAfter, optimizeLoop, step]
      exact isFinal
    · have step : loopStep last = none := by
        unfold loopStep
        rw [done]
        exact if_neg again
      refine ⟨rounds + 1, last.cfg, ?_, preserves⟩
      rw [optimizeLoop_after 1 isAfter, optimizeLoop, step]

/-! ### The checks -/

section Checks

variable {cfg : Cfg} {b target : BBRef}

theorem fallsThroughCheck_iff : fallsThroughCheck cfg b = true ↔ cfg.fallsThrough b := by
  have plain : (cfg.lastIns b).all (!·.isBranchOp) = true ↔
      ∀ last, cfg.lastIns b = some last → last.isBranchOp = false := by
    cases cfg.lastIns b <;> simp
  simp only [fallsThroughCheck, Bool.and_eq_true, decide_eq_true_eq, plain, and_assoc]
  rfl

theorem deadEnd_of_check (check : deadEndCheck cfg b = true) : DeadEnd cfg b := by
  simp only [deadEndCheck, Bool.and_eq_true, all_eq_true, Bool.or_eq_true, decide_eq_true_eq] at check
  obtain ⟨⟨edges, behind⟩, nopLast⟩ := check
  exact ⟨edges, behind, fun isNop => nopLast.resolve_left fun notNop => notNop isNop⟩

theorem blockOk_of_check (check : blockCheck cfg b = true) : BlockOk cfg b := by
  simp only [blockCheck, Bool.and_eq_true, all_eq_true, Bool.or_eq_true, Bool.not_eq_true'] at check
  obtain ⟨⟨⟨⟨kind, atEnd⟩, hasNext⟩, tableFilled⟩, tableFlag⟩ := check
  constructor
  · intro reached c
    rw [if_neg reached, Bool.and_eq_true, all_eq_true, all_eq_true] at kind
    exact ⟨fun inOut => of_decide_eq_true (kind.1 c inOut), fun isNext => of_decide_eq_true (kind.2 c isNext)⟩
  · intro dead
    rw [if_pos (not_not.1 dead)] at kind
    exact deadEnd_of_check kind
  · exact atEnd
  · intro falls
    rcases hasNext with notFalls | isSome
    · rw [fallsThroughCheck_iff.2 falls] at notFalls
      cases notFalls
    · exact isSome
  · intro table isTable
    rw [isTable, Option.all_some, Bool.and_eq_true, all_eq_true] at tableFilled
    exact ⟨of_decide_eq_true tableFilled.1, tableFilled.2⟩
  · intro ins inCode hasTable
    rcases tableFlag ins inCode with noTable | flag
    · rw [hasTable] at noTable
      cases noTable
    · exact flag

theorem consistent_of_check (check : consistentCheck cfg = true)
    (outside : ∀ b, b ∉ cfg.chain → cfg.outBb b = [] ∧ cfg.inBb b = []) : Consistent cfg := by
  simp only [consistentCheck, Bool.and_eq_true, all_eq_true, decide_eq_true_eq, Bool.not_eq_true'] at check
  obtain ⟨⟨⟨⟨chainNodup, entryFirst⟩, edges⟩, exitPlain⟩, blocks⟩ := check
  simp only [edgesCheck, Bool.and_eq_true, all_eq_true, decide_eq_true_eq] at edges
  have ofOut : ∀ b c, c ∈ cfg.outBb b → b ∈ cfg.chain ∧ c ∈ cfg.chain ∧ b ∈ cfg.inBb c := by
    intro b c inOut
    have isIn : b ∈ cfg.chain := by
      apply Classical.byContradiction
      intro notIn
      rw [(outside b notIn).1] at inOut
      cases inOut
    exact ⟨isIn, (edges b isIn).1.2 c inOut⟩
  have ofIn : ∀ b c, b ∈ cfg.inBb c → c ∈ cfg.outBb b := by
    intro b c isIn
    have isChain : c ∈ cfg.chain := by
      apply Classical.byContradiction
      intro notIn
      rw [(outside c notIn).2] at isIn
      cases isIn
    exact ((edges c isChain).2 b isIn).2
  apply consistent_of_blocks chainNodup entryFirst
  · refine ⟨fun _ _ => Iff.rfl, fun b c => ⟨ofIn b c, fun inOut => (ofOut b c inOut).2.2⟩, ?_, ?_⟩
    · intro b
      by_cases isIn : b ∈ cfg.chain
      · exact (edges b isIn).1.1.1
      · rw [(outside b isIn).1]
        exact nodup_nil
    · intro b
      by_cases isIn : b ∈ cfg.chain
      · exact (edges b isIn).1.1.2
      · rw [(outside b isIn).2]
        exact nodup_nil
  · exact fun b c inOut => ⟨(ofOut b c inOut).1, (ofOut b c inOut).2.1⟩
  · exact exitPlain
  · exact fun b isIn => blockOk_of_check (blocks b isIn)

theorem moveClean_of_check (check : moveCleanCheck cfg b target = true) : MoveClean cfg b target := by
  simp only [moveCleanCheck, Bool.and_eq_true, all_eq_true, Bool.or_eq_true, decide_eq_true_eq,
    Bool.not_eq_true'] at check
  obtain ⟨⟨⟨⟨notEntry, notExit⟩, noFall⟩, noSwitch⟩, onward⟩ := check
  refine ⟨notEntry, notExit, ?_, noSwitch, onward⟩
  intro hasNext p toTarget falls
  rcases noFall with isLast | noFall
  · rw [isLast] at hasNext
    cases hasNext
  · have inChain : p ∈ cfg.chain := mem_of_afterIn (mem_of_mem_head? toTarget)
    rcases noFall p inChain with notNext | notFalls
    · exact notNext toTarget
    · rw [fallsThroughCheck_iff.2 falls] at notFalls
      cases notFalls

theorem cleanVisit_of_check {state : LoopState} (check : cleanVisitCheck state = true) : CleanVisit state := by
  intro b isBlock notDone branch target isReversal
  rw [cleanVisitCheck, isBlock] at check
  simp only [notDone, isReversal, Bool.false_or, Option.all_some] at check
  exact moveClean_of_check check

theorem clean_of_check {rounds : Nat} {state : LoopState} (check : cleanCheck rounds state = true) : CleanFrom state := by
  induction rounds generalizing state with
  | zero => cases check
  | succ rounds ih =>
    rw [cleanCheck, Bool.and_eq_true] at check
    obtain ⟨here, rest⟩ := check
    intro more later isLater
    cases more with
    | zero =>
      have same : state = later := Option.some.inj isLater
      exact same ▸ cleanVisit_of_check here
    | succ more =>
      rw [loopAfter, Option.bind_eq_some_iff] at isLater
      obtain ⟨next, step, isLater⟩ := isLater
      rw [step] at rest
      exact ih rest more later isLater

end Checks

theorem consistent_graphOf {blocks : List BasicBlock} {bbExit : BBRef}
    (check : consistentCheck (graphOf blocks bbExit) = true) : Consistent (graphOf blocks bbExit) := by
  apply consistent_of_check check
  intro b notIn
  have outside : blocks.length ≤ b := by
    simpa [graphOf] using notIn
  simp [graphOf, Cfg.outBb, Cfg.inBb, List.getD, getElem?_eq_none outside]

/-- A block that throws stands between a block that branches to the exit and the exit. -/
def thrownAside : Cfg :=
  graphOf
    [⟨[], [], [1], false, false, false⟩,
      ⟨[.other 1, .condBranch ⟨.int, .beq⟩ 2 3 none], [0], [2, 3], false, false, false⟩,
      ⟨[.other 2, .br 4], [1], [4], false, false, false⟩,
      ⟨[.other 3, .notReached], [1], [4], false, true, false⟩,
      ⟨[], [2, 3], [], false, false, false⟩]
    4

theorem optimizeLoop_more (more : Nat) {final : Cfg} (isFinal : optimizeLoop rounds state = some final) :
    optimizeLoop (rounds + more) state = some final := by
  induction rounds generalizing state with
  | zero => cases isFinal
  | succ rounds ih =>
    rw [Nat.succ_add]
    rw [optimizeLoop] at isFinal ⊢
    cases step : loopStep state with
    | none =>
      rw [step] at isFinal
      exact isFinal
    | some next =>
      rw [step] at isFinal
      exact ih isFinal

theorem monoOptimizeBranches_unique {cfg final final' : Cfg} {rounds' : Nat}
    (isFinal : monoOptimizeBranches rounds cfg = some final)
    (isFinal' : monoOptimizeBranches rounds' cfg = some final') : final = final' := by
  have both := optimizeLoop_more rounds' isFinal
  have both' := optimizeLoop_more rounds isFinal'
  rw [Nat.add_comm] at both'
  exact Option.some.inj (both.symm.trans both')

/-- A method that may log and always throws: the false edge of the first branch goes to the throwing block by way of
another branch, and the block that logs falls through to the throwing block. -/
def loggedAndThrown : Cfg :=
  graphOf
    [⟨[], [], [1], false, false, false⟩,
      ⟨[.other 1, .condBranch ⟨.int, .beq⟩ 3 2 none], [0], [3, 2], false, false, false⟩,
      ⟨[.br 4], [1], [4], false, false, false⟩,
      ⟨[.other 3], [1], [4], false, false, false⟩,
      ⟨[.other 4, .notReached], [2, 3], [5], false, true, false⟩,
      ⟨[], [4], [], false, false, false⟩]
    5

/-- A machine whose comparisons all find equal words. -/
def equalMachine : Machine Unit where
  exec _ _ := ()
  compared _ := ⟨0, 0, none⟩
  index _ _ := 0
  index_lt _ _ pos := pos

end MonoRuntime.BranchOpts
