/-
Module: MonoRuntime.Proofs.DominanceFrontier
Purpose: The iterated dominance frontiers of `mini/dominators.c` are those of the definition by paths, for every set
  of blocks, exactly if the entry does not have a single predecessor: a block with one predecessor is passed over, and
  only for the entry does that leave something out.
Trusted boundary: none (fully proved)
Main exports: monoCompileIteratedDfrontier_spec
-/
import MonoRuntime.Mini.DominanceFrontier
import MonoRuntime.Lib.Saturation
import MonoRuntime.Proofs.Dominators

namespace MonoRuntime.Dominators

open Dominance Saturation

variable {n : Nat} [NeZero n]

/-! ### Graphs with immediate dominators -/

/-- A graph with its immediate dominators. The entry has none. -/
structure IdomGraph (n : Nat) [NeZero n] extends DomGraph n where
  idom : Fin n → Option (BbRef n)
  idom_entry : idom 0 = none
  exact : ∀ b ≠ 0, ∃ d, idom b = some (.bb d) ∧ IsIdom toDomGraph.edge 0 d b

namespace IdomGraph

variable (cfg : IdomGraph n)

/-- Every path from the entry to `b` passes through `a`. -/
def Dom (a b : Fin n) : Prop :=
  Dominates cfg.edge 0 a b

/-- `y` has a predecessor that `x` dominates, but `x` does not strictly dominate `y`. -/
def InFrontier (x y : Fin n) : Prop :=
  ∃ p, cfg.edge p y ∧ cfg.Dom x p ∧ ¬ (x ≠ y ∧ cfg.Dom x y)

/-- The immediate dominator of a block dominates a block. -/
def IdomDominated (x y : Fin n) : Prop :=
  ∃ d, cfg.idom y = some (.bb d) ∧ cfg.Dom x d

variable {cfg} {a b x y : Fin n}

theorem Dom.le (dom : cfg.Dom a b) : a ≤ b :=
  dominates_le dom

theorem Dom.antisymm (first : cfg.Dom a b) (second : cfg.Dom b a) : a = b :=
  le_antisymm first.le second.le

theorem idom_spec (notEntry : b ≠ 0) : ∃ d < b, cfg.idom b = some (.bb d) ∧ ∀ a, cfg.Dom a b ↔ a = b ∨ cfg.Dom a d := by
  obtain ⟨d, idom, strict, dominates, closest⟩ := cfg.exact b notEntry
  refine ⟨d, lt_of_le_of_ne (Dom.le dominates) strict, idom, fun a => ⟨fun dom => ?_, ?_⟩⟩
  · exact or_iff_not_imp_left.mpr fun other => closest a other dom
  · rintro (rfl | above)
    · exact dominates_refl a
    · exact Dominates.trans above dominates

/-- What dominates the immediate dominator is what dominates a block strictly. -/
theorem idomDominated_iff : cfg.IdomDominated x y ↔ x ≠ y ∧ cfg.Dom x y := by
  unfold IdomDominated
  by_cases isEntry : y = 0
  · subst isEntry
    simp only [cfg.idom_entry, reduceCtorEq, false_and, exists_false, false_iff, not_and]
    exact fun strict dom => strict (Dominates.eq_entry dom)
  · obtain ⟨d, lower, idom, dominated⟩ := @idom_spec _ _ cfg _ isEntry
    simp only [idom, Option.some.injEq, BbRef.bb.injEq, exists_eq_left', dominated]
    constructor
    · intro above
      exact ⟨(above.le.trans_lt lower).ne, .inr above⟩
    · rintro ⟨strict, same | above⟩
      · exact absurd same strict
      · exact above

theorem exists_of_correct {cfg : DomGraph n} {fuel : Nat} {r : DomResult n} (run : computeDominators cfg fuel = some r)
    (correct : r.Correct cfg) : ∃ g : IdomGraph n, g.toDomGraph = cfg ∧ g.idom = r.idom := by
  have noIdom : r.idom 0 = none := by
    unfold computeDominators readDominators at run
    split at run
    next => cases run
    next =>
      split at run
      next =>
        cases run
        rfl
      next => cases run
  refine ⟨⟨cfg, r.idom, noIdom, fun b notEntry => ?_⟩, rfl, rfl⟩
  obtain ⟨d, idom, isIdom, _⟩ := correct.idom b notEntry
  exact ⟨d, idom, isIdom⟩

/-! ### The walk up the dominators -/

omit [NeZero n] in
@[simp] theorem mem_set {dfrontier : Frontiers n} {p bb : Fin n} :
    y ∈ dfrontier.set p bb x ↔ y ∈ dfrontier x ∨ y = bb ∧ x = p := by
  unfold Frontiers.set
  by_cases same : x = p
  · subst same
    simp [or_comm]
  · simp [same]

/-- The walk from a predecessor ends, and puts the block into the frontiers of the blocks that dominate the
predecessor up to the immediate dominator. -/
theorem walkUp_spec {bb : Fin n} : ∀ (fuel : Nat) (p : Fin n) (dfrontier : Frontiers n), p.val + 1 < fuel →
    (∀ d, cfg.idom bb = some (.bb d) → cfg.Dom d p) →
      ∃ dfrontier', walkUp cfg.idom bb fuel (some (.bb p)) dfrontier = some dfrontier' ∧
        ∀ x y, y ∈ dfrontier' x ↔ y ∈ dfrontier x ∨ y = bb ∧ cfg.Dom x p ∧ ¬ cfg.IdomDominated x bb
  | 0, p, _, enough, _ => absurd enough (Nat.not_lt_zero _)
  | fuel + 1, p, dfrontier, enough, above => by
      rw [walkUp]
      split
      next stops =>
        refine ⟨dfrontier, rfl, fun x y => ?_⟩
        have top : cfg.Dom x p → cfg.IdomDominated x bb := fun dom => ⟨p, stops.symm, dom⟩
        tauto
      next goesOn =>
        -- `p` is below the immediate dominator, so that it does not dominate it.
        have below : ¬ cfg.IdomDominated p bb := by
          rintro ⟨d, idom, dom⟩
          rw [dom.antisymm (above d idom)] at goesOn
          exact goesOn idom.symm
        by_cases isEntry : p = 0
        · subst isEntry
          have noIdom : cfg.idom bb = none := by
            by_cases first : bb = 0
            · rw [first]
              exact cfg.idom_entry
            · obtain ⟨d, idom, _⟩ := cfg.exact bb first
              rw [Dominates.eq_entry (above d idom)] at idom
              exact absurd idom.symm goesOn
          obtain ⟨fuel, rfl⟩ := Nat.exists_eq_succ_of_ne_zero (show fuel ≠ 0 by omega)
          refine ⟨dfrontier.set 0 bb, ?_, fun x y => ?_⟩
          · simp only [cfg.idom_entry]
            exact if_pos noIdom.symm
          · have onlyEntry : cfg.Dom x 0 ↔ x = 0 :=
              ⟨fun dom => Dominates.eq_entry dom, fun same => same ▸ dominates_refl 0⟩
            have open_ : ¬ cfg.IdomDominated x bb := by simp [IdomDominated, noIdom]
            rw [mem_set, onlyEntry]
            tauto
        · obtain ⟨q, lower, idom, dominated⟩ := @idom_spec _ _ cfg _ isEntry
          have above' : ∀ d, cfg.idom bb = some (.bb d) → cfg.Dom d q := by
            intro d isIdom
            refine ((dominated d).mp (above d isIdom)).resolve_left ?_
            rintro rfl
            exact goesOn isIdom.symm
          obtain ⟨dfrontier', run, spec⟩ := walkUp_spec fuel q (dfrontier.set p bb) (by omega) above'
          refine ⟨dfrontier', by simpa only [idom] using run, fun x y => ?_⟩
          rw [spec, mem_set, dominated]
          constructor
          · rintro ((old | ⟨isBb, rfl⟩) | ⟨isBb, dom, apart⟩)
            · exact .inl old
            · exact .inr ⟨isBb, .inl rfl, below⟩
            · exact .inr ⟨isBb, .inr dom, apart⟩
          · rintro (old | ⟨isBb, rfl | dom, apart⟩)
            · exact .inl (.inl old)
            · exact .inl (.inr ⟨isBb, rfl⟩)
            · exact .inr ⟨isBb, dom, apart⟩

theorem walkFrom_spec {bb : Fin n} : ∀ (inBb : List (BbRef n)) (dfrontier : Frontiers n),
    (∀ p, .bb p ∈ inBb → cfg.edge p bb) →
      ∃ dfrontier', inBb.foldlM (walkFrom cfg.idom bb) dfrontier = some dfrontier' ∧ ∀ x y, y ∈ dfrontier' x ↔
          y ∈ dfrontier x ∨ y = bb ∧ ∃ p, .bb p ∈ inBb ∧ cfg.Dom x p ∧ ¬ cfg.IdomDominated x bb
  | [], dfrontier, _ => ⟨dfrontier, rfl, by simp⟩
  | .unreached u :: inBb, dfrontier, edges => by
      obtain ⟨dfrontier', run, spec⟩ := walkFrom_spec inBb dfrontier fun p member =>
        edges p (List.mem_cons_of_mem _ member)
      refine ⟨dfrontier', ?_, by simpa using spec⟩
      exact run
  | .bb p :: inBb, dfrontier, edges => by
      have above : ∀ d, cfg.idom bb = some (.bb d) → cfg.Dom d p := by
        intro d isIdom
        have strict := idomDominated_iff.mp ⟨d, isIdom, dominates_refl d⟩
        exact strict.2.pred strict.1 (edges p List.mem_cons_self)
      obtain ⟨middle, first, added⟩ := walkUp_spec (n + 1) p dfrontier (by omega) above
      obtain ⟨dfrontier', run, spec⟩ := walkFrom_spec inBb middle fun p member =>
        edges p (List.mem_cons_of_mem _ member)
      refine ⟨dfrontier', ?_, fun x y => ?_⟩
      · rw [List.foldlM_cons, walkFrom, if_pos (hasDfn_bb p), first]
        exact run
      · rw [spec, added]
        simp only [List.mem_cons, BbRef.bb.injEq, or_and_right, exists_or, exists_eq_left]
        tauto

theorem frontierStep_spec : ∀ (blocks : List (Fin n)) (dfrontier : Frontiers n),
    ∃ dfrontier', blocks.foldlM (frontierStep cfg.toDomGraph cfg.idom) dfrontier = some dfrontier' ∧
      ∀ x y, y ∈ dfrontier' x ↔ y ∈ dfrontier x ∨ y ∈ blocks ∧ (cfg.inBb y).length > 1 ∧ cfg.InFrontier x y
  | [], dfrontier => ⟨dfrontier, rfl, by simp⟩
  | bb :: blocks, dfrontier => by
      have step : ∃ middle, frontierStep cfg.toDomGraph cfg.idom dfrontier bb = some middle ∧
          ∀ x y, y ∈ middle x ↔ y ∈ dfrontier x ∨ y = bb ∧ (cfg.inBb bb).length > 1 ∧ cfg.InFrontier x bb := by
        unfold frontierStep
        by_cases joins : (cfg.inBb bb).length > 1
        · rw [if_pos joins]
          obtain ⟨middle, run, spec⟩ := walkFrom_spec (cfg.inBb bb) dfrontier fun p member => member
          refine ⟨middle, run, fun x y => ?_⟩
          simp only [spec, idomDominated_iff, InFrontier, DomGraph.edge, joins, true_and]
        · rw [if_neg joins]
          exact ⟨dfrontier, rfl, by simp [joins]⟩
      obtain ⟨middle, first, added⟩ := step
      obtain ⟨dfrontier', run, spec⟩ := frontierStep_spec blocks middle
      refine ⟨dfrontier', by rw [List.foldlM_cons, first]; exact run, fun x y => ?_⟩
      rw [spec, added, List.mem_cons]
      constructor
      · rintro ((old | ⟨rfl, here⟩) | ⟨later, there⟩)
        · exact .inl old
        · exact .inr ⟨.inl rfl, here⟩
        · exact .inr ⟨.inr later, there⟩
      · rintro (old | ⟨rfl | later, there⟩)
        · exact .inl (.inl old)
        · exact .inl (.inr ⟨rfl, there⟩)
        · exact .inr ⟨later, there⟩

/-- The computation of the frontiers ends. The frontier of a block has the blocks of the definition that have more
than one predecessor. -/
theorem computeDominanceFrontier_spec (cfg : IdomGraph n) :
    ∃ dfrontier, computeDominanceFrontier cfg.toDomGraph cfg.idom = some dfrontier ∧
      ∀ x y, y ∈ dfrontier x ↔ (cfg.inBb y).length > 1 ∧ cfg.InFrontier x y := by
  obtain ⟨dfrontier, run, spec⟩ := @frontierStep_spec _ _ cfg (List.finRange n) fun _ => ∅
  exact ⟨dfrontier, run, by simpa using spec⟩

/-- The entry has a single predecessor, and that was reached. -/
def EntryHasOnePred (cfg : IdomGraph n) : Prop :=
  ∃ p, cfg.inBb 0 = [.bb p]

theorem InFrontier.joins (member : cfg.InFrontier x y) : (cfg.inBb y).length > 1 ∨ y = 0 ∧ cfg.EntryHasOnePred := by
  obtain ⟨p, along, dom, notStrict⟩ := member
  by_cases joins : (cfg.inBb y).length > 1
  · exact .inl joins
  have only : cfg.inBb y = [.bb p] := by
    have along' : .bb p ∈ cfg.inBb y := along
    match list : cfg.inBb y with
    | [] => simp [list] at along'
    | [r] => rw [list] at along'; rw [List.mem_singleton.mp along']
    | _ :: _ :: _ => simp [list] at joins
  have isEntry : y = 0 := by
    by_contra notEntry
    have onlyPred : ∀ q, cfg.edge q y → q = p := by
      intro q along'
      rw [DomGraph.edge, only, List.mem_singleton] at along'
      exact BbRef.bb.inj along'
    have same : x = y := by
      by_contra strict
      exact notStrict ⟨strict, dominates_of_only_pred notEntry onlyPred dom⟩
    obtain ⟨q, lower, along'⟩ := cfg.reached y notEntry
    rw [onlyPred q along'] at lower
    exact absurd dom.le (not_le.mpr (same ▸ lower))
  exact .inr ⟨isEntry, p, isEntry ▸ only⟩

/-! ### The iterated frontier -/

/-- A set that holds the frontiers of the blocks in `S` and of its own members. -/
def HoldsFrontiers (cfg : IdomGraph n) (S : Finset (Fin n)) (set : Set (Fin n)) : Prop :=
  ∀ y, (∃ x, (x ∈ S ∨ x ∈ set) ∧ cfg.InFrontier x y) → y ∈ set

/-- The iterated dominance frontier: the least set that holds the frontiers of the blocks in `S` and of its own
members. -/
def IsIteratedFrontier (cfg : IdomGraph n) (S result : Finset (Fin n)) : Prop :=
  IsLeast {set | cfg.HoldsFrontiers S set} {b | b ∈ result}

end IdomGraph

omit [NeZero n] in
theorem dfrontierLoop_eq (dfrontier : Frontiers n) : ∀ (fuel : Nat) (result : Finset (Fin n)),
    dfrontierLoop dfrontier fuel result.card result = saturate dfrontier (List.finRange n) fuel result
  | 0, _ => rfl
  | fuel + 1, result => by
      have pass : dfSetSelf dfrontier result = absorbAll dfrontier (List.finRange n) result := rfl
      rw [dfrontierLoop, saturate, pass, dfrontierLoop_eq]

omit [NeZero n] in
theorem monoCompileIteratedDfrontier_isLeast (dfrontier : Frontiers n) (S : Finset (Fin n)) :
    ∃ result, monoCompileIteratedDfrontier dfrontier S = some result ∧
      IsLeast {set : Set (Fin n) | ∀ x, x ∈ S ∨ x ∈ set → ∀ y ∈ dfrontier x, y ∈ set} {b | b ∈ result} := by
  obtain ⟨result, run, least⟩ := @saturate_spec _ _ dfrontier _ _ List.mem_finRange (n + 1) (dfSet dfrontier ∅ S)
    (by rw [Fintype.card_fin]; omega)
  refine ⟨result, (dfrontierLoop_eq dfrontier _ _).trans run, ?_⟩
  convert least using 1
  ext set
  have start : ∀ {y}, y ∈ dfSet dfrontier ∅ S ↔ ∃ x ∈ S, y ∈ dfrontier x := by
    intro y
    refine (@mem_gather _ _ dfrontier _ _ _ _).trans ?_
    simp
  simp only [Set.mem_ofPred_eq, start, Closed]
  constructor
  · intro holds
    refine ⟨?_, fun x member => holds x (.inr member)⟩
    rintro y ⟨x, chosen, member⟩
    exact holds x (.inl chosen) y member
  · rintro ⟨starts, closed⟩ x (chosen | member) y follows
    · exact starts y ⟨x, chosen, follows⟩
    · exact closed x member y follows

/-- The iterated frontiers always come out, and they are those of the definition, for every set of blocks, exactly if
the entry does not have a single predecessor that was reached. -/
theorem monoCompileIteratedDfrontier_spec (cfg : IdomGraph n) :
    ∃ dfrontier, computeDominanceFrontier cfg.toDomGraph cfg.idom = some dfrontier ∧
      (∀ S, ∃ result, monoCompileIteratedDfrontier dfrontier S = some result) ∧
      ((∀ S result, monoCompileIteratedDfrontier dfrontier S = some result → cfg.IsIteratedFrontier S result) ↔
        ¬ cfg.EntryHasOnePred) := by
  obtain ⟨dfrontier, run, spec⟩ := cfg.computeDominanceFrontier_spec
  refine ⟨dfrontier, run, fun S => ?_, ?_, ?_⟩
  · obtain ⟨result, ends, _⟩ := monoCompileIteratedDfrontier_isLeast dfrontier S
    exact ⟨result, ends⟩
  · rintro correct ⟨p, only⟩
    -- The entry is in its own frontier, but the entry is passed over.
    obtain ⟨result, ends, least⟩ := monoCompileIteratedDfrontier_isLeast dfrontier {0}
    have inFrontier : cfg.InFrontier 0 0 :=
      ⟨p, by simp [DomGraph.edge, only], dominates_of_entry p, fun strict => strict.1 rfl⟩
    have member : 0 ∈ result := (correct {0} result ends).1 0 ⟨0, .inl (Finset.mem_singleton_self 0), inFrontier⟩
    have without : {b : Fin n | b ≠ 0} ∈ {set : Set (Fin n) | ∀ x, x ∈ ({0} : Finset (Fin n)) ∨ x ∈ set →
        ∀ y ∈ dfrontier x, y ∈ set} := by
      intro x _ y follows isEntry
      have joins := ((spec x y).mp follows).1
      rw [isEntry, only] at joins
      simp at joins
    exact least.2 without member rfl
  · intro notOne S result ends
    obtain ⟨result', ends', least⟩ := monoCompileIteratedDfrontier_isLeast dfrontier S
    cases ends.symm.trans ends'
    have inside : ∀ {x y}, y ∈ dfrontier x ↔ cfg.InFrontier x y := by
      intro x y
      refine (spec x y).trans (and_iff_right_of_imp fun member => ?_)
      exact member.joins.resolve_right fun entry => notOne entry.2
    unfold IdomGraph.IsIteratedFrontier IdomGraph.HoldsFrontiers
    convert least using 1
    ext set
    simp only [Set.mem_ofPred_eq, inside]
    exact ⟨fun holds x chosen y member => holds y ⟨x, chosen, member⟩,
      fun holds y there => there.elim fun x both => holds x both.1 y both.2⟩

/-- With the dominators of `compute_dominators` the frontier of a block comes out as its definition by the dominator sets,
where edges meet, and the iterated frontier of any blocks is the closure of these frontiers. -/
theorem computeDominators_frontiers (cfg : DomGraph n) (harmless : UnreachedHarmless cfg) :
    ∃ fuel r dfrontier, computeDominators cfg fuel = some r ∧ computeDominanceFrontier cfg r.idom = some dfrontier ∧
      (∀ x y, y ∈ dfrontier x ↔ (cfg.inBb y).length > 1 ∧
        ∃ p, cfg.edge p y ∧ x ∈ r.dominators p ∧ ¬ (x ≠ y ∧ x ∈ r.dominators y)) ∧
      ∀ S, ∃ result, monoCompileIteratedDfrontier dfrontier S = some result ∧
        IsLeast {set : Set (Fin n) | ∀ x, x ∈ S ∨ x ∈ set → ∀ y ∈ dfrontier x, y ∈ set} {b | b ∈ result} := by
  obtain ⟨fuel, r, run, correct⟩ := computesDominators_of_harmless harmless
  obtain ⟨g, rfl, idoms⟩ := IdomGraph.exists_of_correct run correct
  obtain ⟨dfrontier, found, spec⟩ := g.computeDominanceFrontier_spec
  refine ⟨fuel, r, dfrontier, run, idoms ▸ found, fun x y => ?_, monoCompileIteratedDfrontier_isLeast dfrontier⟩
  simp only [spec, IdomGraph.InFrontier, IdomGraph.Dom, correct.dominators]

local instance twoBlocks : NeZero (1 + 1) := ⟨Nat.succ_ne_zero 1⟩

/-- Two blocks that lead to each other. -/
def backGraph : IdomGraph 2 where
  inBb := fun b => if b = 0 then [.bb 1] else [.bb 0]
  reached := by decide
  idom := fun b => if b = 0 then none else some (.bb 0)
  idom_entry := rfl
  exact := by
    intro b notEntry
    obtain rfl : b = 1 := by omega
    refine ⟨0, rfl, Fin.zero_ne_one, dominates_of_entry 1, fun a strict _ => ?_⟩
    obtain rfl : a = 0 := by omega
    exact dominates_refl 0

theorem monoCompileIteratedDfrontier_spec_backGraph :
    ∃ dfrontier, computeDominanceFrontier backGraph.toDomGraph backGraph.idom = some dfrontier ∧
      ∀ S, ∃ result, monoCompileIteratedDfrontier dfrontier S = some result := by
  obtain ⟨dfrontier, run, ends, _⟩ := monoCompileIteratedDfrontier_spec backGraph
  exact ⟨dfrontier, run, ends⟩

/-- Block 1 dominates itself, which is the predecessor of the entry, but its iterated frontier comes out empty. -/
theorem monoCompileIteratedDfrontier_misses :
    (∃ dfrontier, computeDominanceFrontier backGraph.toDomGraph backGraph.idom = some dfrontier ∧
      monoCompileIteratedDfrontier dfrontier {1} = some ∅) ∧
      ¬ backGraph.IsIteratedFrontier {1} ∅ := by
  refine ⟨⟨fun _ => ∅, ?_, by decide⟩, fun least => ?_⟩
  · rfl
  · have inFrontier : backGraph.InFrontier 1 0 :=
      ⟨1, by simp [DomGraph.edge, backGraph], dominates_refl 1, fun strict =>
        Fin.zero_ne_one (Dominates.eq_entry strict.2).symm⟩
    have member : 0 ∈ {b : Fin 2 | b ∈ (∅ : Finset (Fin 2))} :=
      least.1 0 ⟨1, .inl (Finset.mem_singleton_self 1), inFrontier⟩
    exact absurd member (Finset.notMem_empty 0)

theorem computeDominators_frontiers_backGraph : ∃ fuel r dfrontier, computeDominators backGraph.toDomGraph fuel = some r ∧
      computeDominanceFrontier backGraph.toDomGraph r.idom = some dfrontier := by
  have harmless : UnreachedHarmless backGraph.toDomGraph := by
    intro b notEntry _ a _
    omega
  obtain ⟨fuel, r, dfrontier, run, found, _⟩ := computeDominators_frontiers backGraph.toDomGraph harmless
  exact ⟨fuel, r, dfrontier, run, found⟩

end MonoRuntime.Dominators
