/-
Module: MonoRuntime.Proofs.UnlinkBlocks
Purpose: What `unlink_unused_bblocks` removes. The turn of a block takes the first half of its edges away, because each
  removal moves the last edge behind the place of the loop. So all edges of the unreachable blocks go away exactly when
  what a turn skips is left to a later turn.
Trusted boundary: none
Main exports: unlinkUnusedBblocks_iff
-/
import MonoRuntime.Mini.UnlinkBlocks

namespace MonoRuntime.UnlinkBlocks

open SwapRemove List

/-! ### Edges -/

/-- The edges are symmetric and not repeated. -/
structure Linked (cfg : Cfg) : Prop where
  symmetric : ∀ b c, c ∈ cfg.outBb b ↔ b ∈ cfg.inBb c
  nodupIn : ∀ b, (cfg.inBb b).Nodup
  nodupOut : ∀ b, (cfg.outBb b).Nodup

/-- Some edges are removed and nothing else changes. -/
structure Removes (cfg cfg' : Cfg) (gone : BBRef → BBRef → Prop) : Prop where
  linked : Linked cfg'
  edge_iff : ∀ b c, c ∈ cfg'.outBb b ↔ c ∈ cfg.outBb b ∧ ¬ gone b c
  reachable : ∀ b, cfg'.reachable b = cfg.reachable b
  chain : cfg'.chain = cfg.chain

section Edges

variable {cfg cfg' cfg'' : Cfg} {gone gone' : BBRef → BBRef → Prop} {b c target : BBRef}

theorem Removes.refl (linked : Linked cfg) (none_ : ∀ b c, ¬ gone b c) : Removes cfg cfg gone :=
  ⟨linked, fun b c => (and_iff_left (none_ b c)).symm, fun _ => rfl, rfl⟩

theorem Removes.trans (first : Removes cfg cfg' gone) (second : Removes cfg' cfg'' gone') :
    Removes cfg cfg'' (fun b c => gone b c ∨ gone' b c) :=
  ⟨second.linked, fun b c => by rw [second.edge_iff, first.edge_iff, not_or, and_assoc],
    fun b => (second.reachable b).trans (first.reachable b), second.chain.trans first.chain⟩

theorem Removes.congr (is : Removes cfg cfg' gone) (same : ∀ b c, gone b c ↔ gone' b c) : Removes cfg cfg' gone' :=
  ⟨is.linked, fun b c => by rw [is.edge_iff, same], is.reachable, is.chain⟩

theorem outBb_unlinkTarget (cfg : Cfg) (b target c : BBRef) :
    (unlinkTarget b target cfg).outBb c = if c = b then swapRemove (cfg.outBb b) target else cfg.outBb c := by
  unfold unlinkTarget Cfg.setIn Cfg.setOut Cfg.outBb
  dsimp only
  split_ifs <;> rfl

theorem inBb_unlinkTarget (cfg : Cfg) (b target c : BBRef) :
    (unlinkTarget b target cfg).inBb c = if c = target then swapRemove (cfg.inBb target) b else cfg.inBb c := by
  unfold unlinkTarget Cfg.setIn Cfg.setOut Cfg.inBb
  dsimp only
  split_ifs <;> rfl

theorem unlinkTarget_removes (linked : Linked cfg) (b target : BBRef) :
    Removes cfg (unlinkTarget b target cfg) (fun p v => p = b ∧ v = target) := by
  have outs : ∀ p v, v ∈ (unlinkTarget b target cfg).outBb p ↔ v ∈ cfg.outBb p ∧ ¬ (p = b ∧ v = target) := by
    intro p v
    rw [outBb_unlinkTarget]
    by_cases isB : p = b
    · rw [if_pos isB, mem_swapRemove (linked.nodupOut b), isB, eq_self, true_and]
    · rw [if_neg isB, and_iff_left fun is => isB is.1]
  have ins : ∀ p v, p ∈ (unlinkTarget b target cfg).inBb v ↔ p ∈ cfg.inBb v ∧ ¬ (p = b ∧ v = target) := by
    intro p v
    rw [inBb_unlinkTarget]
    by_cases isTarget : v = target
    · rw [if_pos isTarget, mem_swapRemove (linked.nodupIn target), isTarget, eq_self, and_true]
    · rw [if_neg isTarget, and_iff_left fun is => isTarget is.2]
  refine ⟨⟨fun p v => by rw [outs, ins, linked.symmetric], fun v => ?_, fun p => ?_⟩, outs, fun p => ?_, rfl⟩
  · rw [inBb_unlinkTarget]
    split_ifs
    · exact nodup_swapRemove (linked.nodupIn target)
    · exact linked.nodupIn v
  · rw [outBb_unlinkTarget]
    split_ifs
    · exact nodup_swapRemove (linked.nodupOut b)
    · exact linked.nodupOut p
  · unfold unlinkTarget Cfg.setIn Cfg.setOut Cfg.reachable
    dsimp only
    split_ifs <;> rfl

end Edges

/-! ### The turn of a block -/

/-- The successors that are left after the loop over the predecessors: an edge of a block to itself is in both. -/
def Cfg.outsLeft (cfg : Cfg) (b : BBRef) : List BBRef :=
  if b ∈ firstHalf (cfg.inBb b) then swapRemove (cfg.outBb b) b else cfg.outBb b

section Turn

variable {cfg : Cfg}

theorem unlinkIns_eq (linked : Linked cfg) (b : BBRef) :
    unlinkIns b cfg = (firstHalf (cfg.inBb b)).foldl (fun cfg c => unlinkTarget c b cfg) cfg :=
  overPlaces_eq (fun cfg : Cfg => cfg.inBb b) (unlinkTarget · b) (fun c cfg => by rw [inBb_unlinkTarget, if_pos rfl])
    (cfg.inBb b) cfg [] _ (linked.nodupIn b) rfl (Nat.le_refl _)

theorem unlinkOuts_eq (linked : Linked cfg) (b : BBRef) :
    unlinkOuts b cfg = (firstHalf (cfg.outBb b)).foldl (fun cfg c => unlinkTarget b c cfg) cfg :=
  overPlaces_eq (fun cfg : Cfg => cfg.outBb b) (unlinkTarget b) (fun c cfg => by rw [outBb_unlinkTarget, if_pos rfl])
    (cfg.outBb b) cfg [] _ (linked.nodupOut b) rfl (Nat.le_refl _)

theorem foldl_unlinkIns (b : BBRef) (sources : List BBRef) : ∀ {cfg : Cfg}, Linked cfg →
      Removes cfg (sources.foldl (fun cfg c => unlinkTarget c b cfg) cfg) (fun p v => v = b ∧ p ∈ sources) := by
  induction sources with
  | nil => exact fun linked => Removes.refl linked fun _ _ is => absurd is.2 not_mem_nil
  | cons c sources next =>
    intro cfg linked
    have first := unlinkTarget_removes linked c b
    refine (first.trans (next first.linked)).congr fun p v => ?_
    rw [mem_cons]
    tauto

theorem foldl_unlinkOuts (b : BBRef) (targets : List BBRef) : ∀ {cfg : Cfg}, Linked cfg →
      Removes cfg (targets.foldl (fun cfg c => unlinkTarget b c cfg) cfg) (fun p v => p = b ∧ v ∈ targets) := by
  induction targets with
  | nil => exact fun linked => Removes.refl linked fun _ _ is => absurd is.2 not_mem_nil
  | cons c targets next =>
    intro cfg linked
    have first := unlinkTarget_removes linked b c
    refine (first.trans (next first.linked)).congr fun p v => ?_
    rw [mem_cons]
    tauto

/-- The loop over the predecessors leaves the successors alone but for the block itself. -/
theorem outBb_foldl_unlinkIns (b : BBRef) (sources : List BBRef) : ∀ {cfg : Cfg}, sources.Nodup →
      (sources.foldl (fun cfg c => unlinkTarget c b cfg) cfg).outBb b =
        if b ∈ sources then swapRemove (cfg.outBb b) b else cfg.outBb b := by
  induction sources with
  | nil => exact fun _ => (if_neg not_mem_nil).symm
  | cons c sources next =>
    intro cfg nodup
    obtain ⟨notAgain, nodup'⟩ := nodup_cons.1 nodup
    rw [foldl_cons, next nodup', outBb_unlinkTarget]
    by_cases isB : b = c
    · rw [if_neg (isB ▸ notAgain), if_pos isB, if_pos (isB ▸ mem_cons_self), ← isB]
    · have same : b ∈ c :: sources ↔ b ∈ sources := by rw [mem_cons, or_iff_right isB]
      simp only [if_neg isB, same]

/-- The turn of an unreachable block removes the first halves of its edges. -/
def Gone (cfg : Cfg) (b p v : BBRef) : Prop :=
  (v = b ∧ p ∈ firstHalf (cfg.inBb b)) ∨ (p = b ∧ v ∈ firstHalf (cfg.outsLeft b))

theorem unlinkBlock_removes (linked : Linked cfg) (b : BBRef) :
    Removes cfg (unlinkBlock cfg b) (fun p v => cfg.reachable b = false ∧ Gone cfg b p v) := by
  unfold unlinkBlock
  by_cases isReachable : cfg.reachable b = true
  · rw [if_pos isReachable]
    exact Removes.refl linked fun _ _ is => Bool.false_ne_true (is.1.symm.trans isReachable)
  · have nodup : (firstHalf (cfg.inBb b)).Nodup := (linked.nodupIn b).sublist (take_sublist _ _)
    have first := foldl_unlinkIns b (firstHalf (cfg.inBb b)) linked
    have isLeft := @outBb_foldl_unlinkIns b (firstHalf (cfg.inBb b)) cfg nodup
    rw [← unlinkIns_eq linked] at first isLeft
    rw [if_neg isReachable, unlinkOuts_eq first.linked, isLeft]
    refine (first.trans (foldl_unlinkOuts b _ first.linked)).congr fun p v => ?_
    rw [and_iff_right (Bool.eq_false_iff.2 isReachable)]
    rfl

end Turn

/-! ### All turns -/

/-- A successor of a reachable block is reachable. -/
def Closed (cfg : Cfg) : Prop :=
  ∀ b c, cfg.reachable b = true → c ∈ cfg.outBb b → cfg.reachable c = true

/-- An unreachable block has its turn later. -/
def Later (cfg : Cfg) (later : List BBRef) (b : BBRef) : Prop :=
  cfg.reachable b = false ∧ b ∈ later

instance (cfg : Cfg) (later : List BBRef) (b : BBRef) : Decidable (Later cfg later b) :=
  inferInstanceAs (Decidable (cfg.reachable b = false ∧ b ∈ later))

/-- Each edge of an unreachable block has an end with a later turn. -/
def Pending (cfg : Cfg) (later : List BBRef) : Prop :=
  ∀ b c, c ∈ cfg.outBb b → cfg.reachable b = false → Later cfg later b ∨ Later cfg later c

/-- What the turn of a block skips has its own turn later. An edge of the block to itself is visited twice. -/
structure TurnComplete (cfg : Cfg) (b : BBRef) (later : List BBRef) : Prop where
  ins : ∀ c ∈ secondHalf (cfg.inBb b), c ≠ b → Later cfg later c
  outs : ∀ c ∈ secondHalf (cfg.outsLeft b), Later cfg later c

/-- All turns are complete. -/
def TurnsComplete : Cfg → List BBRef → Prop
  | _, [] => True
  | cfg, b :: later =>
      (cfg.reachable b = false → TurnComplete cfg b later) ∧ TurnsComplete (unlinkBlock cfg b) later

section Turns

variable {cfg cfg' : Cfg} {gone : BBRef → BBRef → Prop} {b c : BBRef} {later : List BBRef}

theorem Removes.closed (is : Removes cfg cfg' gone) (closed : Closed cfg) : Closed cfg' := fun b c isReachable edge => by
  rw [is.reachable] at isReachable ⊢
  exact closed b c isReachable ((is.edge_iff b c).1 edge).1

theorem Removes.later_iff (is : Removes cfg cfg' gone) : Later cfg' later b ↔ Later cfg later b := by
  rw [Later, Later, is.reachable]

theorem Closed.source (closed : Closed cfg) (edge : c ∈ cfg.outBb b) (unreachable : cfg.reachable c = false) :
    cfg.reachable b = false :=
  Bool.eq_false_iff.2 fun isReachable => Bool.false_ne_true (unreachable.symm.trans (closed b c isReachable edge))

/-- A run of turns removes edges of blocks that have their turn in it, and no others. -/
theorem foldl_unlinkBlock (turns : List BBRef) : ∀ {cfg : Cfg}, Linked cfg →
      ∃ gone, Removes cfg (turns.foldl unlinkBlock cfg) gone ∧
        ∀ p v, gone p v → Later cfg turns p ∨ Later cfg turns v := by
  induction turns with
  | nil => exact fun linked => ⟨fun _ _ => False, Removes.refl linked fun _ _ is => is, fun _ _ => False.elim⟩
  | cons b later next =>
    intro cfg linked
    have first := unlinkBlock_removes linked b
    obtain ⟨gone, rest, few⟩ := next first.linked
    refine ⟨_, first.trans rest, ?_⟩
    rintro p v (⟨unreachable, ⟨rfl, _⟩ | ⟨rfl, _⟩⟩ | isGone)
    · exact Or.inr ⟨unreachable, mem_cons_self⟩
    · exact Or.inl ⟨unreachable, mem_cons_self⟩
    · exact (few p v isGone).imp (fun is => ⟨(first.later_iff.1 is).1, mem_cons_of_mem b is.2⟩)
        fun is => ⟨(first.later_iff.1 is).1, mem_cons_of_mem b is.2⟩

theorem mem_outsLeft (linked : Linked cfg) :
    c ∈ cfg.outsLeft b ↔ c ∈ cfg.outBb b ∧ ¬ (c = b ∧ b ∈ firstHalf (cfg.inBb b)) := by
  unfold Cfg.outsLeft
  split_ifs with first
  · rw [mem_swapRemove (linked.nodupOut b), and_iff_left first]
  · rw [and_iff_left fun is => first is.2]

theorem nodup_outsLeft (linked : Linked cfg) : (cfg.outsLeft b).Nodup := by
  unfold Cfg.outsLeft
  split_ifs
  · exact nodup_swapRemove (linked.nodupOut b)
  · exact linked.nodupOut b

theorem not_gone_iff (linked : Linked cfg) {p v : BBRef} (edge : v ∈ cfg.outBb p) : ¬ Gone cfg b p v ↔
      (v = b → p ∈ secondHalf (cfg.inBb b)) ∧ (p = b → v ∈ secondHalf (cfg.outsLeft b)) := by
  have ins : v = b → (p ∈ secondHalf (cfg.inBb b) ↔ p ∉ firstHalf (cfg.inBb b)) := fun isB => by
    rw [isB] at edge
    exact ⟨fun second first => not_both (linked.nodupIn b) first second,
      (mem_halves.1 ((linked.symmetric p b).1 edge)).resolve_left⟩
  have outs : p = b → ¬ (v = b ∧ p ∈ firstHalf (cfg.inBb b)) →
      (v ∈ secondHalf (cfg.outsLeft b) ↔ v ∉ firstHalf (cfg.outsLeft b)) := fun isB notFirst => by
    rw [isB] at edge notFirst
    exact ⟨fun second first => not_both (nodup_outsLeft linked) first second,
      (mem_halves.1 ((mem_outsLeft linked).2 ⟨edge, notFirst⟩)).resolve_left⟩
  have skipped : p = b → v ∈ secondHalf (cfg.outsLeft b) → ¬ (v = b ∧ p ∈ firstHalf (cfg.inBb b)) := by
    rintro rfl second
    exact ((mem_outsLeft linked).1 (mem_halves.2 (Or.inr second))).2
  unfold Gone
  tauto

theorem pending_unlinkBlock (linked : Linked cfg) (pending : Pending cfg (b :: later))
    (complete : cfg.reachable b = false → TurnComplete cfg b later) : Pending (unlinkBlock cfg b) later := by
  have turn := unlinkBlock_removes linked b
  intro p v edge unreachable
  obtain ⟨edge, stays⟩ := (turn.edge_iff p v).1 edge
  rw [turn.reachable] at unreachable
  rw [turn.later_iff, turn.later_iff]
  -- The block itself is an end of the edge, or the other end is among the later ones.
  have atTurn : cfg.reachable b = false → p = b ∨ v = b → Later cfg later p ∨ Later cfg later v := by
    intro isTurn isEnd
    obtain ⟨ins, outs⟩ := (not_gone_iff linked edge).1 fun gone => stays ⟨isTurn, gone⟩
    by_cases isSource : p = b
    · exact Or.inr ((complete isTurn).outs v (outs isSource))
    · exact Or.inl ((complete isTurn).ins p (ins (isEnd.resolve_left isSource)) isSource)
  rcases pending p v edge unreachable with ⟨isTurn, isMember⟩ | ⟨isTurn, isMember⟩
  · rcases mem_cons.1 isMember with rfl | isMember
    · exact atTurn isTurn (Or.inl rfl)
    · exact Or.inl ⟨isTurn, isMember⟩
  · rcases mem_cons.1 isMember with rfl | isMember
    · exact atTurn isTurn (Or.inr rfl)
    · exact Or.inr ⟨isTurn, isMember⟩

theorem stays_of_notLater (linked : Linked cfg) (edge : c ∈ cfg.outBb b) (notSource : ¬ Later cfg later b)
    (notTarget : ¬ Later cfg later c) : c ∈ (later.foldl unlinkBlock cfg).outBb b := by
  obtain ⟨gone, removes, few⟩ := foldl_unlinkBlock later linked
  exact (removes.edge_iff b c).2 ⟨edge, fun isGone => (few b c isGone).elim notSource notTarget⟩

/-- After the turns no edge of an unreachable block is left. -/
def NoneLeft (cfg : Cfg) (turns : List BBRef) : Prop :=
  ∀ b c, c ∈ (turns.foldl unlinkBlock cfg).outBb b → cfg.reachable b = true

theorem pending_of_noneLeft (linked : Linked cfg) (none_ : NoneLeft cfg later) : Pending cfg later := by
  intro b c edge unreachable
  by_contra notLater
  obtain ⟨notSource, notTarget⟩ := not_or.1 notLater
  have isReachable := none_ b c (stays_of_notLater linked edge notSource notTarget)
  exact Bool.false_ne_true (unreachable.symm.trans isReachable)

theorem turnComplete_of_noneLeft (linked : Linked cfg) (closed : Closed cfg) (notAgain : b ∉ later)
    (none_ : NoneLeft (unlinkBlock cfg b) later) (isTurn : cfg.reachable b = false) : TurnComplete cfg b later := by
  have turn := unlinkBlock_removes linked b
  have notLater : ¬ Later (unlinkBlock cfg b) later b := fun is => notAgain is.2
  -- An edge that the turn skips needs a later turn of its other end.
  have needs : ∀ p v, v ∈ cfg.outBb p → ¬ Gone cfg b p v → cfg.reachable p = false →
      Later cfg later p ∨ Later cfg later v := by
    intro p v edge stays unreachable
    have pending := pending_of_noneLeft turn.linked none_ p v
      ((turn.edge_iff p v).2 ⟨edge, fun gone => stays gone.2⟩) (by rwa [turn.reachable])
    rwa [turn.later_iff, turn.later_iff] at pending
  rw [turn.later_iff] at notLater
  constructor
  · intro c skipped other
    have edge := (linked.symmetric c b).2 (mem_halves.2 (Or.inr skipped))
    have stays := (not_gone_iff (b := b) linked edge).2 ⟨fun _ => skipped, fun isB => absurd isB other⟩
    exact (needs c b edge stays (closed.source edge isTurn)).resolve_right notLater
  · intro c skipped
    obtain ⟨edge, notFirst⟩ := (mem_outsLeft linked).1 (mem_halves.2 (Or.inr skipped))
    have stays := (not_gone_iff (b := b) linked edge).2 ⟨fun isB => ?_, fun _ => skipped⟩
    · exact (needs b c edge stays isTurn).resolve_left notLater
    · have inside := (linked.symmetric b c).1 edge
      rw [isB] at inside
      exact (mem_halves.1 inside).resolve_left fun first => notFirst ⟨isB, first⟩

theorem noneLeft_iff (turns : List BBRef) : ∀ {cfg : Cfg}, Linked cfg → Closed cfg → turns.Nodup → Pending cfg turns →
      (NoneLeft cfg turns ↔ TurnsComplete cfg turns) := by
  induction turns with
  | nil =>
    intro cfg _ _ _ pending
    refine iff_of_true (fun b c edge => ?_) trivial
    by_contra notReachable
    exact (pending b c edge (Bool.eq_false_iff.2 notReachable)).elim (fun is => not_mem_nil is.2)
      fun is => not_mem_nil is.2
  | cons b later next =>
    intro cfg linked closed nodup pending
    obtain ⟨notAgain, nodup'⟩ := nodup_cons.1 nodup
    have turn := unlinkBlock_removes linked b
    have same : NoneLeft cfg (b :: later) ↔ NoneLeft (unlinkBlock cfg b) later := by
      simp only [NoneLeft, foldl_cons, turn.reachable]
    have rest := next turn.linked (turn.closed closed) nodup'
    rw [same, TurnsComplete]
    constructor
    · intro none_
      have complete := turnComplete_of_noneLeft linked closed notAgain none_
      exact ⟨complete, (rest (pending_unlinkBlock linked pending complete)).1 none_⟩
    · rintro ⟨complete, completes⟩
      exact (rest (pending_unlinkBlock linked pending complete)).2 completes

end Turns

/-! ### The whole pass -/

theorem unlinkChainFrom_eq (reachable : BBRef → Bool) (rest : List BBRef) :
    ∀ b, unlinkChainFrom reachable b rest = b :: rest.filter reachable := by
  induction rest with
  | nil => exact fun b => rfl
  | cons next rest inChain =>
    intro b
    rw [unlinkChainFrom]
    by_cases isReachable : reachable next = true
    · rw [if_pos isReachable, inChain, filter_cons_of_pos isReachable]
    · rw [if_neg isReachable, inChain, filter_cons_of_neg isReachable]

theorem unlinkBlock_setChain (cfg : Cfg) (chain : List BBRef) (b : BBRef) :
    unlinkBlock (cfg.setChain chain) b = (unlinkBlock cfg b).setChain chain := by
  unfold unlinkBlock
  rw [show (cfg.setChain chain).reachable b = cfg.reachable b from rfl]
  split_ifs with isReachable
  · rfl
  · have ins : unlinkIns b (cfg.setChain chain) = (unlinkIns b cfg).setChain chain :=
      overPlaces_map (fun cfg : Cfg => cfg.inBb b) (unlinkTarget · b) (·.setChain chain) (fun _ => rfl)
        (fun _ _ => rfl) _ 0 cfg
    rw [ins]
    exact overPlaces_map (fun cfg : Cfg => cfg.outBb b) (unlinkTarget b) (·.setChain chain) (fun _ => rfl)
      (fun _ _ => rfl) _ 0 (unlinkIns b cfg)

theorem foldl_setChain (cfg : Cfg) (chain : List BBRef) (turns : List BBRef) :
    turns.foldl unlinkBlock (cfg.setChain chain) = (turns.foldl unlinkBlock cfg).setChain chain :=
  foldl_hom (·.setChain chain) (fun cfg b => unlinkBlock_setChain cfg chain b)

/-- A flow graph with its marks: the entry is the first block, all blocks are on the chain, and the successors of a
marked block are marked. -/
structure FlowGraph (cfg : Cfg) (entry : BBRef) : Prop where
  linked : Linked cfg
  isFirst : cfg.bblocks.head? = some entry
  chainFirst : cfg.chain.head? = some entry
  nodup : cfg.bblocks.Nodup
  onChain : ∀ b, cfg.reachable b = true → b ∈ cfg.chain
  closed : Closed cfg

/-- What the pass is for. -/
structure Unlinked (cfg cfg' : Cfg) (entry : BBRef) : Prop where
  sources : ∀ b, ∀ c ∈ cfg'.inBb b, cfg.reachable c = true
  targets : ∀ b, ∀ c ∈ cfg'.outBb b, cfg.reachable c = true
  kept : ∀ b c, cfg.reachable b = true → cfg.reachable c = true → c ∈ cfg.outBb b → c ∈ cfg'.outBb b ∧ b ∈ cfg'.inBb c
  chain : ∀ b, b ∈ cfg'.chain ↔ cfg.reachable b = true ∨ b = entry

theorem mem_unlinkChain {cfg : Cfg} {entry : BBRef} (graph : FlowGraph cfg entry) (b : BBRef) :
    b ∈ unlinkChain cfg.reachable cfg.chain ↔ cfg.reachable b = true ∨ b = entry := by
  have onChain := graph.onChain b
  cases isChain : cfg.chain with
  | nil =>
    have first := graph.chainFirst
    rw [isChain] at first
    cases first
  | cons first rest =>
    have isEntry := graph.chainFirst
    rw [isChain] at isEntry onChain
    cases isEntry
    rw [unlinkChain, unlinkChainFrom_eq, mem_cons, mem_filter]
    rw [mem_cons] at onChain
    tauto

/-- All edges of unreachable blocks go away exactly when each of them has an unreachable end with a turn, and what the
turns skip is left to later turns. The edges between reachable blocks and the chain are always right. -/
theorem unlinkUnusedBblocks_iff {cfg : Cfg} {entry : BBRef} (graph : FlowGraph cfg entry) :
    Unlinked cfg (unlinkUnusedBblocks cfg) entry ↔
      Pending cfg cfg.bblocks.tail ∧ TurnsComplete cfg cfg.bblocks.tail := by
  have nodup : cfg.bblocks.tail.Nodup := graph.nodup.sublist (tail_sublist _)
  have isResult : unlinkUnusedBblocks cfg =
      (cfg.bblocks.tail.foldl unlinkBlock cfg).setChain (unlinkChain cfg.reachable cfg.chain) :=
    foldl_setChain cfg _ _
  obtain ⟨gone, removes, few⟩ := foldl_unlinkBlock cfg.bblocks.tail graph.linked
  have exact_ : NoneLeft cfg cfg.bblocks.tail ↔ Pending cfg cfg.bblocks.tail ∧ TurnsComplete cfg cfg.bblocks.tail := by
    constructor
    · intro none_
      have pending := pending_of_noneLeft graph.linked none_
      exact ⟨pending, (noneLeft_iff _ graph.linked graph.closed nodup pending).1 none_⟩
    · rintro ⟨pending, complete⟩
      exact (noneLeft_iff _ graph.linked graph.closed nodup pending).2 complete
  rw [← exact_, isResult]
  constructor
  · intro is b c edge
    exact is.sources c b ((removes.linked.symmetric b c).1 edge)
  · intro none_
    refine ⟨fun b c edge => ?_, fun b c edge => ?_, fun b c source target edge => ?_, mem_unlinkChain graph⟩
    · exact none_ c b ((removes.linked.symmetric c b).2 edge)
    · exact graph.closed b c (none_ b c edge) ((removes.edge_iff b c).1 edge).1
    · have stays := (removes.edge_iff b c).2 ⟨edge, fun isGone => (few b c isGone).elim
        (fun is => Bool.false_ne_true (is.1.symm.trans source)) fun is => Bool.false_ne_true (is.1.symm.trans target)⟩
      exact ⟨stays, (removes.linked.symmetric b c).1 stays⟩

/-- The graph of a list of blocks. -/
def Cfg.of (blocks : List BasicBlock) : Cfg :=
  { bb := fun b => blocks.getD b { inBb := [], outBb := [], reachable := false }
    bblocks := List.range blocks.length
    chain := List.range blocks.length }

variable {blocks : List BasicBlock} {b : BBRef}

theorem bb_of (notLess : ¬ b < blocks.length) :
    (Cfg.of blocks).bb b = { inBb := [], outBb := [], reachable := false } := by
  unfold Cfg.of
  dsimp only
  rw [getD_eq_getElem?_getD, getElem?_eq_none (Nat.not_lt.1 notLess), Option.getD_none]

theorem lt_of_mem_outBb {c : BBRef} (edge : c ∈ (Cfg.of blocks).outBb b) : b < blocks.length := by
  by_contra notLess
  rw [Cfg.outBb, bb_of notLess] at edge
  exact not_mem_nil edge

theorem lt_of_mem_inBb {c : BBRef} (edge : c ∈ (Cfg.of blocks).inBb b) : b < blocks.length := by
  by_contra notLess
  rw [Cfg.inBb, bb_of notLess] at edge
  exact not_mem_nil edge

theorem flowGraph_of (some_ : 0 < blocks.length)
    (outs : ∀ b < blocks.length, ∀ c ∈ (Cfg.of blocks).outBb b, b ∈ (Cfg.of blocks).inBb c)
    (ins : ∀ c < blocks.length, ∀ b ∈ (Cfg.of blocks).inBb c, c ∈ (Cfg.of blocks).outBb b)
    (nodup : ∀ b < blocks.length, ((Cfg.of blocks).inBb b).Nodup ∧ ((Cfg.of blocks).outBb b).Nodup)
    (closed : ∀ b < blocks.length, (Cfg.of blocks).reachable b = true →
      ∀ c ∈ (Cfg.of blocks).outBb b, (Cfg.of blocks).reachable c = true) : FlowGraph (.of blocks) 0 := by
  have isFirst : (List.range blocks.length).head? = some 0 := by
    rw [head?_range, if_neg (Nat.pos_iff_ne_zero.1 some_)]
  have nodup' : ∀ b, ((Cfg.of blocks).inBb b).Nodup ∧ ((Cfg.of blocks).outBb b).Nodup := fun b => by
    by_cases less : b < blocks.length
    · exact nodup b less
    · rw [Cfg.inBb, Cfg.outBb, bb_of less]
      exact ⟨nodup_nil, nodup_nil⟩
  have linked : Linked (.of blocks) :=
    ⟨fun b c => ⟨fun edge => outs b (lt_of_mem_outBb edge) c edge, fun edge => ins c (lt_of_mem_inBb edge) b edge⟩,
      fun b => (nodup' b).1, fun b => (nodup' b).2⟩
  refine ⟨linked, isFirst, isFirst, nodup_range, fun b isReachable => mem_range.2 ?_,
    fun b c isReachable edge => closed b (lt_of_mem_outBb edge) isReachable c edge⟩
  by_contra notLess
  rw [Cfg.reachable, bb_of notLess] at isReachable
  exact Bool.false_ne_true isReachable

/-- The path 0, 1, 3 with the unreachable block 2, which has one successor on the path. -/
def oneExit : List BasicBlock :=
  [{ inBb := [], outBb := [1], reachable := true }, { inBb := [0, 2], outBb := [3], reachable := true },
    { inBb := [], outBb := [1], reachable := false }, { inBb := [1], outBb := [], reachable := true }]

/-- The same with two successors. -/
def twoExits : List BasicBlock :=
  [{ inBb := [], outBb := [1], reachable := true }, { inBb := [0, 2], outBb := [3], reachable := true },
    { inBb := [], outBb := [1, 3], reachable := false }, { inBb := [1, 2], outBb := [], reachable := true }]

theorem unlinkUnusedBblocks_oneExit : Unlinked (.of oneExit) (unlinkUnusedBblocks (.of oneExit)) 0 := by
  have graph : FlowGraph (.of oneExit) 0 :=
    flowGraph_of (by decide) (by decide) (by decide) (by decide) (by decide)
  have pending : ∀ b < oneExit.length, ∀ c ∈ (Cfg.of oneExit).outBb b, (Cfg.of oneExit).reachable b = false →
      Later (.of oneExit) [1, 2, 3] b ∨ Later (.of oneExit) [1, 2, 3] c := by
    decide
  have turn : TurnComplete (unlinkBlock (.of oneExit) 1) 2 [3] := ⟨by decide, by decide⟩
  exact (unlinkUnusedBblocks_iff graph).2 ⟨fun b c edge => pending b (lt_of_mem_outBb edge) c edge,
    fun is => absurd is (by decide), fun _ => turn, fun is => absurd is (by decide), trivial⟩

/-- The turn of a block with two reachable successors skips the second. -/
theorem unlinkUnusedBblocks_skips :
    FlowGraph (.of twoExits) 0 ∧ ¬ Unlinked (.of twoExits) (unlinkUnusedBblocks (.of twoExits)) 0 :=
  ⟨flowGraph_of (by decide) (by decide) (by decide) (by decide) (by decide), fun is =>
    Bool.false_ne_true (is.sources 3 2 (by decide))⟩

end MonoRuntime.UnlinkBlocks
