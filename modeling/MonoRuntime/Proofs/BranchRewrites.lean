/-
Module: MonoRuntime.Proofs.BranchRewrites
Purpose: The rewrites of the branch optimisations that change the last instruction of a block leave a consistent
  graph with the same runs.
Trusted boundary: none
Main exports: BlockOk
-/
import MonoRuntime.Proofs.BranchEdges

namespace MonoRuntime.BranchOpts

open List

/-! ### Blocks one by one -/

/-- What a consistent graph has at a block. -/
structure BlockOk (cfg : Cfg) (b : BBRef) : Prop where
  successors : cfg.endReached b → ∀ c, c ∈ cfg.outBb b ↔ c ∈ cfg.successors b
  deadEnd : ¬ cfg.endReached b → DeadEnd cfg b
  atEnd : ∀ ins ∈ (cfg.code b).dropLast, ins.isBranchOp = false
  hasNext : cfg.fallsThrough b → (cfg.nextBb b).isSome
  tableFilled : ∀ table, cfg.table b = some table → table ≠ [] ∧ ∀ entry ∈ table, entry.isSome
  tableFlag : ∀ ins ∈ cfg.code b, ins.hasTable = true → (cfg.bb b).hasJumpTable = true

theorem Consistent.block {cfg : Cfg} (consistent : Consistent cfg) {b : BBRef} (inChain : b ∈ cfg.chain) :
    BlockOk cfg b where
  successors := consistent.successors b inChain
  deadEnd := consistent.deadEnds b inChain
  atEnd := consistent.atEnd b inChain
  hasNext := consistent.hasNext b inChain
  tableFilled := consistent.tableFilled b inChain
  tableFlag := consistent.tableFlag b inChain

theorem consistent_of_blocks {cfg : Cfg} (chainNodup : cfg.chain.Nodup)
    (entryFirst : cfg.chain.head? = some cfg.bbEntry) (edges : Edges cfg fun b c => c ∈ cfg.outBb b)
    (inChain : ∀ b c, c ∈ cfg.outBb b → b ∈ cfg.chain ∧ c ∈ cfg.chain)
    (exitPlain : ∀ ins ∈ cfg.code cfg.bbExit, ins.isBranchOp = false ∧ ins ≠ .notReached)
    (blocks : ∀ b ∈ cfg.chain, BlockOk cfg b) : Consistent cfg where
  chainNodup := chainNodup
  entryFirst := entryFirst
  edges := edges
  inChain := inChain
  successors b inChain := (blocks b inChain).successors
  deadEnds b inChain := (blocks b inChain).deadEnd
  atEnd b inChain := (blocks b inChain).atEnd
  exitPlain := exitPlain
  hasNext b inChain := (blocks b inChain).hasNext
  tableFilled b inChain := (blocks b inChain).tableFilled
  tableFlag b inChain := (blocks b inChain).tableFlag

/-! ### The last instruction -/

section Last

variable {cfg : Cfg} {b : BBRef}

theorem code_of_lastIns {last : Ins} (isLast : cfg.lastIns b = some last) : cfg.code b = (cfg.code b).dropLast ++ [last] :=
  (dropLast_append_getLast? last isLast).symm

theorem lastIns_concat {ins : Ins} {code : List Ins} (isCode : cfg.code b = code ++ [ins]) : cfg.lastIns b = some ins := by
  rw [Cfg.lastIns, isCode, getLast?_concat]

theorem deadCode_append {code : List Ins} (rest : List Ins) (dead : .notReached ∈ code) :
    deadCode (code ++ rest) = deadCode code ++ rest := by
  induction code with
  | nil => cases dead
  | cons ins code ih =>
    by_cases isEnd : ins = .notReached
    · subst isEnd
      rfl
    · have deadRest : Ins.notReached ∈ code := (mem_cons.1 dead).resolve_left (Ne.symm isEnd)
      have found := ih deadRest
      cases ins <;> first
        | exact absurd rfl isEnd
        | exact found

theorem deadCode_of_not_mem {code rest : List Ins} (reached : .notReached ∉ code) :
    deadCode (code ++ rest) = deadCode rest := by
  induction code with
  | nil => rfl
  | cons ins code ih =>
    rw [mem_cons, not_or] at reached
    have found := ih reached.2
    cases ins <;> first
      | exact absurd rfl reached.1
      | exact found

theorem BlockOk.last_dead (ok : BlockOk cfg b) (dead : ¬ cfg.endReached b) {last : Ins}
    (isLast : cfg.lastIns b = some last) : last = .notReached ∨ last = .nop ∨ last = .br cfg.bbExit := by
  have behind := (ok.deadEnd dead).behind
  have code := code_of_lastIns isLast
  unfold Cfg.endReached at dead
  rw [code] at dead behind
  by_cases before : .notReached ∈ (cfg.code b).dropLast
  · rw [deadCode_append _ before] at behind
    exact .inr (behind last (mem_append_right _ (mem_singleton.2 rfl)))
  · rw [not_not, mem_append, mem_singleton] at dead
    exact .inl (dead.resolve_left before).symm

/-- The end of a block with a branch is reached, unless it is the branch of a dead end. -/
theorem BlockOk.endReached (ok : BlockOk cfg b) {last : Ins} (isLast : cfg.lastIns b = some last)
    (isBranch : last.isBranchOp = true) (other : last ≠ .br cfg.bbExit) : cfg.endReached b := by
  apply Classical.byContradiction
  intro dead
  rcases ok.last_dead dead isLast with isEnd | isNop | isExit
  · rw [isEnd] at isBranch
    cases isBranch
  · rw [isNop] at isBranch
    cases isBranch
  · exact other isExit

theorem exit_reached (consistent : Consistent cfg) : cfg.endReached cfg.bbExit := by
  intro inCode
  exact (consistent.exitPlain _ inCode).2 rfl

theorem notExit_of_branch (consistent : Consistent cfg) {last : Ins} (isLast : cfg.lastIns b = some last)
    (isBranch : last.isBranchOp = true) : b ≠ cfg.bbExit := by
  intro isExit
  have plain := (consistent.exitPlain last (isExit ▸ mem_of_getLast? isLast)).1
  rw [isBranch] at plain
  cases plain

theorem successors_plain (plain : ∀ last, cfg.lastIns b = some last → last.isBranchOp = false) :
    cfg.successors b = if b = cfg.bbExit then [] else (cfg.nextBb b).toList := by
  unfold Cfg.successors
  cases last : cfg.lastIns b with
  | none => rfl
  | some ins =>
    have isPlain := plain ins last
    cases ins <;> first
      | rfl
      | cases isPlain

theorem successors_br {target : BBRef} (isLast : cfg.lastIns b = some (.br target)) : cfg.successors b = [target] := by
  rw [Cfg.successors, isLast]

theorem successors_condBranch {op : CondOp} {trueBb falseBb : BBRef} {cfold : Option Bool}
    (isLast : cfg.lastIns b = some (.condBranch op trueBb falseBb cfold)) : cfg.successors b = [trueBb, falseBb] := by
  rw [Cfg.successors, isLast]

theorem successors_nop {next : BBRef} (isLast : cfg.lastIns b = some .nop) (notExit : b ≠ cfg.bbExit)
    (isNext : cfg.nextBb b = some next) : cfg.successors b = [next] := by
  rw [Cfg.successors, isLast]
  simp only [if_neg notExit, isNext, Option.toList_some]

section Next

variable {σ : Type} (m : Machine σ) (state : σ)

theorem nextBlock_dead (dead : ¬ cfg.endReached b) : nextBlock m cfg b state = none := by
  rw [nextBlock, if_pos (not_not.1 dead)]

theorem nextBlock_br (reached : cfg.endReached b) {target : BBRef} (isLast : cfg.lastIns b = some (.br target)) :
    nextBlock m cfg b state = some target := by
  rw [nextBlock, if_neg reached, isLast]

theorem nextBlock_condBranch (reached : cfg.endReached b) {op : CondOp} {trueBb falseBb : BBRef} {cfold : Option Bool}
    (isLast : cfg.lastIns b = some (.condBranch op trueBb falseBb cfold)) :
    nextBlock m cfg b state = some (if cfold.getD (op.holds (m.compared state)) then trueBb else falseBb) := by
  rw [nextBlock, if_neg reached, isLast]

theorem nextBlock_plain (reached : cfg.endReached b)
    (plain : ∀ last, cfg.lastIns b = some last → last.isBranchOp = false) :
    nextBlock m cfg b state = if b = cfg.bbExit then none else cfg.nextBb b := by
  rw [nextBlock, if_neg reached]
  cases last : cfg.lastIns b with
  | none => rfl
  | some ins =>
    have isPlain := plain ins last
    cases ins <;> first
      | rfl
      | cases isPlain

end Next

end Last

/-! ### Blocks that are left alone -/

section Congr

variable {cfg cfg' : Cfg} {b : BBRef}

theorem lastIns_congr (code : cfg'.code b = cfg.code b) : cfg'.lastIns b = cfg.lastIns b := by
  rw [Cfg.lastIns, Cfg.lastIns, code]

theorem endReached_congr (code : cfg'.code b = cfg.code b) : cfg'.endReached b ↔ cfg.endReached b := by
  rw [Cfg.endReached, Cfg.endReached, code]

theorem fallsThrough_congr (code : cfg'.code b = cfg.code b) (bbExit : cfg'.bbExit = cfg.bbExit) :
    cfg'.fallsThrough b ↔ cfg.fallsThrough b := by
  rw [Cfg.fallsThrough, Cfg.fallsThrough, lastIns_congr code, endReached_congr code, bbExit]

theorem branch_or_plain (cfg : Cfg) (b : BBRef) : (∃ last, cfg.lastIns b = some last ∧ last.isBranchOp = true) ∨
      ∀ last, cfg.lastIns b = some last → last.isBranchOp = false := by
  cases isLast : cfg.lastIns b with
  | none =>
    right
    intro last isSome
    cases isSome
  | some last =>
    cases isBranch : last.isBranchOp with
    | true => exact .inl ⟨last, rfl, isBranch⟩
    | false =>
      right
      intro other isSome
      exact Option.some.inj isSome ▸ isBranch

/-- The successors depend on the code, and on the chain where the block falls through. -/
theorem successors_congr (reached : cfg.endReached b) (code : cfg'.code b = cfg.code b)
    (bbExit : cfg'.bbExit = cfg.bbExit) (next : cfg.fallsThrough b → cfg'.nextBb b = cfg.nextBb b) :
    cfg'.successors b = cfg.successors b := by
  have last := lastIns_congr code
  rcases branch_or_plain cfg b with ⟨ins, isLast, isBranch⟩ | plain
  · rw [Cfg.successors, Cfg.successors, last, code, isLast]
    cases ins <;> first
      | rfl
      | cases isBranch
  · rw [successors_plain plain, successors_plain (by rw [last]; exact plain), bbExit]
    split
    · rfl
    · next other => rw [next ⟨other, reached, plain⟩]

theorem nextBlock_congr {σ : Type} (m : Machine σ) (state : σ) (code : cfg'.code b = cfg.code b)
    (bbExit : cfg'.bbExit = cfg.bbExit) (next : cfg.fallsThrough b → cfg'.nextBb b = cfg.nextBb b) :
    nextBlock m cfg' b state = nextBlock m cfg b state := by
  have last := lastIns_congr code
  by_cases reached : cfg.endReached b
  · have reached' := (endReached_congr code).2 reached
    rcases branch_or_plain cfg b with ⟨ins, isLast, isBranch⟩ | plain
    · rw [nextBlock, nextBlock, last, code, isLast]
      cases ins <;> first
        | rfl
        | cases isBranch
    · rw [nextBlock_plain m state reached plain, nextBlock_plain m state reached' (by rw [last]; exact plain),
        bbExit]
      split
      · rfl
      · next other => rw [next ⟨other, reached, plain⟩]
  · rw [nextBlock_dead m state reached, nextBlock_dead m state fun reached' =>
      reached ((endReached_congr code).1 reached')]

theorem BlockOk.congr (ok : BlockOk cfg b) (code : cfg'.code b = cfg.code b) (bbExit : cfg'.bbExit = cfg.bbExit)
    (out : ∀ c, c ∈ cfg'.outBb b ↔ c ∈ cfg.outBb b) (flag : (cfg'.bb b).hasJumpTable = (cfg.bb b).hasJumpTable)
    (next : cfg.fallsThrough b → cfg'.nextBb b = cfg.nextBb b)
    (dead : cfg.lastIns b = some .nop → cfg.nextBb b = some cfg.bbExit → cfg'.nextBb b = some cfg.bbExit) :
    BlockOk cfg' b where
  successors reached c := by
    rw [endReached_congr code] at reached
    rw [out c, successors_congr reached code bbExit next]
    exact ok.successors reached c
  deadEnd notReached := by
    rw [endReached_congr code] at notReached
    have deadEnd := ok.deadEnd notReached
    constructor
    · intro c inOut
      rw [bbExit]
      exact deadEnd.edges c ((out c).1 inOut)
    · rw [code, bbExit]
      exact deadEnd.behind
    · intro isNop
      rw [lastIns_congr code] at isNop
      rw [bbExit]
      exact dead isNop (deadEnd.nopLast isNop)
  atEnd := by
    rw [code]
    exact ok.atEnd
  hasNext falls := by
    rw [fallsThrough_congr code bbExit] at falls
    rw [next falls]
    exact ok.hasNext falls
  tableFilled table isTable := by
    rw [Cfg.table, lastIns_congr code, code, ← Cfg.table] at isTable
    exact ok.tableFilled table isTable
  tableFlag := by
    rw [code, flag]
    exact ok.tableFlag

end Congr

/-! ### Where a run goes -/

section Next

variable {cfg : Cfg} {b : BBRef} {σ : Type} (m : Machine σ) (state : σ)

theorem jumpTarget_mem {table : List (Option BBRef)} {c : BBRef} (goes : jumpTarget m table state = some c) :
    c ∈ table.filterMap id := by
  unfold jumpTarget at goes
  cases entry : table[m.index table.length state]? with
  | none =>
    rw [entry] at goes
    cases goes
  | some target =>
    rw [entry] at goes
    have isTarget : target = some c := goes
    rw [mem_filterMap]
    exact ⟨target, mem_of_getElem? entry, isTarget⟩

theorem jumpTarget_isSome {table : List (Option BBRef)} (filled : table ≠ [] ∧ ∀ entry ∈ table, entry.isSome) :
    (jumpTarget m table state).isSome := by
  have less := m.index_lt table.length state (length_pos_iff.2 filled.1)
  have isSome := filled.2 _ (getElem_mem less)
  rw [jumpTarget, getElem?_eq_getElem less]
  exact isSome

theorem nextBlock_mem (ok : BlockOk cfg b) {c : BBRef} (goes : nextBlock m cfg b state = some c) : c ∈ cfg.outBb b := by
  have reached : cfg.endReached b := by
    apply Classical.byContradiction
    intro dead
    rw [nextBlock_dead m state dead] at goes
    cases goes
  rw [ok.successors reached c, Cfg.successors]
  rw [nextBlock, if_neg reached] at goes
  split at goes
  · simpa using goes.symm
  · have target := Option.some.inj goes
    split at target <;> simp [target]
  · exact jumpTarget_mem m state goes
  · exact jumpTarget_mem m state goes
  · split at goes
    · cases goes
    · next other =>
        rw [if_neg other, goes]
        exact mem_singleton.2 rfl

theorem nextBlock_isSome (ok : BlockOk cfg b) {c : BBRef} (reached : cfg.endReached b) (edge : c ∈ cfg.outBb b) :
    (nextBlock m cfg b state).isSome := by
  have filled := ok.tableFilled
  rw [ok.successors reached c, Cfg.successors] at edge
  unfold Cfg.table at filled
  rw [nextBlock, if_neg reached]
  split at edge
  · rfl
  · rfl
  · next table last => exact jumpTarget_isSome m state (filled table (by rw [last]))
  · next last => exact jumpTarget_isSome m state (filled _ (by rw [last]))
  · split at edge
    · cases edge
    · next other =>
        have hasNext : (cfg.nextBb b).isSome := by
          cases next : cfg.nextBb b with
          | none =>
            rw [next] at edge
            cases edge
          | some d => rfl
        rw [if_neg other]
        exact hasNext

theorem nextBlock_single (ok : BlockOk cfg b) {c : BBRef} (reached : cfg.endReached b)
    (single : ∀ d, d ∈ cfg.outBb b ↔ d = c) : nextBlock m cfg b state = some c := by
  obtain ⟨d, goes⟩ := Option.isSome_iff_exists.1 (nextBlock_isSome m state ok reached ((single c).2 rfl))
  have inOut := nextBlock_mem m state ok goes
  rw [goes, (single d).1 inOut]

end Next

theorem perform_append {σ : Type} (m : Machine σ) (code rest : List Ins) (state : σ) :
    perform m (code ++ rest) state = ((perform m code state).1 ++ (perform m rest (perform m code state).2).1,
        (perform m rest (perform m code state).2).2) := by
  induction code generalizing state with
  | nil => rfl
  | cons ins code ih =>
    cases ins <;> simp only [cons_append, perform, ih]

/-! ### Runs of two graphs -/

section Runs

variable {cfg cfg' : Cfg} {good : BBRef → Prop}

theorem sameRuns_of_blocks (good : BBRef → Prop) (bbEntry : cfg'.bbEntry = cfg.bbEntry) (start : good cfg.bbEntry)
    (pieces : ∀ (σ : Type) (m : Machine σ) (b : BBRef) (state : σ), good b →
      System.Pieces (blockSystem m cfg) (blockSystem m cfg') (fun s t => s = t ∧ good s.1) (b, state) (b, state)) :
    SameRuns cfg cfg' := by
  intro σ m state
  rw [bbEntry]
  apply System.sameTraces_of_matched (R := fun s t => s = t ∧ good s.1)
  · rintro ⟨b, state⟩ t ⟨rfl, isGood⟩
    exact pieces σ m b state isGood
  · exact ⟨rfl, start⟩

variable {σ : Type} {m : Machine σ} {b c : BBRef} {state : σ}

theorem pieces_same (code : perform m (cfg'.code b) state = perform m (cfg.code b) state)
    (next : nextBlock m cfg' b (perform m (cfg.code b) state).2 = nextBlock m cfg b (perform m (cfg.code b) state).2)
    (isGood : ∀ c, nextBlock m cfg b (perform m (cfg.code b) state).2 = some c → good c) :
    System.Pieces (blockSystem m cfg) (blockSystem m cfg') (fun s t => s = t ∧ good s.1) (b, state) (b, state) := by
  apply System.pieces_of_step
  · simp only [blockSystem, code]
  · simp only [blockSystem, code, next]
    cases goes : nextBlock m cfg b (perform m (cfg.code b) state).2 with
    | none => exact .inl ⟨rfl, rfl⟩
    | some c => exact .inr ⟨_, _, rfl, rfl, rfl, isGood c goes⟩

/-- A block that performs what two blocks performed, and goes where the second went. -/
theorem pieces_two (first : nextBlock m cfg b (perform m (cfg.code b) state).2 = some c)
    (code : perform m (cfg'.code b) state = perform m (cfg.code b ++ cfg.code c) state)
    (next : nextBlock m cfg' b (perform m (cfg.code b ++ cfg.code c) state).2
      = nextBlock m cfg c (perform m (cfg.code b ++ cfg.code c) state).2)
    (isGood : ∀ d, nextBlock m cfg c (perform m (cfg.code b ++ cfg.code c) state).2 = some d → good d) :
    System.Pieces (blockSystem m cfg) (blockSystem m cfg') (fun s t => s = t ∧ good s.1) (b, state) (b, state) := by
  rw [perform_append] at code next isGood
  have toNext : ((blockSystem m cfg).step (b, state)).2 = some (c, (perform m (cfg.code b) state).2) := by
    simp only [blockSystem, first, Option.map_some]
  apply System.pieces_of_twoSteps toNext
  · simp only [blockSystem, code]
  · simp only [blockSystem, code, next]
    cases goes : nextBlock m cfg c (perform m (cfg.code c) (perform m (cfg.code b) state).2).2 with
    | none => exact .inl ⟨rfl, rfl⟩
    | some d => exact .inr ⟨_, _, rfl, rfl, rfl, isGood d goes⟩

end Runs

/-- What every rewrite keeps. -/
structure Preserves (cfg cfg' : Cfg) : Prop where
  consistent : Consistent cfg'
  runs : SameRuns cfg cfg'
  bbEntry : cfg'.bbEntry = cfg.bbEntry
  outOfLine : ∀ b, (cfg'.bb b).outOfLine = (cfg.bb b).outOfLine

theorem Preserves.refl {cfg : Cfg} (consistent : Consistent cfg) : Preserves cfg cfg where
  consistent := consistent
  runs _ _ _ := System.SameTraces.refl _ _
  bbEntry := rfl
  outOfLine _ := rfl

theorem Preserves.trans {cfg cfg' cfg'' : Cfg} (first : Preserves cfg cfg') (second : Preserves cfg' cfg'') :
    Preserves cfg cfg'' where
  consistent := second.consistent
  runs σ m state := (first.runs σ m state).trans (second.runs σ m state)
  bbEntry := second.bbEntry.trans first.bbEntry
  outOfLine b := (second.outOfLine b).trans (first.outOfLine b)

theorem Preserves.of_blocks {cfg cfg' : Cfg} {edge : BBRef → BBRef → Prop} (consistent : Consistent cfg)
    (chainNodup : cfg'.chain.Nodup) (entryFirst : cfg'.chain.head? = some cfg.bbEntry)
    (bbEntry : cfg'.bbEntry = cfg.bbEntry) (bbExit : cfg'.bbExit = cfg.bbExit)
    (outOfLine : ∀ b, (cfg'.bb b).outOfLine = (cfg.bb b).outOfLine)
    (exitCode : cfg'.code cfg.bbExit = cfg.code cfg.bbExit) (edges : Edges cfg' edge)
    (inChain : ∀ b c, edge b c → b ∈ cfg'.chain ∧ c ∈ cfg'.chain) (blocks : ∀ b ∈ cfg'.chain, BlockOk cfg' b)
    (pieces : ∀ (σ : Type) (m : Machine σ) (state : σ), ∀ b ∈ cfg'.chain,
      System.Pieces (blockSystem m cfg) (blockSystem m cfg') (fun s t => s = t ∧ s.1 ∈ cfg'.chain)
        (b, state) (b, state)) : Preserves cfg cfg' where
  consistent := by
    apply consistent_of_blocks chainNodup
    · rw [bbEntry]
      exact entryFirst
    · exact edges.congr fun b c => (edges.outIff b c).symm
    · intro b c inOut
      exact inChain b c ((edges.outIff b c).1 inOut)
    · rw [bbExit, exitCode]
      exact consistent.exitPlain
    · exact blocks
  runs := by
    apply sameRuns_of_blocks (fun b => b ∈ cfg'.chain) bbEntry
    · exact mem_of_mem_head? entryFirst
    · intro σ m b state isGood
      exact pieces σ m state b isGood
  bbEntry := bbEntry
  outOfLine := outOfLine

/-! ### One block changes -/

/-- Two graphs that differ in one block, which stays well formed. -/
structure Changes (cfg cfg' : Cfg) (b : BBRef) (edge : BBRef → BBRef → Prop) : Prop where
  inChain : b ∈ cfg.chain
  notExit : b ≠ cfg.bbExit
  chain : cfg'.chain = cfg.chain
  bbEntry : cfg'.bbEntry = cfg.bbEntry
  bbExit : cfg'.bbExit = cfg.bbExit
  outOfLine : ∀ x, (cfg'.bb x).outOfLine = (cfg.bb x).outOfLine
  hasJumpTable : ∀ x, (cfg'.bb x).hasJumpTable = (cfg.bb x).hasJumpTable
  code : ∀ x, x ≠ b → cfg'.code x = cfg.code x
  edges : Edges cfg' edge
  otherEdges : ∀ x, x ≠ b → ∀ c, edge x c ↔ c ∈ cfg.outBb x
  targets : ∀ c, edge b c → c ∈ cfg.chain

section Changes

variable {cfg cfg' : Cfg} {b : BBRef} {edge : BBRef → BBRef → Prop}

theorem Changes.preserves (consistent : Consistent cfg) (changes : Changes cfg cfg' b edge) (ok : BlockOk cfg' b)
    (pieces : ∀ (σ : Type) (m : Machine σ) (state : σ),
      System.Pieces (blockSystem m cfg) (blockSystem m cfg') (fun s t => s = t ∧ s.1 ∈ cfg'.chain)
        (b, state) (b, state)) : Preserves cfg cfg' := by
  have chain := changes.chain
  have next : ∀ x, cfg'.nextBb x = cfg.nextBb x := by
    intro x
    rw [Cfg.nextBb, Cfg.nextBb, chain]
  apply Preserves.of_blocks consistent
  · exact chain ▸ consistent.chainNodup
  · exact chain ▸ consistent.entryFirst
  · exact changes.bbEntry
  · exact changes.bbExit
  · exact changes.outOfLine
  · exact changes.code _ (Ne.symm changes.notExit)
  · exact changes.edges
  · intro x c isEdge
    rw [chain]
    by_cases same : x = b
    · rw [same] at isEdge ⊢
      exact ⟨changes.inChain, changes.targets c isEdge⟩
    · exact consistent.inChain x c ((changes.otherEdges x same c).1 isEdge)
  · intro x inChain
    by_cases same : x = b
    · exact same ▸ ok
    · rw [chain] at inChain
      apply (consistent.block inChain).congr (changes.code x same) changes.bbExit
      · intro c
        rw [changes.edges.outIff, changes.otherEdges x same]
      · exact changes.hasJumpTable x
      · exact fun _ => next x
      · exact fun _ isNext => (next x).trans isNext
  · intro σ m state x inChain
    by_cases same : x = b
    · exact same ▸ pieces σ m state
    · rw [chain] at inChain
      apply pieces_same
      · rw [changes.code x same]
      · exact nextBlock_congr m _ (changes.code x same) changes.bbExit fun _ => next x
      · intro c goes
        rw [chain]
        exact (consistent.inChain x c (nextBlock_mem m _ (consistent.block inChain) goes)).2

/-- The instructions that stand for a branch in the rewrites. -/
def Ins.isPlainBranch : Ins → Bool
  | .br _ | .condBranch _ _ _ _ | .nop => true
  | _ => false

theorem endReached_setLast {ins : Ins} (reached : cfg.endReached b)
    (code : cfg'.code b = (cfg.code b).dropLast ++ [ins]) (plain : ins.isPlainBranch = true) : cfg'.endReached b := by
  intro inCode
  rw [code, mem_append, mem_singleton] at inCode
  rcases inCode with inFront | isNew
  · exact reached ((dropLast_sublist _).subset inFront)
  · rw [← isNew] at plain
    cases plain

/-- A new branch or an `OP_NOP` in place of a branch keeps a block well formed if its edges are right. -/
theorem blockOk_setLast {ins : Ins} (ok : BlockOk cfg b) (reached : cfg.endReached b)
    (code : cfg'.code b = (cfg.code b).dropLast ++ [ins]) (plain : ins.isPlainBranch = true)
    (flag : (cfg'.bb b).hasJumpTable = (cfg.bb b).hasJumpTable)
    (successors : ∀ c, c ∈ cfg'.outBb b ↔ c ∈ cfg'.successors b) (hasNext : ins = .nop → (cfg'.nextBb b).isSome) :
    BlockOk cfg' b := by
  have last := lastIns_concat code
  constructor
  · intro _
    exact successors
  · intro dead
    exact absurd (endReached_setLast reached code plain) dead
  · rw [code, dropLast_concat]
    exact ok.atEnd
  · intro falls
    have noBranch := falls.2.2 ins last
    apply hasNext
    cases ins <;> simp_all [Ins.isPlainBranch, Ins.isBranchOp]
  · intro table isTable
    rw [Cfg.table, last] at isTable
    cases ins <;> simp_all [Ins.isPlainBranch]
  · intro old inCode hasTable
    rw [flag]
    rw [code, mem_append, mem_singleton] at inCode
    rcases inCode with inFront | isNew
    · exact ok.tableFlag old ((dropLast_sublist _).subset inFront) hasTable
    · subst isNew
      cases old <;> simp_all [Ins.isPlainBranch, Ins.hasTable]

theorem deadEnd_setLast {last ins : Ins} (ok : BlockOk cfg b) (dead : ¬ cfg.endReached b)
    (isLast : cfg.lastIns b = some last) (notEnd : last ≠ .notReached)
    (code : cfg'.code b = (cfg.code b).dropLast ++ [ins]) (harmless : ins = .nop ∨ ins = .br cfg.bbExit) :
    ¬ cfg'.endReached b ∧ ∀ ins ∈ deadCode (cfg'.code b), ins = .nop ∨ ins = .br cfg.bbExit := by
  have behind := (ok.deadEnd dead).behind
  have old := code_of_lastIns isLast
  unfold Cfg.endReached at dead ⊢
  rw [old, mem_append, mem_singleton, not_not] at dead
  have before : .notReached ∈ (cfg.code b).dropLast := dead.resolve_right (Ne.symm notEnd)
  rw [old, deadCode_append _ before] at behind
  rw [code]
  constructor
  · exact fun reached => reached (mem_append_left _ before)
  · rw [deadCode_append _ before]
    intro other inCode
    rcases mem_append.1 inCode with inFront | isNew
    · exact behind other (mem_append_left _ inFront)
    · exact mem_singleton.1 isNew ▸ harmless

theorem blockOk_dead {ins : Ins} (ok : BlockOk cfg b) (dead : ¬ cfg'.endReached b)
    (code : cfg'.code b = (cfg.code b).dropLast ++ [ins]) (plain : ins.isPlainBranch = true)
    (flag : (cfg'.bb b).hasJumpTable = (cfg.bb b).hasJumpTable) (deadEnd : DeadEnd cfg' b) : BlockOk cfg' b := by
  have last := lastIns_concat code
  constructor
  · exact fun reached => absurd reached dead
  · exact fun _ => deadEnd
  · rw [code, dropLast_concat]
    exact ok.atEnd
  · exact fun falls => absurd falls.2.1 dead
  · intro table isTable
    rw [Cfg.table, last] at isTable
    cases ins <;> simp_all [Ins.isPlainBranch]
  · intro old inCode hasTable
    rw [flag]
    rw [code, mem_append, mem_singleton] at inCode
    rcases inCode with inFront | isNew
    · exact ok.tableFlag old ((dropLast_sublist _).subset inFront) hasTable
    · subst isNew
      cases old <;> simp_all [Ins.isPlainBranch, Ins.hasTable]

theorem perform_concat {σ : Type} (m : Machine σ) (code : List Ins) {ins : Ins} (state : σ)
    (plain : ins.isPlainBranch = true) : perform m (code ++ [ins]) state = perform m code state := by
  rw [perform_append]
  have nothing : ∀ state, perform m [ins] state = ([], state) := by
    intro state
    cases ins <;> simp_all [Ins.isPlainBranch, perform]
  rw [nothing, append_nil]

theorem perform_setLast {σ : Type} (m : Machine σ) {last ins : Ins} (state : σ) (isLast : cfg.lastIns b = some last)
    (lastPlain : last.isPlainBranch = true) (code : cfg'.code b = (cfg.code b).dropLast ++ [ins])
    (plain : ins.isPlainBranch = true) : perform m (cfg'.code b) state = perform m (cfg.code b) state := by
  rw [code, perform_concat m _ state plain]
  conv_rhs => rw [code_of_lastIns isLast]
  rw [perform_concat m _ state lastPlain]

/-- Another branch at the end of a block, which goes the same way. -/
theorem Changes.preserves_last (consistent : Consistent cfg) (changes : Changes cfg cfg' b edge) {last ins : Ins}
    (reached : cfg.endReached b) (isLast : cfg.lastIns b = some last) (lastPlain : last.isPlainBranch = true)
    (code : cfg'.code b = (cfg.code b).dropLast ++ [ins]) (plain : ins.isPlainBranch = true)
    (successors : ∀ c, edge b c ↔ c ∈ cfg'.successors b) (hasNext : ins = .nop → (cfg'.nextBb b).isSome)
    (goes : ∀ (σ : Type) (m : Machine σ) (state : σ), nextBlock m cfg' b state = nextBlock m cfg b state) :
    Preserves cfg cfg' := by
  have ok := consistent.block changes.inChain
  apply changes.preserves consistent
  · exact blockOk_setLast ok reached code plain (changes.hasJumpTable b)
      (fun c => (changes.edges.outIff b c).trans (successors c)) hasNext
  · intro σ m state
    apply pieces_same (perform_setLast m state isLast lastPlain code plain) (goes σ m _)
    intro c goes
    exact changes.chain ▸ (consistent.inChain b c (nextBlock_mem m _ ok goes)).2

end Changes

/-! ### A new branch at the end of a block -/

section SetLast

variable {cfg cfg1 cfg2 : Cfg} {b : BBRef} {ins : Ins} {edge : BBRef → BBRef → Prop}

/-- A graph whose edges are changed, then a last instruction, then edges again. -/
theorem changes_setLast (ins : Ins) (before : SameButEdges cfg cfg1) (after : SameButEdges (cfg1.setLast b ins) cfg2)
    (inChain : b ∈ cfg.chain) (notExit : b ≠ cfg.bbExit) (edges : Edges cfg2 edge)
    (otherEdges : ∀ x, x ≠ b → ∀ c, edge x c ↔ c ∈ cfg.outBb x) (targets : ∀ c, edge b c → c ∈ cfg.chain) :
    Changes cfg cfg2 b edge ∧ cfg2.code b = (cfg.code b).dropLast ++ [ins] := by
  constructor
  · constructor
    · exact inChain
    · exact notExit
    · exact after.chain.trans before.chain
    · exact after.bbEntry.trans before.bbEntry
    · exact after.bbExit.trans before.bbExit
    · intro x
      rw [after.outOfLine, Cfg.setLast, outOfLine_setCode, before.outOfLine]
    · intro x
      rw [after.hasJumpTable, Cfg.setLast, hasJumpTable_setCode, before.hasJumpTable]
    · intro x other
      rw [after.code, Cfg.setLast, code_setCode, if_neg other, before.code]
    · exact edges
    · exact otherEdges
    · exact targets
  · rw [after.code, Cfg.setLast, code_setCode, if_pos rfl, before.code]

theorem edges_setLast (edges : Edges cfg edge) (ins : Ins) : Edges (cfg.setLast b ins) edge :=
  edges.of_same (fun x => outBb_setCode cfg b x _) fun x => inBb_setCode cfg b x _

theorem condBranch_edges (consistent : Consistent cfg) {op : CondOp} {trueBb falseBb : BBRef} {cfold : Option Bool}
    (inChain : b ∈ cfg.chain) (isLast : cfg.lastIns b = some (.condBranch op trueBb falseBb cfold)) :
    b ≠ cfg.bbExit ∧ cfg.endReached b ∧ ∀ c, c ∈ cfg.outBb b ↔ c = trueBb ∨ c = falseBb := by
  have ok := consistent.block inChain
  have reached : cfg.endReached b := ok.endReached isLast rfl (by simp)
  refine ⟨notExit_of_branch consistent isLast rfl, reached, fun c => ?_⟩
  rw [ok.successors reached c, successors_condBranch isLast]
  simp

theorem preserves_condToBr (consistent : Consistent cfg) {op : CondOp} {trueBb falseBb out : BBRef}
    {cfold : Option Bool} (inChain : b ∈ cfg.chain) (single : cfg.outBb b = [out])
    (isLast : cfg.lastIns b = some (.condBranch op trueBb falseBb cfold)) :
    Preserves cfg (cfg.setLast b (.br trueBb)) := by
  obtain ⟨notExit, reached, edges⟩ := condBranch_edges consistent inChain isLast
  have isTrue : trueBb = out := by simpa [single] using (edges trueBb).2 (.inl rfl)
  have isFalse : falseBb = out := by simpa [single] using (edges falseBb).2 (.inr rfl)
  obtain ⟨changes, code⟩ := changes_setLast (.br trueBb) (SameButEdges.refl cfg)
    (SameButEdges.refl _) inChain notExit (edges_setLast consistent.edges _) (fun _ _ _ => Iff.rfl)
    fun c inOut => (consistent.inChain b c inOut).2
  have last := lastIns_concat code
  apply changes.preserves_last consistent reached isLast rfl code rfl
  · intro c
    rw [successors_br last, single, isTrue]
  · nofun
  · intro σ m state
    rw [nextBlock_br m _ (endReached_setLast reached code rfl) last, nextBlock_condBranch m _ reached isLast, isTrue,
      isFalse, ite_self]

theorem preserves_brToNop (consistent : Consistent cfg) {target out : BBRef} (inChain : b ∈ cfg.chain)
    (single : cfg.outBb b = [out]) (isNext : cfg.nextBb b = some out) (isLast : cfg.lastIns b = some (.br target)) :
    Preserves cfg (cfg.setLast b .nop) := by
  have ok := consistent.block inChain
  have notExit := notExit_of_branch consistent isLast rfl
  obtain ⟨changes, code⟩ := changes_setLast .nop (SameButEdges.refl cfg)
    (SameButEdges.refl _) inChain notExit (edges_setLast consistent.edges _) (fun _ _ _ => Iff.rfl)
    fun c inOut => (consistent.inChain b c inOut).2
  have last := lastIns_concat code
  have notExit' : b ≠ (cfg.setLast b .nop).bbExit := notExit
  have isNext' : (cfg.setLast b .nop).nextBb b = some out := isNext
  by_cases reached : cfg.endReached b
  · have isTarget : target = out := by
      have inOut : target ∈ cfg.outBb b := by
        rw [ok.successors reached, successors_br isLast]
        exact mem_singleton.2 rfl
      simpa [single] using inOut
    apply changes.preserves_last consistent reached isLast rfl code rfl
    · intro c
      rw [successors_nop last notExit' isNext', single]
    · intro _
      rw [isNext']
      rfl
    · intro σ m state
      have plain : ∀ ins, (cfg.setLast b .nop).lastIns b = some ins → ins.isBranchOp = false := by
        intro ins isSome
        rw [last] at isSome
        exact Option.some.inj isSome ▸ rfl
      rw [nextBlock_plain m _ (endReached_setLast reached code rfl) plain, if_neg notExit',
        nextBlock_br m _ reached isLast, isNext', isTarget]
  · -- The branch of a dead end goes to the exit, which follows.
    have isExit : out = cfg.bbExit := (ok.deadEnd reached).edges out (single ▸ mem_singleton.2 rfl)
    have dead := deadEnd_setLast ok reached isLast (by simp) code (.inl rfl)
    have reached' : ¬ (cfg.setLast b .nop).endReached b := dead.1
    have ok' : BlockOk (cfg.setLast b .nop) b := by
      apply blockOk_dead ok reached' code rfl (changes.hasJumpTable b)
      constructor
      · exact fun c inOut => (ok.deadEnd reached).edges c ((changes.edges.outIff b c).1 inOut)
      · exact dead.2
      · exact fun _ => isExit ▸ isNext'
    apply changes.preserves consistent ok'
    intro σ m state
    apply pieces_same (perform_setLast m state isLast rfl code rfl)
    · rw [nextBlock_dead m _ reached, nextBlock_dead m _ reached']
    · intro c goes
      rw [nextBlock_dead m _ reached] at goes
      cases goes

theorem branch_of_branchOf {target : BBRef} (isBranch : branchOf cfg b = some target) :
    ∃ ins ∈ cfg.code b, ins.isBranchOp = true := by
  unfold branchOf at isBranch
  split at isBranch
  · next first isFirst => exact ⟨.br first, mem_of_mem_head? isFirst, rfl⟩
  · cases isBranch

theorem code_of_branchOf (consistent : Consistent cfg) {target : BBRef} (inChain : b ∈ cfg.chain)
    (isBranch : branchOf cfg b = some target) : cfg.code b = [.br target] := by
  have atEnd := (consistent.block inChain).atEnd
  unfold branchOf at isBranch
  split at isBranch
  · next first isFirst =>
      cases isBranch
      cases code : cfg.code b with
      | nil => rw [code] at isFirst; cases isFirst
      | cons head rest =>
        rw [code] at isFirst atEnd
        have isHead : head = .br target := Option.some.inj isFirst
        cases rest with
        | nil => rw [isHead]
        | cons next rest =>
          have plain := atEnd head (by simp [List.dropLast])
          rw [isHead] at plain
          cases plain
  · cases isBranch

theorem out_of_branchOf (consistent : Consistent cfg) {target : BBRef} (inChain : b ∈ cfg.chain)
    (isBranch : branchOf cfg b = some target) :
    cfg.endReached b ∧ cfg.lastIns b = some (.br target) ∧ target ∈ cfg.outBb b := by
  have code := code_of_branchOf consistent inChain isBranch
  have last : cfg.lastIns b = some (.br target) := by
    rw [Cfg.lastIns, code, getLast?_singleton]
  have reached : cfg.endReached b := by
    rw [Cfg.endReached, code]
    simp
  refine ⟨reached, last, ?_⟩
  rw [(consistent.block inChain).successors reached, successors_br last]
  exact mem_singleton.2 rfl

end SetLast

/-! ### Branches to branches -/

section Thread

variable {cfg : Cfg} {b : BBRef}

/-- The graph of `threadBr` before the branch is changed. -/
def threadBrEdges (cfg : Cfg) (b next target : BBRef) : Cfg :=
  monoLinkBblock (replaceOutBlock (replaceInBlock cfg next b none) b next (some target)) b target

theorem sameButEdges_threadBr (cfg : Cfg) (b next target : BBRef) : SameButEdges cfg (threadBrEdges cfg b next target) :=
  (sameButEdges_replaceIn cfg next b none).trans
    ((sameButEdges_setOut _ b _).trans (sameButEdges_link _ b target))

theorem edges_threadBr (consistent : Consistent cfg) {next target : BBRef} (single : cfg.outBb b = [next]) :
    Edges (threadBrEdges cfg b next target) fun x c => if x = b then c = target else c ∈ cfg.outBb x := by
  have edges := consistent.edges
  have fewer := mem_replaceLoop_none b (edges.inNodup next)
  have outBefore : ∀ x, (replaceOutBlock (replaceInBlock cfg next b none) b next (some target)).outBb x
      = if x = b then [target] else cfg.outBb x := by
    intro x
    have here : (replaceInBlock cfg next b none).outBb b = [next] := by
      rw [replaceInBlock, outBb_setIn, single]
    rw [replaceOutBlock, here, outBb_setOut]
    split
    · simp [replaceLoop]
    · rw [replaceInBlock, outBb_setIn]
  have inBefore : ∀ x, (replaceOutBlock (replaceInBlock cfg next b none) b next (some target)).inBb x
      = if x = next then replaceLoop b none (cfg.inBb next).length 0 (cfg.inBb next) else cfg.inBb x := by
    intro x
    rw [replaceOutBlock, inBb_setOut, replaceInBlock, inBb_setIn]
  have inNodup : ∀ x, ((replaceOutBlock (replaceInBlock cfg next b none) b next (some target)).inBb x).Nodup := by
    intro x
    rw [inBefore]
    split
    · exact fewer.1
    · exact edges.inNodup x
  have inMem : ∀ x c, x ∈ (replaceOutBlock (replaceInBlock cfg next b none) b next (some target)).inBb c
      ↔ c ∈ cfg.outBb x ∧ x ≠ b := by
    intro x c
    rw [inBefore]
    split
    · next isNext =>
        rw [fewer.2, edges.inIff, isNext]
    · next other =>
        rw [edges.inIff]
        constructor
        · intro inOut
          refine ⟨inOut, fun same => other ?_⟩
          rw [same, single, mem_singleton] at inOut
          exact inOut
        · exact And.left
  constructor
  · intro x c
    rw [threadBrEdges, outBb_link, outBefore, outBefore]
    by_cases same : x = b
    · simp [same]
    · simp [same]
  · intro x c
    rw [threadBrEdges, inBb_link]
    grind
  · intro x
    rw [threadBrEdges, outBb_link, outBefore, outBefore]
    by_cases same : x = b
    · simp [same]
    · simp only [same, false_and, if_false]
      exact edges.outNodup x
  · intro x
    rw [threadBrEdges, inBb_link]
    split
    · next fresh =>
        apply nodup_append.2
        refine ⟨inNodup target, nodup_singleton b, ?_⟩
        intro y inIn z isB same
        rw [same, mem_singleton.1 isB] at inIn
        exact fresh.2 inIn
    · exact inNodup x

theorem preserves_threadBr (consistent : Consistent cfg) {next target : BBRef} (inChain : b ∈ cfg.chain)
    (one : (cfg.outBb b).length = 1) (isLast : cfg.lastIns b = some (.br next))
    (isBranch : branchOf cfg next = some target) :
    Preserves cfg ((threadBrEdges cfg b next target).setLast b (.br target)) := by
  have ok := consistent.block inChain
  have notExit := notExit_of_branch consistent isLast rfl
  -- The exit does not start with a branch.
  have nextNotExit : next ≠ cfg.bbExit := by
    intro isExit
    obtain ⟨ins, inCode, branches⟩ := branch_of_branchOf isBranch
    have plain := (consistent.exitPlain ins (isExit ▸ inCode)).1
    rw [branches] at plain
    cases plain
  have reached : cfg.endReached b := by
    apply ok.endReached isLast rfl
    intro same
    exact nextNotExit (Ins.br.inj same)
  have inOut : next ∈ cfg.outBb b := by
    rw [ok.successors reached, successors_br isLast]
    exact mem_singleton.2 rfl
  have single : cfg.outBb b = [next] := by
    obtain ⟨out, isOut⟩ := length_eq_one_iff.1 one
    rw [isOut, mem_singleton] at inOut
    rw [isOut, inOut]
  have nextChain := (consistent.inChain b next inOut).2
  obtain ⟨nextReached, nextLast, nextOut⟩ := out_of_branchOf consistent nextChain isBranch
  obtain ⟨changes, code⟩ := changes_setLast (.br target) (sameButEdges_threadBr cfg b next target)
    (SameButEdges.refl _) inChain notExit (edges_setLast (edges_threadBr consistent single) _)
    (fun x other c => by rw [if_neg other]) (by
      intro c isTarget
      rw [if_pos rfl] at isTarget
      exact isTarget ▸ (consistent.inChain next target nextOut).2)
  have last := lastIns_concat code
  have reached' := endReached_setLast reached code rfl
  have ok' : BlockOk ((threadBrEdges cfg b next target).setLast b (.br target)) b := by
    apply blockOk_setLast ok reached code rfl (changes.hasJumpTable b)
    · intro c
      rw [successors_br last, changes.edges.outIff, if_pos rfl, mem_singleton]
    · intro isNop
      cases isNop
  apply changes.preserves consistent ok'
  intro σ m state
  have nextCode := code_of_branchOf consistent nextChain isBranch
  apply pieces_two (c := next)
  · exact nextBlock_br m _ reached isLast
  · rw [perform_setLast m state isLast rfl code rfl, nextCode, perform_concat m _ state rfl]
  · rw [nextBlock_br m _ reached' last, nextBlock_br m _ nextReached nextLast]
  · intro d goes
    exact changes.chain ▸ (consistent.inChain next d (nextBlock_mem m _ (consistent.block nextChain) goes)).2

theorem preserves_decided (consistent : Consistent cfg) {op : CondOp} {trueBb falseBb : BBRef} {taken : Bool}
    (inChain : b ∈ cfg.chain) (two : (cfg.outBb b).length = 2)
    (isLast : cfg.lastIns b = some (.condBranch op trueBb falseBb (some taken))) :
    Preserves cfg (monoUnlinkBblock (cfg.setLast b (.br (if taken then trueBb else falseBb))) b
      (if taken then falseBb else trueBb)) := by
  obtain ⟨notExit, reached, edges⟩ := condBranch_edges consistent inChain isLast
  -- With two edges the targets differ.
  have differ : trueBb ≠ falseBb := by
    intro same
    have all : ∀ c ∈ cfg.outBb b, c = trueBb := by
      intro c inOut
      rcases (edges c).1 inOut with isTrue | isFalse
      · exact isTrue
      · exact isFalse.trans same.symm
    have nodup := consistent.edges.outNodup b
    rw [eq_replicate_of_mem all, two] at nodup
    simp at nodup
  obtain ⟨changes, code⟩ := changes_setLast (.br (if taken then trueBb else falseBb)) (SameButEdges.refl cfg)
    (sameButEdges_unlink _ b (if taken then falseBb else trueBb)) inChain notExit
    (edges_unlink (edges_setLast consistent.edges _) b _)
    (fun x other c => by simp [other]) fun c inOut => (consistent.inChain b c inOut.1).2
  have last := lastIns_concat code
  apply changes.preserves_last consistent reached isLast rfl code rfl
  · intro c
    rw [successors_br last, edges]
    cases taken <;> simp <;> grind
  · nofun
  · intro σ m state
    rw [nextBlock_br m _ (endReached_setLast reached code rfl) last, nextBlock_condBranch m _ reached isLast,
      Option.getD_some]

/-- A target is kept, or replaced with where it branches to. -/
def Threads (cfg : Cfg) (target target' : BBRef) : Prop :=
  target' = target ∨ branchOf cfg target = some target'

theorem preserves_retarget (consistent : Consistent cfg) {op : CondOp} {trueBb falseBb newTrue newFalse : BBRef}
    (inChain : b ∈ cfg.chain) (isLast : cfg.lastIns b = some (.condBranch op trueBb falseBb none))
    (threadsTrue : Threads cfg trueBb newTrue) (threadsFalse : Threads cfg falseBb newFalse) :
    Preserves cfg (retarget cfg b op none trueBb falseBb newTrue newFalse) := by
  obtain ⟨notExit, reached, edges⟩ := condBranch_edges consistent inChain isLast
  have trueChain := (consistent.inChain b trueBb ((edges trueBb).2 (.inl rfl))).2
  have falseChain := (consistent.inChain b falseBb ((edges falseBb).2 (.inr rfl))).2
  -- A new target is an edge of the old one.
  have threadChain : ∀ target target', target ∈ cfg.chain → Threads cfg target target' → target' ∈ cfg.chain := by
    intro target target' isIn threads
    rcases threads with same | isBranch
    · exact same ▸ isIn
    · exact (consistent.inChain target target' (out_of_branchOf consistent isIn isBranch).2.2).2
  have built := changes_setLast (.condBranch op newTrue newFalse none)
    ((sameButEdges_unlink cfg b trueBb).trans (sameButEdges_unlink _ b falseBb))
    ((sameButEdges_link _ b newTrue).trans (sameButEdges_link _ b newFalse)) inChain notExit
    (edges_link (edges_link (edges_setLast (edges_unlink (edges_unlink consistent.edges b trueBb) b falseBb) _)
      b newTrue) b newFalse)
    (fun x other c => by simp [other]) (by
      intro c isEdge
      rcases isEdge with (⟨⟨inOut, -⟩, -⟩ | ⟨-, isTrue⟩) | ⟨-, isFalse⟩
      · exact (consistent.inChain b c inOut).2
      · exact isTrue ▸ threadChain trueBb newTrue trueChain threadsTrue
      · exact isFalse ▸ threadChain falseBb newFalse falseChain threadsFalse)
  have changes : Changes cfg (retarget cfg b op none trueBb falseBb newTrue newFalse) b _ := built.1
  have code : (retarget cfg b op none trueBb falseBb newTrue newFalse).code b = _ := built.2
  have last := lastIns_concat code
  have reached' := endReached_setLast reached code rfl
  have ok' : BlockOk (retarget cfg b op none trueBb falseBb newTrue newFalse) b := by
    apply blockOk_setLast (consistent.block inChain) reached code rfl (changes.hasJumpTable b)
    · intro c
      rw [successors_condBranch last, changes.edges.outIff, edges]
      grind
    · intro isNop
      cases isNop
  apply changes.preserves consistent ok'
  intro σ m state
  -- The branch goes to one of its targets, which is kept or passed on.
  have goesTo : ∀ target target', target ∈ cfg.chain → Threads cfg target target' →
      nextBlock m cfg b (perform m (cfg.code b) state).2 = some target →
      nextBlock m (retarget cfg b op none trueBb falseBb newTrue newFalse) b (perform m (cfg.code b) state).2
        = some target' →
      System.Pieces (blockSystem m cfg) (blockSystem m (retarget cfg b op none trueBb falseBb newTrue newFalse))
        (fun s t => s = t ∧ s.1 ∈ (retarget cfg b op none trueBb falseBb newTrue newFalse).chain)
        (b, state) (b, state) := by
    intro target target' isIn threads goes goes'
    have same := perform_setLast m state isLast rfl code rfl
    rcases threads with kept | isBranch
    · apply pieces_same same
      · rw [goes, goes', kept]
      · intro c isNext
        rw [goes] at isNext
        exact changes.chain ▸ Option.some.inj isNext ▸ isIn
    · have targetCode := code_of_branchOf consistent isIn isBranch
      obtain ⟨targetReached, targetLast, -⟩ := out_of_branchOf consistent isIn isBranch
      apply pieces_two goes
      · rw [targetCode, perform_concat m _ state rfl]
        exact same
      · rw [targetCode, perform_concat m _ state rfl, goes', nextBlock_br m _ targetReached targetLast]
      · intro d isNext
        exact changes.chain ▸ (consistent.inChain target d (nextBlock_mem m _ (consistent.block isIn) isNext)).2
  by_cases holds : op.holds (m.compared (perform m (cfg.code b) state).2) = true
  · apply goesTo trueBb newTrue trueChain threadsTrue
    · rw [nextBlock_condBranch m _ reached isLast]
      simp [holds]
    · rw [nextBlock_condBranch m _ reached' last]
      simp [holds]
  · apply goesTo falseBb newFalse falseChain threadsFalse
    · rw [nextBlock_condBranch m _ reached isLast]
      simp [holds]
    · rw [nextBlock_condBranch m _ reached' last]
      simp [holds]

end Thread

/-! ### The reversed branch -/

theorem holds_reverse {w : Nat} (left right : BitVec w) (test : CondTest) :
    test.reverse.holds left right = !test.holds left right := by
  cases test <;>
    simp only [CondTest.holds, CondTest.reverse, BitVec.sle, BitVec.slt, BitVec.ule, BitVec.ult, ne_eq,
      decide_not, Bool.not_not] <;>
    grind

theorem holds_monoReverseBranchOp {op : CondOp} (notFloat : op.kind ≠ .float) (compared : Compared) :
    (monoReverseBranchOp op).holds compared = !op.holds compared := by
  unfold CondOp.holds monoReverseBranchOp
  cases kind : op.kind with
  | int | long => exact holds_reverse _ _ _
  | float => exact absurd kind notFloat

theorem preserves_reverse {cfg : Cfg} {b : BBRef} (consistent : Consistent cfg) {op : CondOp}
    {trueBb falseBb : BBRef} (inChain : b ∈ cfg.chain)
    (isLast : cfg.lastIns b = some (.condBranch op trueBb falseBb none)) (notFloat : op.kind ≠ .float) :
    Preserves cfg (cfg.setLast b (.condBranch (monoReverseBranchOp op) falseBb trueBb none)) := by
  obtain ⟨notExit, reached, edges⟩ := condBranch_edges consistent inChain isLast
  obtain ⟨changes, code⟩ := changes_setLast
    (.condBranch (monoReverseBranchOp op) falseBb trueBb none) (SameButEdges.refl cfg)
    (SameButEdges.refl _) inChain notExit (edges_setLast consistent.edges _) (fun _ _ _ => Iff.rfl)
    fun c inOut => (consistent.inChain b c inOut).2
  have last := lastIns_concat code
  apply changes.preserves_last consistent reached isLast rfl code rfl
  · intro c
    rw [successors_condBranch last, edges]
    simp only [mem_cons, not_mem_nil, or_false]
    exact or_comm
  · nofun
  · intro σ m state
    rw [nextBlock_condBranch m _ (endReached_setLast reached code rfl) last, nextBlock_condBranch m _ reached isLast]
    simp only [Option.getD_none, holds_monoReverseBranchOp notFloat]
    cases op.holds (m.compared state) <;> simp

end MonoRuntime.BranchOpts
