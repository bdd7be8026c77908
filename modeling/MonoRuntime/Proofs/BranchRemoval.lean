/-
Module: MonoRuntime.Proofs.BranchRemoval
Purpose: The rewrites of the branch optimisations that take a block out of the chain leave a consistent graph with
  the same runs: a block that no block leads to, one that does nothing, and one that is merged.
Trusted boundary: none
Main exports: preserves_nullifyBlock
-/
import MonoRuntime.Proofs.BranchRewrites

namespace MonoRuntime.BranchOpts

open List Option

/-! ### Blocks that leave the chain -/

section Leave

variable {cfg : Cfg} {b : BBRef}

theorem mem_erase_chain (consistent : Consistent cfg) (n x : BBRef) : x ∈ cfg.chain.erase n ↔ x ≠ n ∧ x ∈ cfg.chain :=
  consistent.chainNodup.mem_erase_iff

variable {n : BBRef} {edge : BBRef → BBRef → Prop}

theorem head_erase (consistent : Consistent cfg) (notEntry : n ≠ cfg.bbEntry) :
    (cfg.chain.erase n).head? = some cfg.bbEntry := by
  have first := consistent.entryFirst
  cases chain : cfg.chain with
  | nil =>
    rw [chain] at first
    cases first
  | cons a rest =>
    rw [chain] at first
    have isEntry : a = cfg.bbEntry := Option.some.inj first
    rw [erase_cons_tail (by simpa [isEntry] using Ne.symm notEntry), isEntry]
    rfl

theorem next_erase (consistent : Consistent cfg) {x : BBRef} (other : x ≠ n) : (afterIn (cfg.chain.erase n) x).head? =
      if cfg.nextBb x = some n then cfg.nextBb n else cfg.nextBb x := by
  rw [afterIn_erase consistent.chainNodup other, Cfg.nextBb, Cfg.nextBb]
  cases after : afterIn cfg.chain x with
  | nil => rfl
  | cons c rest =>
    by_cases same : c = n
    · subst same
      rw [erase_cons_head, afterIn_next consistent.chainNodup after]
      simp
    · rw [erase_cons_tail (by simpa using same)]
      simp [same]

theorem next_mem (consistent : Consistent cfg) (isNext : cfg.nextBb b = some n) :
    n ∈ cfg.chain ∧ n ≠ cfg.bbEntry ∧ n ≠ b := by
  have after : n ∈ afterIn cfg.chain b := mem_of_mem_head? isNext
  refine ⟨mem_of_mem_afterIn after, ?_, ?_⟩
  · intro isEntry
    exact next_ne_head consistent.chainNodup isNext (isEntry ▸ consistent.entryFirst)
  · intro same
    exact not_mem_afterIn consistent.chainNodup (same ▸ after)

theorem out_of_fallsThrough (ok : BlockOk cfg b) (falls : cfg.fallsThrough b) (c : BBRef) :
    c ∈ cfg.outBb b ↔ cfg.nextBb b = some c := by
  rw [ok.successors falls.2.1, successors_plain falls.2.2, if_neg falls.1, mem_toList]

theorem out_exit (consistent : Consistent cfg) (c : BBRef) : c ∉ cfg.outBb cfg.bbExit := by
  intro inOut
  have ok := consistent.block (consistent.inChain _ c inOut).1
  have plain : ∀ last, cfg.lastIns cfg.bbExit = some last → last.isBranchOp = false :=
    fun last isLast => (consistent.exitPlain last (mem_of_getLast? isLast)).1
  rw [ok.successors (exit_reached consistent), successors_plain plain, if_pos rfl] at inOut
  cases inOut

theorem fold_replaceIn (n : BBRef) (targets : List BBRef) : ∀ cfg : Cfg, (∀ c, (cfg.inBb c).Nodup) →
      SameButEdges cfg (targets.foldl (fun cfg c => replaceInBlock cfg c n none) cfg) ∧
      (∀ x, (targets.foldl (fun cfg c => replaceInBlock cfg c n none) cfg).outBb x = cfg.outBb x) ∧
      (∀ c, ((targets.foldl (fun cfg c => replaceInBlock cfg c n none) cfg).inBb c).Nodup) ∧
      ∀ x c, x ∈ (targets.foldl (fun cfg c => replaceInBlock cfg c n none) cfg).inBb c ↔
        x ∈ cfg.inBb c ∧ ¬ (c ∈ targets ∧ x = n) := by
  induction targets with
  | nil =>
    intro cfg nodup
    refine ⟨SameButEdges.refl cfg, fun _ => rfl, nodup, ?_⟩
    simp
  | cons t targets ih =>
    intro cfg nodup
    have fewer := mem_replaceLoop_none n (nodup t)
    have inHere : ∀ c, (replaceInBlock cfg t n none).inBb c
        = if c = t then replaceLoop n none (cfg.inBb t).length 0 (cfg.inBb t) else cfg.inBb c :=
      fun c => inBb_setIn cfg t c _
    obtain ⟨frame, out, nodup', members⟩ := ih (replaceInBlock cfg t n none) (by
      intro c
      rw [inHere]
      split
      · exact fewer.1
      · exact nodup c)
    refine ⟨(sameButEdges_replaceIn cfg t n none).trans frame, ?_, nodup', ?_⟩
    · intro x
      rw [foldl_cons, out]
      exact outBb_setIn cfg t x _
    · intro x c
      rw [foldl_cons, members, inHere]
      split
      · next same =>
          rw [fewer.2, same]
          simp only [mem_cons, true_or, true_and]
          grind
      · next other =>
          simp only [mem_cons, other, false_or]

section Nullify

variable (cfg : Cfg) (n x : BBRef)

theorem code_nullify : (monoNullifyBasicBlock cfg n).code x = if x = n then [] else cfg.code x := by
  by_cases same : x = n <;> simp [monoNullifyBasicBlock, Cfg.update, Cfg.code, Function.update, same]

theorem outBb_nullify : (monoNullifyBasicBlock cfg n).outBb x = if x = n then [] else cfg.outBb x := by
  by_cases same : x = n <;> simp [monoNullifyBasicBlock, Cfg.update, Cfg.outBb, Function.update, same]

theorem inBb_nullify : (monoNullifyBasicBlock cfg n).inBb x = if x = n then [] else cfg.inBb x := by
  by_cases same : x = n <;> simp [monoNullifyBasicBlock, Cfg.update, Cfg.inBb, Function.update, same]

theorem flags_nullify : ((monoNullifyBasicBlock cfg n).bb x).outOfLine = (cfg.bb x).outOfLine ∧
      ((monoNullifyBasicBlock cfg n).bb x).hasJumpTable = (cfg.bb x).hasJumpTable := by
  by_cases same : x = n <;> simp [monoNullifyBasicBlock, Cfg.update, Function.update, same]

end Nullify

theorem edges_nullify (edges : Edges cfg edge) (n : BBRef) (noEdge : ∀ x, x ≠ n → ¬ edge x n ∧ ¬ edge n x) :
    Edges (monoNullifyBasicBlock cfg n) fun x c => edge x c ∧ x ≠ n ∧ c ≠ n where
  outIff x c := by
    rw [outBb_nullify]
    split
    · next same => simp [same]
    · next other =>
        rw [edges.outIff]
        exact ⟨fun isEdge => ⟨isEdge, other, fun same => (noEdge x other).1 (same ▸ isEdge)⟩, And.left⟩
  inIff x c := by
    rw [inBb_nullify]
    split
    · next same => simp [same]
    · next other =>
        rw [edges.inIff]
        exact ⟨fun isEdge => ⟨isEdge, fun same => (noEdge c other).2 (same ▸ isEdge), other⟩, And.left⟩
  outNodup x := by
    rw [outBb_nullify]
    split
    · exact nodup_nil
    · exact edges.outNodup x
  inNodup x := by
    rw [inBb_nullify]
    split
    · exact nodup_nil
    · exact edges.inNodup x

/-- Two graphs of which the second lacks a block. -/
structure Leaves (cfg cfg' : Cfg) (n : BBRef) (edge : BBRef → BBRef → Prop) : Prop where
  notEntry : n ≠ cfg.bbEntry
  chain : cfg'.chain = cfg.chain.erase n
  bbEntry : cfg'.bbEntry = cfg.bbEntry
  bbExit : cfg'.bbExit = cfg.bbExit
  outOfLine : ∀ x, (cfg'.bb x).outOfLine = (cfg.bb x).outOfLine
  exitCode : cfg'.code cfg.bbExit = cfg.code cfg.bbExit
  edges : Edges cfg' edge
  inChain : ∀ x c, edge x c → x ∈ cfg.chain ∧ c ∈ cfg.chain
  apart : ∀ x c, edge x c → x ≠ n ∧ c ≠ n

theorem Leaves.next {cfg' : Cfg} (consistent : Consistent cfg)
    (leaves : Leaves cfg cfg' n edge) {x : BBRef} (other : x ≠ n) :
    cfg'.nextBb x = if cfg.nextBb x = some n then cfg.nextBb n else cfg.nextBb x := by
  rw [Cfg.nextBb, leaves.chain, next_erase consistent other]

theorem Leaves.preserves {cfg' : Cfg} (consistent : Consistent cfg) (leaves : Leaves cfg cfg' n edge)
    (blocks : ∀ x ∈ cfg.chain, x ≠ n → BlockOk cfg' x)
    (pieces : ∀ (σ : Type) (m : Machine σ) (state : σ), ∀ x ∈ cfg.chain, x ≠ n →
      System.Pieces (blockSystem m cfg) (blockSystem m cfg') (fun s t => s = t ∧ s.1 ∈ cfg'.chain)
        (x, state) (x, state)) : Preserves cfg cfg' := by
  have members : ∀ x, x ∈ cfg'.chain ↔ x ≠ n ∧ x ∈ cfg.chain := by
    intro x
    rw [leaves.chain, mem_erase_chain consistent]
  apply Preserves.of_blocks consistent
  · exact leaves.chain ▸ consistent.chainNodup.erase n
  · exact leaves.chain ▸ head_erase consistent leaves.notEntry
  · exact leaves.bbEntry
  · exact leaves.bbExit
  · exact leaves.outOfLine
  · exact leaves.exitCode
  · exact leaves.edges
  · intro x c isEdge
    rw [members, members]
    obtain ⟨sourceIn, targetIn⟩ := leaves.inChain x c isEdge
    obtain ⟨source, target⟩ := leaves.apart x c isEdge
    exact ⟨⟨source, sourceIn⟩, target, targetIn⟩
  · intro x inChain
    obtain ⟨other, inChain⟩ := (members x).1 inChain
    exact blocks x inChain other
  · intro σ m state x inChain
    obtain ⟨other, inChain⟩ := (members x).1 inChain
    exact pieces σ m state x inChain other

/-! ### Blocks that no block leads to -/

theorem edges_nullifyBlock (consistent : Consistent cfg) (noIn : cfg.inBb n = []) :
    Edges (nullifyBlock cfg n) fun x c => c ∈ cfg.outBb x ∧ x ≠ n := by
  have edges := consistent.edges
  obtain ⟨-, out, nodup, members⟩ := fold_replaceIn n (cfg.outBb n) (cfg.unchain n) edges.inNodup
  have noEdge : ∀ x, n ∉ cfg.outBb x := by
    intro x inOut
    have inIn := (edges.inIff x n).2 inOut
    rw [noIn] at inIn
    cases inIn
  constructor
  · intro x c
    rw [nullifyBlock, outBb_nullify]
    split
    · next same => simp [same]
    · next other =>
        simp only [other, ne_eq, not_false_eq_true, and_true]
        exact iff_of_eq (congrArg (c ∈ ·) (out x))
  · intro x c
    rw [nullifyBlock, inBb_nullify]
    split
    · next same =>
        constructor
        · intro isIn
          cases isIn
        · rintro ⟨inOut, -⟩
          exact absurd (same ▸ inOut) (noEdge x)
    · next other =>
        apply (members x c).trans
        have inIff := edges.inIff x c
        constructor
        · rintro ⟨isIn, notBoth⟩
          have inOut := inIff.1 isIn
          exact ⟨inOut, fun same => notBoth ⟨same ▸ inOut, same⟩⟩
        · rintro ⟨inOut, notN⟩
          exact ⟨inIff.2 inOut, fun both => notN both.2⟩
  · intro x
    rw [nullifyBlock, outBb_nullify]
    split
    · exact nodup_nil
    · exact (out x).symm ▸ edges.outNodup x
  · intro x
    rw [nullifyBlock, inBb_nullify]
    split
    · exact nodup_nil
    · exact nodup x

theorem preserves_nullifyBlock (consistent : Consistent cfg) (isNext : cfg.nextBb b = some n) (noIn : cfg.inBb n = [])
    (notExit : n ≠ cfg.bbExit) : Preserves cfg (nullifyBlock cfg n) := by
  have edges := edges_nullifyBlock consistent noIn
  obtain ⟨frame, -, -, -⟩ := fold_replaceIn n (cfg.outBb n) (cfg.unchain n) consistent.edges.inNodup
  have noEdge : ∀ x, n ∉ cfg.outBb x := by
    intro x inOut
    have inIn := (consistent.edges.inIff x n).2 inOut
    rw [noIn] at inIn
    cases inIn
  have code : ∀ x, x ≠ n → (nullifyBlock cfg n).code x = cfg.code x := by
    intro x other
    rw [nullifyBlock, code_nullify, if_neg other]
    exact frame.code x
  have leaves : Leaves cfg (nullifyBlock cfg n) n fun x c => c ∈ cfg.outBb x ∧ x ≠ n := by
    constructor
    · exact (next_mem consistent isNext).2.1
    · exact frame.chain
    · exact frame.bbEntry
    · exact frame.bbExit
    · exact fun x => (flags_nullify _ n x).1.trans (frame.outOfLine x)
    · exact code _ (Ne.symm notExit)
    · exact edges
    · exact fun x c isEdge => consistent.inChain x c isEdge.1
    · exact fun x c isEdge => ⟨isEdge.2, fun same => noEdge x (same ▸ isEdge.1)⟩
  -- What falls through to a block leads to it.
  have next : ∀ x, x ∈ cfg.chain → x ≠ n → cfg.fallsThrough x →
      (nullifyBlock cfg n).nextBb x = cfg.nextBb x := by
    intro x inChain other falls
    rw [leaves.next consistent other]
    split
    · next toN =>
        exact absurd ((out_of_fallsThrough (consistent.block inChain) falls n).2 toN) (noEdge x)
    · rfl
  apply leaves.preserves consistent
  · intro x inChain other
    apply (consistent.block inChain).congr (code x other) leaves.bbExit
    · intro c
      rw [edges.outIff]
      simp only [other, ne_eq, not_false_eq_true, and_true]
    · exact (flags_nullify _ n x).2.trans (frame.hasJumpTable x)
    · exact next x inChain other
    · intro _ toExit
      rw [leaves.next consistent other]
      split
      · next toN =>
          rw [toN] at toExit
          exact absurd (Option.some.inj toExit) notExit
      · exact toExit
  · intro σ m state x inChain other
    apply pieces_same
    · rw [code x other]
    · exact nextBlock_congr m _ (code x other) leaves.bbExit (next x inChain other)
    · intro c goes
      have inOut := nextBlock_mem m _ (consistent.block inChain) goes
      rw [leaves.chain, mem_erase_chain consistent]
      exact ⟨fun same => noEdge x (same ▸ inOut), (consistent.inChain x c inOut).2⟩

end Leave

/-! ### Targets that are replaced -/

section Replace

variable {b target : BBRef}

theorem replaceTarget_of_ne {c : BBRef} (other : c ≠ b) : replaceTarget b target c = c :=
  if_neg other

@[simp] theorem replaceTarget_self : replaceTarget b target b = target :=
  if_pos rfl

@[simp] theorem isBranchOp_replace (ins : Ins) : (ins.replace b target).isBranchOp = ins.isBranchOp := by
  cases ins <;> rfl

@[simp] theorem hasTable_replace (ins : Ins) : (ins.replace b target).hasTable = ins.hasTable := by
  cases ins <;> rfl

@[simp] theorem isJumpTable_replace (ins : Ins) : (ins.replace b target).isJumpTable = ins.isJumpTable := by
  cases ins <;> rfl

theorem notReached_mem_replace (code : List Ins) : .notReached ∈ code.map (Ins.replace b target) ↔ .notReached ∈ code := by
  rw [List.mem_map]
  constructor
  · rintro ⟨ins, inCode, isEnd⟩
    cases ins <;> first
      | exact inCode
      | cases isEnd
  · intro inCode
    exact ⟨.notReached, inCode, rfl⟩

theorem perform_replace {σ : Type} (m : Machine σ) (code : List Ins) (state : σ) :
    perform m (code.map (Ins.replace b target)) state = perform m code state := by
  induction code generalizing state with
  | nil => rfl
  | cons ins code ih =>
    cases ins <;> simp only [map_cons, Ins.replace, perform, ih]

/-- Other entries in a table. -/
def replaceTable (b target : BBRef) (table : List (Option BBRef)) : List (Option BBRef) :=
  table.map fun entry => entry.map (replaceTarget b target)

theorem liveTable_replace (code : List Ins) :
    liveTable (code.map (Ins.replace b target)) = replaceTable b target (liveTable code) := by
  induction code with
  | nil => rfl
  | cons ins code ih =>
    have same : (code.map (Ins.replace b target)).any Ins.isJumpTable = code.any Ins.isJumpTable := by
      rw [List.any_map]
      exact congrArg (code.any ·) (funext isJumpTable_replace)
    cases ins with
    | jumpTable table =>
      simp only [map_cons, Ins.replace, liveTable, same]
      split
      · exact ih
      · rfl
    | _ => exact ih

theorem jumpTarget_replace {σ : Type} (m : Machine σ) (table : List (Option BBRef)) (state : σ) :
    jumpTarget m (replaceTable b target table) state = (jumpTarget m table state).map (replaceTarget b target) := by
  simp only [jumpTarget, replaceTable, length_map, getElem?_map]
  cases table[m.index table.length state]? with
  | none | some entry => rfl

theorem mem_replaceTable (table : List (Option BBRef)) (c : BBRef) : c ∈ (replaceTable b target table).filterMap id ↔
      ∃ d ∈ table.filterMap id, replaceTarget b target d = c := by
  simp only [replaceTable, mem_filterMap, List.mem_map, id]
  constructor
  · rintro ⟨entry, ⟨old, inTable, isEntry⟩, isTarget⟩
    subst isEntry
    obtain ⟨d, isOld, same⟩ := map_eq_some_iff.1 isTarget
    exact ⟨d, ⟨old, inTable, isOld⟩, same⟩
  · rintro ⟨d, ⟨old, inTable, isOld⟩, same⟩
    exact ⟨old.map (replaceTarget b target), ⟨old, inTable, rfl⟩, by rw [isOld, map_some, same]⟩

end Replace

/-- The branches of a block have other targets, and it falls through to another target. -/
structure Replaced (cfg cfg' : Cfg) (b target x : BBRef) : Prop where
  code : cfg'.code x = (cfg.code x).map (Ins.replace b target)
  bbExit : cfg'.bbExit = cfg.bbExit
  reached : cfg.endReached x
  next : cfg.fallsThrough x → cfg'.nextBb x = (cfg.nextBb x).map (replaceTarget b target)

section Replaced

variable {cfg cfg' : Cfg} {b target x : BBRef}

theorem Replaced.endReached (replaced : Replaced cfg cfg' b target x) : cfg'.endReached x := by
  rw [Cfg.endReached, replaced.code, notReached_mem_replace]
  exact replaced.reached

theorem Replaced.lastIns (replaced : Replaced cfg cfg' b target x) :
    cfg'.lastIns x = (cfg.lastIns x).map (Ins.replace b target) := by
  rw [Cfg.lastIns, Cfg.lastIns, replaced.code, getLast?_map]

theorem Replaced.plain (replaced : Replaced cfg cfg' b target x)
    (plain : ∀ last, cfg.lastIns x = some last → last.isBranchOp = false) :
    ∀ last, cfg'.lastIns x = some last → last.isBranchOp = false := by
  intro last isLast
  rw [replaced.lastIns, map_eq_some_iff] at isLast
  obtain ⟨old, isOld, same⟩ := isLast
  rw [← same, isBranchOp_replace]
  exact plain old isOld

theorem Replaced.goes (replaced : Replaced cfg cfg' b target x) {σ : Type} (m : Machine σ) (state : σ) :
    nextBlock m cfg' x state = (nextBlock m cfg x state).map (replaceTarget b target) := by
  have reached := replaced.reached
  have last := replaced.lastIns
  rcases branch_or_plain cfg x with ⟨ins, isLast, isBranch⟩ | plain
  · rw [isLast, map_some] at last
    cases ins with
    | br next => rw [nextBlock_br m state replaced.endReached last, nextBlock_br m state reached isLast]; rfl
    | condBranch op trueBb falseBb cfold =>
      rw [nextBlock_condBranch m state replaced.endReached last, nextBlock_condBranch m state reached isLast]
      simp only [map_some, Option.some.injEq]
      split <;> rfl
    | switch table =>
      rw [nextBlock, nextBlock, if_neg replaced.endReached, last, if_neg reached, isLast]
      exact jumpTarget_replace m table state
    | brReg =>
      rw [nextBlock, nextBlock, if_neg replaced.endReached, last, if_neg reached, isLast, replaced.code,
        liveTable_replace]
      exact jumpTarget_replace m _ state
    | _ => cases isBranch
  · rw [nextBlock_plain m state replaced.endReached (replaced.plain plain), nextBlock_plain m state reached plain,
      replaced.bbExit]
    split
    · rfl
    · next other => exact replaced.next ⟨other, reached, plain⟩

theorem Replaced.successors (replaced : Replaced cfg cfg' b target x) (c : BBRef) :
    c ∈ cfg'.successors x ↔ ∃ d ∈ cfg.successors x, replaceTarget b target d = c := by
  have last := replaced.lastIns
  rcases branch_or_plain cfg x with ⟨ins, isLast, isBranch⟩ | plain
  · rw [isLast, map_some] at last
    cases ins with
    | br next =>
      rw [successors_br isLast, successors_br last]
      simp [eq_comm]
    | condBranch op trueBb falseBb cfold =>
      rw [successors_condBranch isLast, successors_condBranch last]
      simp [eq_comm]
    | switch table =>
      rw [Cfg.successors, last, Cfg.successors, isLast]
      exact mem_replaceTable table c
    | brReg =>
      rw [Cfg.successors, last, Cfg.successors, isLast, replaced.code, liveTable_replace]
      exact mem_replaceTable _ c
    | _ => cases isBranch
  · rw [successors_plain (replaced.plain plain), successors_plain plain, replaced.bbExit]
    split
    · simp
    · next other =>
        rw [replaced.next ⟨other, replaced.reached, plain⟩]
        cases cfg.nextBb x <;> simp [eq_comm]

theorem Replaced.table (replaced : Replaced cfg cfg' b target x) :
    cfg'.table x = (cfg.table x).map (replaceTable b target) := by
  rw [Cfg.table, Cfg.table, replaced.lastIns, replaced.code, liveTable_replace]
  cases isLast : cfg.lastIns x with
  | none => rfl
  | some ins => cases ins <;> rfl

theorem Replaced.blockOk (replaced : Replaced cfg cfg' b target x) (ok : BlockOk cfg x)
    (flag : (cfg'.bb x).hasJumpTable = (cfg.bb x).hasJumpTable)
    (out : ∀ c, c ∈ cfg'.outBb x ↔ ∃ d ∈ cfg.outBb x, replaceTarget b target d = c) : BlockOk cfg' x where
  successors _ c := by
    rw [out, replaced.successors]
    simp only [ok.successors replaced.reached]
  deadEnd dead := absurd replaced.endReached dead
  atEnd := by
    rw [replaced.code, ← map_dropLast]
    intro ins inCode
    obtain ⟨old, inOld, same⟩ := List.mem_map.1 inCode
    rw [← same, isBranchOp_replace]
    exact ok.atEnd old inOld
  hasNext falls := by
    have fallsOld : cfg.fallsThrough x := by
      refine ⟨replaced.bbExit ▸ falls.1, replaced.reached, ?_⟩
      intro last isLast
      have plain := falls.2.2 (last.replace b target) (by rw [replaced.lastIns, isLast, map_some])
      rw [isBranchOp_replace] at plain
      exact plain
    rw [replaced.next fallsOld, isSome_map]
    exact ok.hasNext fallsOld
  tableFilled table isTable := by
    rw [replaced.table, map_eq_some_iff] at isTable
    obtain ⟨old, isOld, same⟩ := isTable
    obtain ⟨notNil, filled⟩ := ok.tableFilled old isOld
    subst same
    constructor
    · simp only [replaceTable, ne_eq, map_eq_nil_iff]
      exact notNil
    · intro entry inTable
      obtain ⟨oldEntry, inOld, same⟩ := List.mem_map.1 inTable
      rw [← same, isSome_map]
      exact filled oldEntry inOld
  tableFlag ins inCode hasTable := by
    rw [replaced.code] at inCode
    obtain ⟨old, inOld, same⟩ := List.mem_map.1 inCode
    rw [← same, hasTable_replace] at hasTable
    rw [flag]
    exact ok.tableFlag old inOld hasTable

end Replaced

/-! ### Blocks that do nothing -/

/-- A block that does nothing but go to another one. -/
structure Useless (cfg : Cfg) (b target : BBRef) : Prop where
  inChain : b ∈ cfg.chain
  out : ∀ c, c ∈ cfg.outBb b ↔ c = target
  reached : cfg.endReached b
  nothing : ∀ (σ : Type) (m : Machine σ) (state : σ), perform m (cfg.code b) state = ([], state)

section Useless

variable {cfg : Cfg} {b target : BBRef}

theorem uselessTarget_spec {code : List Ins} {first found : Option BBRef}
    (isUseless : uselessTarget first code = some found) : (∀ ins ∈ code, ins = .nop ∨ ∃ target, ins = .br target) ∧
      ((found = first ∧ ∀ ins ∈ code, ins = .nop) ∨ ∃ target, .br target ∈ code ∧ found = some target) := by
  induction code generalizing first with
  | nil =>
    have same : first = found := Option.some.inj isUseless
    exact ⟨fun ins inCode => (nomatch inCode), .inl ⟨same.symm, fun ins inCode => (nomatch inCode)⟩⟩
  | cons ins code ih =>
    cases ins with
    | nop =>
      obtain ⟨plain, nops | ⟨target, inCode, isFound⟩⟩ := ih isUseless
      · refine ⟨forall_mem_cons.2 ⟨.inl rfl, plain⟩, .inl ⟨nops.1, forall_mem_cons.2 ⟨rfl, nops.2⟩⟩⟩
      · refine ⟨forall_mem_cons.2 ⟨.inl rfl, plain⟩, .inr ⟨target, mem_cons_of_mem _ inCode, isFound⟩⟩
    | br next =>
      obtain ⟨plain, nops | ⟨target, inCode, isFound⟩⟩ := ih isUseless
      · refine ⟨forall_mem_cons.2 ⟨.inr ⟨next, rfl⟩, plain⟩, .inr ⟨next, mem_cons_self, nops.1⟩⟩
      · refine ⟨forall_mem_cons.2 ⟨.inr ⟨next, rfl⟩, plain⟩,
          .inr ⟨target, mem_cons_of_mem _ inCode, isFound⟩⟩
    | _ => cases isUseless

theorem perform_nothing {σ : Type} (m : Machine σ) {code : List Ins} (state : σ)
    (plain : ∀ ins ∈ code, ins = .nop ∨ ∃ target, ins = .br target) : perform m code state = ([], state) := by
  induction code with
  | nil => rfl
  | cons ins code ih =>
    obtain ⟨isPlain, rest⟩ := forall_mem_cons.1 plain
    rcases isPlain with isNop | ⟨next, isBr⟩
    · rw [isNop]
      exact ih rest
    · rw [isBr]
      exact ih rest

theorem useless_of_usefulTarget (consistent : Consistent cfg) (inChain : b ∈ cfg.chain) {found : Option BBRef}
    (isUseless : uselessTarget none (cfg.code b) = some found) (useful : usefulTarget cfg b found = some target) :
    Useless cfg b target := by
  have ok := consistent.block inChain
  obtain ⟨plain, kind⟩ := uselessTarget_spec isUseless
  have reached : cfg.endReached b := by
    intro inCode
    rcases plain _ inCode with isNop | ⟨next, isBr⟩
    · cases isNop
    · cases isBr
  refine ⟨inChain, ?_, reached, fun σ m state => perform_nothing m state plain⟩
  rcases kind with ⟨isNone, -⟩ | ⟨next, inCode, isFound⟩
  · -- The block falls through to its only successor.
    subst isNone
    unfold usefulTarget at useful
    simp only at useful
    split at useful
    · next single =>
        obtain ⟨out, isOut⟩ := length_eq_one_iff.1 single.1
        have isTarget : out = target := by
          have toNext := single.2
          rw [isOut, useful] at toNext
          exact Option.some.inj toNext
        intro c
        rw [isOut, mem_singleton, isTarget]
    · cases useful
  · -- The branch is the last instruction.
    subst isFound
    have isTarget : next = target := Option.some.inj useful
    have last : cfg.lastIns b = some (.br target) := by
      have atEnd : ∀ ins ∈ (cfg.code b).dropLast, ins.isBranchOp = false := ok.atEnd
      cases isLast : cfg.lastIns b with
      | none =>
        rw [Cfg.lastIns, getLast?_eq_none_iff] at isLast
        rw [isLast] at inCode
        cases inCode
      | some last =>
        rw [code_of_lastIns isLast, mem_append, mem_singleton] at inCode
        rcases inCode with inFront | same
        · cases atEnd _ inFront
        · rw [← same, isTarget]
    intro c
    rw [ok.successors reached, successors_br last, mem_singleton]

theorem Useless.notExit (useless : Useless cfg b target) (consistent : Consistent cfg) : b ≠ cfg.bbExit := by
  intro isExit
  exact out_exit consistent target (isExit ▸ (useless.out target).2 rfl)

theorem Useless.goes (useless : Useless cfg b target) (consistent : Consistent cfg) {σ : Type} (m : Machine σ)
    (state : σ) : nextBlock m cfg b state = some target :=
  nextBlock_single m state (consistent.block useless.inChain) useless.reached useless.out

/-! ### The edges into a useless block -/

/-- The edges from some blocks to a block go to another one. -/
structure Redirected (cfg cfg' : Cfg) (b target : BBRef) (sources : List BBRef) (edge : BBRef → BBRef → Prop) :
    Prop where
  chain : cfg'.chain = cfg.chain
  bbEntry : cfg'.bbEntry = cfg.bbEntry
  bbExit : cfg'.bbExit = cfg.bbExit
  outOfLine : ∀ x, (cfg'.bb x).outOfLine = (cfg.bb x).outOfLine
  hasJumpTable : ∀ x, (cfg'.bb x).hasJumpTable = (cfg.bb x).hasJumpTable
  code : ∀ x, cfg'.code x = if x ∈ sources then (cfg.code x).map (Ins.replace b target) else cfg.code x
  edges : Edges cfg' fun x c => if x ∈ sources then (edge x c ∧ c ≠ b) ∨ c = target else edge x c

theorem redirected_redirect (b target : BBRef) (sources : List BBRef) :
    ∀ (cfg : Cfg) (edge : BBRef → BBRef → Prop), sources.Nodup → Edges cfg edge →
      Redirected cfg (redirect cfg b target sources) b target sources edge := by
  induction sources with
  | nil =>
    intro cfg edge _ edges
    exact ⟨rfl, rfl, rfl, fun _ => rfl, fun _ => rfl, fun _ => by simp [redirect], edges.congr (by simp)⟩
  | cons p sources ih =>
    intro cfg edge nodup edges
    obtain ⟨notIn, nodup⟩ := nodup_cons.1 nodup
    -- One round unlinks, links and changes the code of one block.
    have frame : SameButEdges cfg (monoLinkBblock (monoUnlinkBblock cfg p b) p target) :=
      (sameButEdges_unlink cfg p b).trans (sameButEdges_link _ p target)
    have linked := edges_link (edges_unlink edges p b) p target
    have round : Edges (replaceOutBlockInCode (monoLinkBblock (monoUnlinkBblock cfg p b) p target) p b target) _ :=
      linked.of_same (fun x => outBb_setCode _ p x _) fun x => inBb_setCode _ p x _
    have rest := ih _ _ nodup round
    constructor
    · exact rest.chain.trans frame.chain
    · exact rest.bbEntry.trans frame.bbEntry
    · exact rest.bbExit.trans frame.bbExit
    · intro x
      exact (rest.outOfLine x).trans ((outOfLine_setCode _ p x _).trans (frame.outOfLine x))
    · intro x
      exact (rest.hasJumpTable x).trans ((hasJumpTable_setCode _ p x _).trans (frame.hasJumpTable x))
    · intro x
      have roundCode : (replaceOutBlockInCode (monoLinkBblock (monoUnlinkBblock cfg p b) p target) p b
          target).code x = if x = p then (cfg.code p).map (Ins.replace b target) else cfg.code x := by
        rw [replaceOutBlockInCode, code_setCode, frame.code, frame.code]
      apply (rest.code x).trans
      rw [roundCode]
      by_cases same : x = p
      · subst same
        simp [notIn]
      · simp [same]
    · apply rest.edges.congr
      intro x c
      by_cases same : x = p
      · subst same
        simp [notIn]
      · simp [same]

/-! ### The removal of a useless block -/

/-- The branch that the previous block gets. -/
def jumpBehind (cfg : Cfg) (previous target x : BBRef) : List Ins :=
  if x = previous ∧ previous ≠ cfg.bbEntry ∧ monoBbIsFallThrough cfg previous = true ∧
      target ∈ cfg.outBb previous then [.br target]
  else []

/-- The graph of `removeUseless` before the previous block gets its branch. -/
def removeEdges (cfg : Cfg) (b target : BBRef) : Cfg :=
  monoUnlinkBblock (redirect cfg b target (cfg.inBb b)) b target

/-- The branch that the previous block gets in terms of the graph before the removal. -/
def jumpCode (cfg : Cfg) (b previous target x : BBRef) : List Ins :=
  if x = previous ∧ previous ≠ cfg.bbEntry ∧ (cfg.lastIns previous).any Ins.isBranchOp = false ∧
      (b ∈ cfg.outBb previous ∨ target ∈ cfg.outBb previous) then [.br target]
  else []

/-- What the removal leaves. -/
structure Removed (cfg cfg' : Cfg) (b previous target : BBRef) : Prop where
  leaves : Leaves cfg cfg' b fun x c => ∃ d ∈ cfg.outBb x, x ≠ b ∧ replaceTarget b target d = c
  code : ∀ x, x ≠ b → cfg'.code x = (if b ∈ cfg.outBb x then (cfg.code x).map (Ins.replace b target) else cfg.code x)
    ++ jumpCode cfg b previous target x
  hasJumpTable : ∀ x, (cfg'.bb x).hasJumpTable = (cfg.bb x).hasJumpTable

theorem jumpFromPrevious_eq (cfg : Cfg) (previous target : BBRef) : jumpFromPrevious cfg previous target =
      cfg.setCode previous (cfg.code previous ++ jumpBehind cfg previous target previous) := by
  unfold jumpFromPrevious jumpBehind
  by_cases jumps : previous ≠ cfg.bbEntry ∧ monoBbIsFallThrough cfg previous = true ∧ target ∈ cfg.outBb previous
  · rw [if_pos jumps, if_pos ⟨rfl, jumps⟩]
    rfl
  · rw [if_neg jumps, if_neg fun all => jumps all.2, append_nil]
    simp [Cfg.setCode, Cfg.update, Cfg.code]

theorem removed_removeUseless (consistent : Consistent cfg) (useless : Useless cfg b target) {previous : BBRef}
    (isNext : cfg.nextBb previous = some b) (other : target ≠ b) :
    Removed cfg (removeUseless cfg b previous target) b previous target := by
  have edges := consistent.edges
  have inIff : ∀ x, x ∈ cfg.inBb b ↔ b ∈ cfg.outBb x := fun x => edges.inIff x b
  have redirected := redirected_redirect b target (cfg.inBb b) cfg _ (edges.inNodup b) edges
  have notIn : b ∉ cfg.inBb b := by
    rw [inIff, useless.out]
    exact Ne.symm other
  have unlinked := edges_unlink redirected.edges b target
  have frame := sameButEdges_unlink (redirect cfg b target (cfg.inBb b)) b target
  -- The previous block gets its branch, and the block leaves the chain.
  have jumped : Edges ((jumpFromPrevious (removeEdges cfg b target) previous target).unchain b) _ :=
    unlinked.of_same (fun x => by rw [jumpFromPrevious_eq]; exact outBb_setCode _ previous x _)
      fun x => by rw [jumpFromPrevious_eq]; exact inBb_setCode _ previous x _
  have nullified := edges_nullify jumped b (by
    intro x notB
    constructor
    · rintro ⟨isEdge, -⟩
      split at isEdge
      · rcases isEdge with ⟨-, differ⟩ | same
        · exact differ rfl
        · exact other same.symm
      · next notSource => exact notSource ((inIff x).2 isEdge)
    · rintro ⟨isEdge, notTarget⟩
      rw [if_neg notIn, useless.out] at isEdge
      exact notTarget ⟨rfl, isEdge⟩)
  have final : Edges (removeUseless cfg b previous target)
      fun x c => ∃ d ∈ cfg.outBb x, x ≠ b ∧ replaceTarget b target d = c := by
    apply nullified.congr
    intro x c
    by_cases isB : x = b
    · simp [isB]
    · have toReplaced : ∀ d, d ≠ b → replaceTarget b target d = d := fun d => replaceTarget_of_ne
      have toTarget : replaceTarget b target b = target := replaceTarget_self
      simp only [inIff, isB, false_and, not_false_eq_true, and_true, true_and, ne_eq]
      grind
  have code : ∀ x, x ≠ b → (removeUseless cfg b previous target).code x =
      (if b ∈ cfg.outBb x then (cfg.code x).map (Ins.replace b target) else cfg.code x)
        ++ jumpBehind (removeEdges cfg b target) previous target x := by
    intro x notB
    have before : (removeEdges cfg b target).code x =
        if b ∈ cfg.outBb x then (cfg.code x).map (Ins.replace b target) else cfg.code x := by
      rw [removeEdges, frame.code, redirected.code]
      simp only [inIff]
    have after : (removeUseless cfg b previous target).code x =
        (jumpFromPrevious (removeEdges cfg b target) previous target).code x := by
      rw [removeUseless, code_nullify, if_neg notB]
      rfl
    rw [after, jumpFromPrevious_eq, code_setCode, ← before]
    by_cases same : x = previous
    · rw [if_pos same, same]
    · rw [if_neg same, jumpBehind, if_neg fun all => same all.1, append_nil]
  -- The exit leads nowhere, and gets no branch.
  have exitCode : (removeUseless cfg b previous target).code cfg.bbExit = cfg.code cfg.bbExit := by
    have noOut : ∀ c, c ∉ (removeEdges cfg b target).outBb cfg.bbExit := by
      intro c inOut
      rw [removeEdges, unlinked.outIff, if_neg fun isIn => out_exit consistent b ((inIff _).1 isIn)] at inOut
      exact out_exit consistent c inOut.1
    rw [code _ (Ne.symm (useless.notExit consistent)), if_neg (out_exit consistent b), jumpBehind,
      if_neg, append_nil]
    rintro ⟨isPrevious, -, -, inOut⟩
    exact noOut target (isPrevious ▸ inOut)
  have jump : ∀ x, x ≠ b →
      jumpBehind (removeEdges cfg b target) previous target x = jumpCode cfg b previous target x := by
    intro x notB
    unfold jumpBehind jumpCode
    by_cases same : x = previous
    · subst same
      have before : (removeEdges cfg b target).code x =
          if b ∈ cfg.outBb x then (cfg.code x).map (Ins.replace b target) else cfg.code x := by
        rw [removeEdges, frame.code, redirected.code]
        simp only [inIff]
      have sameBranch : ((removeEdges cfg b target).lastIns x).any Ins.isBranchOp
          = (cfg.lastIns x).any Ins.isBranchOp := by
        rw [Cfg.lastIns, before, Cfg.lastIns]
        split
        · rw [getLast?_map, Option.any_map]
          exact congrArg (Option.any · _) (funext isBranchOp_replace)
        · rfl
      have sameNext : (removeEdges cfg b target).nextBb x = some b := by
        rw [Cfg.nextBb, removeEdges, frame.chain, redirected.chain]
        exact isNext
      have sameEntry : (removeEdges cfg b target).bbEntry = cfg.bbEntry := frame.bbEntry.trans redirected.bbEntry
      have sameOut : target ∈ (removeEdges cfg b target).outBb x ↔ b ∈ cfg.outBb x ∨ target ∈ cfg.outBb x := by
        rw [removeEdges, unlinked.outIff]
        simp only [inIff]
        grind
      rw [monoBbIsFallThrough, sameBranch, sameNext, sameEntry]
      simp only [sameOut, isSome_some, Bool.true_and, Bool.not_eq_true', true_and]
    · rw [if_neg fun all => same all.1, if_neg fun all => same all.1]
  constructor
  · constructor
    · exact (next_mem consistent isNext).2.1
    · rw [removeUseless, jumpFromPrevious_eq]
      exact congrArg (·.erase b) (frame.chain.trans redirected.chain)
    · rw [removeUseless, jumpFromPrevious_eq]
      exact frame.bbEntry.trans redirected.bbEntry
    · rw [removeUseless, jumpFromPrevious_eq]
      exact frame.bbExit.trans redirected.bbExit
    · intro x
      rw [removeUseless, jumpFromPrevious_eq]
      exact (flags_nullify _ b x).1.trans ((outOfLine_setCode _ previous x _).trans
        ((frame.outOfLine x).trans (redirected.outOfLine x)))
    · exact exitCode
    · exact final
    · rintro x c ⟨d, inOut, -, same⟩
      refine ⟨(consistent.inChain x d inOut).1, ?_⟩
      unfold replaceTarget at same
      split at same
      · exact same ▸ (consistent.inChain b target ((useless.out target).2 rfl)).2
      · exact same ▸ (consistent.inChain x d inOut).2
    · rintro x c ⟨d, -, notB, same⟩
      refine ⟨notB, ?_⟩
      unfold replaceTarget at same
      split at same
      · exact same ▸ other
      · next differ => exact same ▸ differ
  · intro x notB
    rw [code x notB, jump x notB]
  · intro x
    rw [removeUseless, jumpFromPrevious_eq]
    exact (flags_nullify _ b x).2.trans ((hasJumpTable_setCode _ previous x _).trans
      ((frame.hasJumpTable x).trans (redirected.hasJumpTable x)))

theorem blockOk_br {cfg' : Cfg} {x target : BBRef} {code : List Ins} (isCode : cfg'.code x = code ++ [.br target])
    (plain : ∀ ins ∈ code, ins.isBranchOp = false)
    (flag : ∀ ins ∈ code, ins.hasTable = true → (cfg'.bb x).hasJumpTable = true)
    (reachedOut : .notReached ∉ code → ∀ c, c ∈ cfg'.outBb x ↔ c = target)
    (deadOut : .notReached ∈ code → target = cfg'.bbExit ∧ (∀ c ∈ cfg'.outBb x, c = cfg'.bbExit) ∧
      ∀ ins ∈ deadCode code, ins = .nop ∨ ins = .br cfg'.bbExit) : BlockOk cfg' x := by
  have last := lastIns_concat isCode
  have reachedIff : cfg'.endReached x ↔ .notReached ∉ code := by
    rw [Cfg.endReached, isCode]
    simp
  constructor
  · intro reached c
    rw [successors_br last, mem_singleton]
    exact reachedOut (reachedIff.1 reached) c
  · intro dead
    have isDead : .notReached ∈ code := not_not.1 fun notIn => dead (reachedIff.2 notIn)
    obtain ⟨isExit, out, behind⟩ := deadOut isDead
    constructor
    · exact out
    · rw [isCode, deadCode_append _ isDead]
      intro ins inCode
      rcases mem_append.1 inCode with inFront | isNew
      · exact behind ins inFront
      · exact .inr (isExit ▸ mem_singleton.1 isNew)
    · intro isNop
      rw [last] at isNop
      cases isNop
  · rw [isCode, dropLast_concat]
    exact plain
  · intro falls
    cases falls.2.2 _ last
  · intro table isTable
    rw [Cfg.table, last] at isTable
    cases isTable
  · intro ins inCode hasTable
    rw [isCode] at inCode
    rcases mem_append.1 inCode with inFront | isNew
    · exact flag ins inFront hasTable
    · rw [mem_singleton.1 isNew] at hasTable
      cases hasTable

/-- A block of the graph after a removal: it is well formed, performs what it did and goes where it went, but for
the block that is removed. -/
structure Follows (cfg cfg' : Cfg) (b target x : BBRef) : Prop where
  ok : BlockOk cfg' x
  performs : ∀ (σ : Type) (m : Machine σ) (state : σ), perform m (cfg'.code x) state = perform m (cfg.code x) state
  goes : ∀ (σ : Type) (m : Machine σ) (state : σ),
    nextBlock m cfg' x state = (nextBlock m cfg x state).map (replaceTarget b target)

theorem code_plain (ok : BlockOk cfg b) (plain : (cfg.lastIns b).any Ins.isBranchOp = false) :
    ∀ ins ∈ cfg.code b, ins.isBranchOp = false := by
  intro ins inCode
  cases isLast : cfg.lastIns b with
  | none =>
    rw [Cfg.lastIns, getLast?_eq_none_iff] at isLast
    rw [isLast] at inCode
    cases inCode
  | some last =>
    rw [isLast] at plain
    rw [code_of_lastIns isLast] at inCode
    rcases mem_append.1 inCode with inFront | same
    · exact ok.atEnd ins inFront
    · exact mem_singleton.1 same ▸ plain

theorem lastIns_plain (plain : (cfg.lastIns b).any Ins.isBranchOp = false) :
    ∀ last, cfg.lastIns b = some last → last.isBranchOp = false := by
  intro last isLast
  rw [isLast] at plain
  exact plain

theorem nothing_follows (notIn : b ∉ cfg.outBb x) (ok : BlockOk cfg x) {σ : Type} (m : Machine σ) (state : σ) :
    (nextBlock m cfg x state).map (replaceTarget b target) = nextBlock m cfg x state := by
  cases goes : nextBlock m cfg x state with
  | none => rfl
  | some c =>
    have differ : c ≠ b := fun same => notIn (same ▸ nextBlock_mem m state ok goes)
    rw [map_some, replaceTarget_of_ne differ]

section Removed

variable {cfg' : Cfg} {previous x : BBRef}

theorem Removed.out (removed : Removed cfg cfg' b previous target) (other : x ≠ b) (c : BBRef) :
    c ∈ cfg'.outBb x ↔ ∃ d ∈ cfg.outBb x, replaceTarget b target d = c := by
  rw [removed.leaves.edges.outIff]
  simp only [other, ne_eq, not_false_eq_true, true_and]

theorem Removed.follows_kept (removed : Removed cfg cfg' b previous target) (consistent : Consistent cfg)
    (useless : Useless cfg b target) (isNext : cfg.nextBb previous = some b)
    (atEntry : previous = cfg.bbEntry → cfg.nextBb b = some target) (inChain : x ∈ cfg.chain) (other : x ≠ b)
    (noJump : ¬ (x = previous ∧ previous ≠ cfg.bbEntry ∧ (cfg.lastIns previous).any Ins.isBranchOp = false ∧
      (b ∈ cfg.outBb previous ∨ target ∈ cfg.outBb previous))) : Follows cfg cfg' b target x := by
  have ok := consistent.block inChain
  have next := removed.leaves.next consistent other
  have code := removed.code x other
  rw [jumpCode, if_neg noJump, append_nil] at code
  by_cases toB : b ∈ cfg.outBb x
  · -- The branches to the block are replaced, and only the entry falls through to it.
    rw [if_pos toB] at code
    have reached : cfg.endReached x := by
      apply Classical.byContradiction
      intro dead
      exact useless.notExit consistent ((ok.deadEnd dead).edges b toB)
    have replaced : Replaced cfg cfg' b target x := by
      refine ⟨code, removed.leaves.bbExit, reached, ?_⟩
      intro falls
      have toNext := (out_of_fallsThrough ok falls b).1 toB
      have same := previous_unique consistent.chainNodup toNext isNext
      have isEntry : previous = cfg.bbEntry := by
        apply Classical.byContradiction
        intro notEntry
        apply noJump
        refine ⟨same, notEntry, ?_, .inl (same ▸ toB)⟩
        cases isLast : cfg.lastIns previous with
        | none => rfl
        | some last => exact falls.2.2 last (same ▸ isLast)
      rw [next, if_pos toNext, atEntry isEntry, toNext, map_some, replaceTarget_self]
    constructor
    · exact replaced.blockOk ok (removed.hasJumpTable x) (removed.out other)
    · intro σ m state
      rw [code, perform_replace]
    · exact fun σ m state => replaced.goes m state
  · -- Nothing changes for a block that does not lead to the removed one.
    rw [if_neg toB] at code
    have notNext : cfg.fallsThrough x → cfg'.nextBb x = cfg.nextBb x := by
      intro falls
      rw [next, if_neg fun toNext => toB ((out_of_fallsThrough ok falls b).2 toNext)]
    constructor
    · apply ok.congr code removed.leaves.bbExit
      · intro c
        rw [removed.out other]
        constructor
        · rintro ⟨d, inOut, same⟩
          have differ : d ≠ b := fun isB => toB (isB ▸ inOut)
          rw [replaceTarget_of_ne differ] at same
          exact same ▸ inOut
        · intro inOut
          have differ : c ≠ b := fun isB => toB (isB ▸ inOut)
          exact ⟨c, inOut, replaceTarget_of_ne differ⟩
      · exact removed.hasJumpTable x
      · exact notNext
      · intro _ toExit
        rw [next, toExit, if_neg fun same => useless.notExit consistent (Option.some.inj same).symm]
    · intro σ m state
      rw [code]
    · intro σ m state
      rw [nothing_follows toB ok, nextBlock_congr m state code removed.leaves.bbExit notNext]

theorem Removed.follows_jump (removed : Removed cfg cfg' b previous target) (consistent : Consistent cfg)
    (useless : Useless cfg b target) (isNext : cfg.nextBb previous = some b)
    (inChain : previous ∈ cfg.chain) (other : previous ≠ b) (notEntry : previous ≠ cfg.bbEntry)
    (noBranch : (cfg.lastIns previous).any Ins.isBranchOp = false)
    (leads : b ∈ cfg.outBb previous ∨ target ∈ cfg.outBb previous) : Follows cfg cfg' b target previous := by
  have ok := consistent.block inChain
  have jump : jumpCode cfg b previous target previous = [.br target] :=
    if_pos ⟨rfl, notEntry, noBranch, leads⟩
  have code := removed.code previous other
  rw [jump] at code
  have last := lastIns_concat code
  have plainCode := code_plain ok noBranch
  have notExit : previous ≠ cfg.bbExit := by
    intro isExit
    rcases leads with toB | toTarget
    · exact out_exit consistent b (isExit ▸ toB)
    · exact out_exit consistent target (isExit ▸ toTarget)
  -- The code in front of the new branch has its targets replaced, or not.
  have front : ∀ ins ∈ (if b ∈ cfg.outBb previous then (cfg.code previous).map (Ins.replace b target)
      else cfg.code previous), ∃ old ∈ cfg.code previous, ins.isBranchOp = old.isBranchOp ∧
      ins.hasTable = old.hasTable := by
    intro ins inCode
    split at inCode
    · obtain ⟨old, inOld, same⟩ := List.mem_map.1 inCode
      exact ⟨old, inOld, same ▸ isBranchOp_replace old, same ▸ hasTable_replace old⟩
    · exact ⟨ins, inCode, rfl, rfl⟩
  have deadIff : .notReached ∈ (if b ∈ cfg.outBb previous then (cfg.code previous).map (Ins.replace b target)
      else cfg.code previous) ↔ .notReached ∈ cfg.code previous := by
    split
    · exact notReached_mem_replace _
    · exact Iff.rfl
  have deadOut : ¬ cfg.endReached previous → b ∉ cfg.outBb previous ∧ target = cfg.bbExit := by
    intro dead
    have toExit := (ok.deadEnd dead).edges
    have notB : b ∉ cfg.outBb previous := fun toB => useless.notExit consistent (toExit b toB)
    exact ⟨notB, toExit target (leads.resolve_left notB)⟩
  constructor
  · apply blockOk_br code
    · intro ins inCode
      obtain ⟨old, inOld, same, -⟩ := front ins inCode
      rw [same]
      exact plainCode old inOld
    · intro ins inCode hasTable
      obtain ⟨old, inOld, -, same⟩ := front ins inCode
      rw [removed.hasJumpTable]
      exact ok.tableFlag old inOld (same ▸ hasTable)
    · intro notDead c
      have reached : cfg.endReached previous := fun inCode => notDead (deadIff.2 inCode)
      have falls : cfg.fallsThrough previous := ⟨notExit, reached, lastIns_plain noBranch⟩
      rw [removed.out other]
      simp only [out_of_fallsThrough ok falls, isNext, Option.some.injEq]
      constructor
      · rintro ⟨d, isB, same⟩
        rw [← isB, replaceTarget_self] at same
        exact same.symm
      · intro isTarget
        exact ⟨b, rfl, by rw [replaceTarget_self, isTarget]⟩
    · intro isDead
      have dead : ¬ cfg.endReached previous := fun reached => reached (deadIff.1 isDead)
      obtain ⟨notB, isExit⟩ := deadOut dead
      rw [if_neg notB, removed.leaves.bbExit]
      refine ⟨isExit, ?_, (ok.deadEnd dead).behind⟩
      intro c inOut
      obtain ⟨d, inOld, same⟩ := (removed.out other c).1 inOut
      have differ : d ≠ b := fun isB => notB (isB ▸ inOld)
      rw [replaceTarget_of_ne differ] at same
      exact same ▸ (ok.deadEnd dead).edges d inOld
  · intro σ m state
    rw [code, perform_concat m _ state rfl]
    split
    · exact perform_replace m _ state
    · rfl
  · intro σ m state
    by_cases reached : cfg.endReached previous
    · have reached' : cfg'.endReached previous := by
        intro inCode
        rw [code, mem_append, mem_singleton] at inCode
        rcases inCode with inFront | isBr
        · exact reached (deadIff.1 inFront)
        · cases isBr
      rw [nextBlock_br m state reached' last, nextBlock_plain m state reached (lastIns_plain noBranch),
        if_neg notExit, isNext, map_some, replaceTarget_self]
    · have dead' : ¬ cfg'.endReached previous := by
        intro reached'
        apply reached
        intro inCode
        apply reached'
        rw [code]
        exact mem_append_left _ (deadIff.2 inCode)
      rw [nextBlock_dead m state reached, nextBlock_dead m state dead', map_none]

theorem Follows.pieces (follows : Follows cfg cfg' b target x) (consistent : Consistent cfg)
    (useless : Useless cfg b target) {σ : Type} (m : Machine σ) (state : σ)
    (isGood : ∀ c, nextBlock m cfg' x (perform m (cfg.code x) state).2 = some c → c ∈ cfg'.chain) :
    System.Pieces (blockSystem m cfg) (blockSystem m cfg') (fun s t => s = t ∧ s.1 ∈ cfg'.chain)
      (x, state) (x, state) := by
  have performs := follows.performs σ m state
  have goes' := follows.goes σ m (perform m (cfg.code x) state).2
  cases goes : nextBlock m cfg x (perform m (cfg.code x) state).2 with
  | none =>
    apply pieces_same performs
    · rw [goes', goes, map_none]
    · intro c isNext
      rw [goes] at isNext
      cases isNext
  | some c =>
    rw [goes, map_some] at goes'
    by_cases isB : c = b
    · subst isB
      rw [replaceTarget_self] at goes'
      have both : perform m (cfg.code x ++ cfg.code c) state = perform m (cfg.code x) state := by
        rw [perform_append, useless.nothing, append_nil]
      apply pieces_two goes
      · rw [both]
        exact performs
      · rw [both, goes', useless.goes consistent]
      · intro d isNext
        rw [both, useless.goes consistent, ← goes'] at isNext
        exact isGood d isNext
    · rw [replaceTarget_of_ne isB] at goes'
      apply pieces_same performs
      · rw [goes', goes]
      · intro d isNext
        rw [goes, ← goes'] at isNext
        exact isGood d isNext

end Removed

theorem preserves_removeUseless (consistent : Consistent cfg) (useless : Useless cfg b target) {previous : BBRef}
    (isNext : cfg.nextBb previous = some b) (other : target ≠ b)
    (atEntry : previous = cfg.bbEntry → cfg.nextBb b = some target) :
    Preserves cfg (removeUseless cfg b previous target) := by
  have removed := removed_removeUseless consistent useless isNext other
  have follows : ∀ x ∈ cfg.chain, x ≠ b → Follows cfg (removeUseless cfg b previous target) b target x := by
    intro x inChain notB
    by_cases jumps : x = previous ∧ previous ≠ cfg.bbEntry ∧ (cfg.lastIns previous).any Ins.isBranchOp = false ∧
        (b ∈ cfg.outBb previous ∨ target ∈ cfg.outBb previous)
    · obtain ⟨same, notEntry, noBranch, leads⟩ := jumps
      subst same
      exact removed.follows_jump consistent useless isNext inChain notB notEntry noBranch leads
    · exact removed.follows_kept consistent useless isNext atEntry inChain notB jumps
  apply removed.leaves.preserves consistent
  · exact fun x inChain notB => (follows x inChain notB).ok
  · intro σ m state x inChain notB
    apply (follows x inChain notB).pieces consistent useless
    intro c goes
    have inOut := nextBlock_mem m _ (follows x inChain notB).ok goes
    rw [removed.leaves.edges.outIff] at inOut
    rw [removed.leaves.chain, mem_erase_chain consistent]
    exact ⟨(removed.leaves.apart x c inOut).2, (removed.leaves.inChain x c inOut).2⟩

end Useless

end MonoRuntime.BranchOpts
