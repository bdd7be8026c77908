/-
Module: MonoRuntime.Proofs.BranchMerge
Purpose: The merge of a block with its only successor, which has no other predecessor, leaves a consistent graph with
  the same runs.
Trusted boundary: none
Main exports: preserves_merge
-/
import MonoRuntime.Proofs.BranchRemoval

namespace MonoRuntime.BranchOpts

open List

/-! ### The cleared branch -/

@[simp] theorem isBranchOp_clearTable (ins : Ins) : ins.clearTable.isBranchOp = ins.isBranchOp := by
  cases ins <;> rfl

@[simp] theorem hasTable_clearTable (ins : Ins) : ins.clearTable.hasTable = ins.hasTable := by
  cases ins <;> rfl

theorem perform_clearTable {σ : Type} (m : Machine σ) (code : List Ins) (state : σ) :
    perform m (code.map Ins.clearTable) state = perform m code state := by
  induction code generalizing state with
  | nil => rfl
  | cons ins code ih =>
    cases ins <;> simp only [map_cons, Ins.clearTable, perform, ih]

/-- The instructions of a block in front of those of the merged one. -/
def mergeFront (flag : Bool) (code : List Ins) : List Ins :=
  nullifyBranch (if flag then code.map Ins.clearTable else code)

variable {flag : Bool} {code : List Ins} {ins : Ins}

theorem mem_cleared (inCode : ins ∈ if flag then code.map Ins.clearTable else code) :
    ∃ old ∈ code, (ins = old ∨ ins = old.clearTable) := by
  split at inCode
  · obtain ⟨old, inOld, same⟩ := mem_map.1 inCode
    exact ⟨old, inOld, .inr same.symm⟩
  · exact ⟨ins, inCode, .inl rfl⟩

theorem mem_nullifyBranch (inCode : ins ∈ nullifyBranch code) : ins = .nop ∨ ins ∈ code := by
  unfold nullifyBranch at inCode
  split at inCode
  · rcases mem_append.1 inCode with inFront | isNop
    · exact .inr ((dropLast_sublist code).subset inFront)
    · exact .inl (mem_singleton.1 isNop)
  · exact .inr inCode

theorem mem_mergeFront (inCode : ins ∈ mergeFront flag code) :
    ins = .nop ∨ ∃ old ∈ code, (ins = old ∨ ins = old.clearTable) := by
  rcases mem_nullifyBranch inCode with isNop | inCleared
  · exact .inl isNop
  · exact .inr (mem_cleared inCleared)

theorem notReached_mergeFront (reached : .notReached ∉ code) : .notReached ∉ mergeFront flag code := by
  intro inCode
  rcases mem_mergeFront inCode with isNop | ⟨old, inOld, same | same⟩
  · cases isNop
  · exact reached (same ▸ inOld)
  · cases old <;> first
      | exact reached inOld
      | cases same

theorem hasTable_mergeFront (inCode : ins ∈ mergeFront flag code) (hasTable : ins.hasTable = true) :
    ∃ old ∈ code, old.hasTable = true := by
  rcases mem_mergeFront inCode with isNop | ⟨old, inOld, same | same⟩
  · rw [isNop] at hasTable
    cases hasTable
  · exact ⟨old, inOld, same ▸ hasTable⟩
  · rw [same, hasTable_clearTable] at hasTable
    exact ⟨old, inOld, hasTable⟩

theorem plain_nullifyBranch (atEnd : ∀ ins ∈ code.dropLast, ins.isBranchOp = false) :
    ∀ ins ∈ nullifyBranch code, ins.isBranchOp = false := by
  intro ins inCode
  unfold nullifyBranch at inCode
  split at inCode
  · rcases mem_append.1 inCode with inFront | isNop
    · exact atEnd ins inFront
    · rw [mem_singleton.1 isNop]
      rfl
  · next noBranch =>
      cases isLast : code.getLast? with
      | none =>
        rw [getLast?_eq_none_iff] at isLast
        rw [isLast] at inCode
        cases inCode
      | some last =>
        rw [isLast] at noBranch
        rw [← dropLast_append_getLast? last isLast] at inCode
        rcases mem_append.1 inCode with inFront | same
        · exact atEnd ins inFront
        · rw [mem_singleton.1 same]
          exact Bool.eq_false_iff.2 noBranch

theorem plain_mergeFront (atEnd : ∀ ins ∈ code.dropLast, ins.isBranchOp = false) :
    ∀ ins ∈ mergeFront flag code, ins.isBranchOp = false := by
  apply plain_nullifyBranch
  intro ins inCode
  split at inCode
  · rw [← map_dropLast] at inCode
    obtain ⟨old, inOld, same⟩ := mem_map.1 inCode
    rw [← same, isBranchOp_clearTable]
    exact atEnd old inOld
  · exact atEnd ins inCode

theorem perform_nullifyBranch {σ : Type} (m : Machine σ) (code : List Ins) (state : σ) :
    perform m (nullifyBranch code) state = perform m code state := by
  unfold nullifyBranch
  split
  · next isBranch =>
      cases isLast : code.getLast? with
      | none =>
        rw [isLast] at isBranch
        cases isBranch
      | some last =>
        rw [isLast] at isBranch
        conv_rhs => rw [← dropLast_append_getLast? last isLast]
        rw [perform_append, perform_append]
        cases last <;> first
          | rfl
          | cases isBranch
  · rfl

theorem perform_mergeFront {σ : Type} (m : Machine σ) (flag : Bool) (code : List Ins) (state : σ) :
    perform m (mergeFront flag code) state = perform m code state := by
  rw [mergeFront, perform_nullifyBranch]
  split
  · exact perform_clearTable m code state
  · rfl

/-! ### A block with the code of another one at its end -/

/-- A block has the code of another one behind its own, which has no branch, and precedes what that preceded. -/
structure Appended (cfg cfg' : Cfg) (b next : BBRef) (front : List Ins) : Prop where
  code : cfg'.code b = front ++ cfg.code next
  plain : ∀ ins ∈ front, ins.isBranchOp = false
  reached : .notReached ∉ front
  bbExit : cfg'.bbExit = cfg.bbExit
  notExit : b ≠ cfg.bbExit
  nextNotExit : next ≠ cfg.bbExit
  follows : cfg'.nextBb b = cfg.nextBb next

section Appended

variable {cfg cfg' : Cfg} {b next : BBRef} {front : List Ins}

theorem Appended.endReached (appended : Appended cfg cfg' b next front) : cfg'.endReached b ↔ cfg.endReached next := by
  rw [Cfg.endReached, Cfg.endReached, appended.code, mem_append, not_or]
  exact and_iff_right appended.reached

theorem Appended.lastIns (appended : Appended cfg cfg' b next front) {last : Ins}
    (isLast : cfg.lastIns next = some last) : cfg'.lastIns b = some last := by
  rw [Cfg.lastIns, appended.code, getLast?_append, ← Cfg.lastIns, isLast, Option.some_or]

theorem Appended.lastPlain (appended : Appended cfg cfg' b next front)
    (plain : ∀ last, cfg.lastIns next = some last → last.isBranchOp = false) :
    ∀ last, cfg'.lastIns b = some last → last.isBranchOp = false := by
  intro last isLast
  rw [Cfg.lastIns, appended.code, getLast?_append, ← Cfg.lastIns] at isLast
  cases isNext : cfg.lastIns next with
  | none =>
    rw [isNext, Option.none_or] at isLast
    exact appended.plain last (mem_of_getLast? isLast)
  | some nextLast =>
    rw [isNext, Option.some_or] at isLast
    exact plain last (isNext.trans isLast)

theorem liveTable_append (front : List Ins) {code : List Ins} (notNil : liveTable code ≠ []) :
    liveTable (front ++ code) = liveTable code := by
  have someTable : ∀ code : List Ins, liveTable code ≠ [] → code.any Ins.isJumpTable = true := by
    intro code
    induction code with
    | nil => exact fun notNil => absurd rfl notNil
    | cons ins code ih =>
      intro notNil
      cases ins <;> first
        | rfl
        | exact ih notNil
  induction front with
  | nil => rfl
  | cons ins front ih =>
    cases ins with
    | jumpTable table =>
      have found : (front ++ code).any Ins.isJumpTable = true := by
        rw [any_append, someTable code notNil, Bool.or_true]
      rw [cons_append, liveTable, if_pos found]
      exact ih
    | _ => exact ih

theorem Appended.liveTable (appended : Appended cfg cfg' b next front) (ok : BlockOk cfg next)
    (isLast : cfg.lastIns next = some .brReg) :
    BranchOpts.liveTable (cfg'.code b) = BranchOpts.liveTable (cfg.code next) := by
  have isTable : cfg.table next = some (BranchOpts.liveTable (cfg.code next)) := by
    rw [Cfg.table, isLast]
  rw [appended.code, liveTable_append front (ok.tableFilled _ isTable).1]

theorem Appended.successors (appended : Appended cfg cfg' b next front) (ok : BlockOk cfg next) :
    cfg'.successors b = cfg.successors next := by
  rcases branch_or_plain cfg next with ⟨ins, isLast, isBranch⟩ | plain
  · have last := appended.lastIns isLast
    rw [Cfg.successors, last, Cfg.successors, isLast]
    cases ins <;> first
      | rfl
      | exact congrArg (List.filterMap id) (appended.liveTable ok isLast)
      | cases isBranch
  · rw [successors_plain plain, successors_plain (appended.lastPlain plain), appended.bbExit,
      if_neg appended.notExit, if_neg appended.nextNotExit, appended.follows]

theorem Appended.goes (appended : Appended cfg cfg' b next front) (ok : BlockOk cfg next) {σ : Type}
    (m : Machine σ) (state : σ) : nextBlock m cfg' b state = nextBlock m cfg next state := by
  by_cases reached : cfg.endReached next
  · have reached' := appended.endReached.2 reached
    rcases branch_or_plain cfg next with ⟨ins, isLast, isBranch⟩ | plain
    · have last := appended.lastIns isLast
      rw [nextBlock, nextBlock, if_neg reached', if_neg reached, last, isLast]
      cases ins <;> first
        | rfl
        | exact congrArg (jumpTarget m · state) (appended.liveTable ok isLast)
        | cases isBranch
    · rw [nextBlock_plain m state reached plain, nextBlock_plain m state reached' (appended.lastPlain plain),
        appended.bbExit, if_neg appended.notExit, if_neg appended.nextNotExit, appended.follows]
  · rw [nextBlock_dead m state reached, nextBlock_dead m state fun reached' =>
      reached (appended.endReached.1 reached')]

theorem Appended.atEnd (appended : Appended cfg cfg' b next front) (ok : BlockOk cfg next) :
    ∀ ins ∈ (cfg'.code b).dropLast, ins.isBranchOp = false := by
  intro ins inCode
  rw [appended.code] at inCode
  by_cases isNil : cfg.code next = []
  · rw [isNil, append_nil] at inCode
    exact appended.plain ins ((dropLast_sublist front).subset inCode)
  · rw [dropLast_append_of_ne_nil isNil] at inCode
    rcases mem_append.1 inCode with inFront | inNext
    · exact appended.plain ins inFront
    · exact ok.atEnd ins inNext

theorem Appended.blockOk (appended : Appended cfg cfg' b next front) (ok : BlockOk cfg next)
    (out : ∀ c, c ∈ cfg'.outBb b ↔ c ∈ cfg.outBb next)
    (flag : ∀ ins ∈ cfg'.code b, ins.hasTable = true → (cfg'.bb b).hasJumpTable = true) : BlockOk cfg' b where
  successors reached c := by
    rw [out, appended.successors ok]
    exact ok.successors (appended.endReached.1 reached) c
  deadEnd dead' := by
    have dead : ¬ cfg.endReached next := fun reached => dead' (appended.endReached.2 reached)
    have deadEnd := ok.deadEnd dead
    constructor
    · intro c inOut
      rw [appended.bbExit]
      exact deadEnd.edges c ((out c).1 inOut)
    · rw [appended.code, deadCode_of_not_mem appended.reached, appended.bbExit]
      exact deadEnd.behind
    · intro isNop
      -- The other block is not empty, since its end is not reached.
      cases isLast : cfg.lastIns next with
      | none =>
        rw [Cfg.lastIns, getLast?_eq_none_iff] at isLast
        rw [Cfg.endReached, isLast] at dead
        exact absurd not_mem_nil dead
      | some last =>
        rw [appended.lastIns isLast] at isNop
        rw [appended.follows, appended.bbExit]
        exact deadEnd.nopLast (isLast.trans isNop)
  atEnd := appended.atEnd ok
  hasNext falls := by
    have falls' : cfg.fallsThrough next := by
      refine ⟨appended.nextNotExit, appended.endReached.1 falls.2.1, ?_⟩
      intro last isLast
      exact falls.2.2 last (appended.lastIns isLast)
    rw [appended.follows]
    exact ok.hasNext falls'
  tableFilled table isTable := by
    rcases branch_or_plain cfg next with ⟨ins, isLast, isBranch⟩ | plain
    · have last := appended.lastIns isLast
      apply ok.tableFilled table
      rw [← isTable, Cfg.table, Cfg.table, last, isLast]
      cases ins <;> first
        | rfl
        | exact congrArg some (appended.liveTable ok isLast).symm
    · have plain' := appended.lastPlain plain
      unfold Cfg.table at isTable
      split at isTable
      · next last => cases plain' _ last
      · next last => cases plain' _ last
      · cases isTable
  tableFlag := flag

end Appended

/-! ### The merge -/

section Merge

variable {cfg : Cfg} {b next : BBRef}

theorem edges_foldLink (targets : List BBRef) : ∀ (cfg : Cfg) (edge : BBRef → BBRef → Prop), Edges cfg edge →
      SameButEdges cfg (targets.foldl (fun cfg c => monoLinkBblock cfg b c) cfg) ∧
      Edges (targets.foldl (fun cfg c => monoLinkBblock cfg b c) cfg)
        fun x c => edge x c ∨ (x = b ∧ c ∈ targets) := by
  induction targets with
  | nil => exact fun cfg edge edges => ⟨SameButEdges.refl cfg, edges.congr (by simp)⟩
  | cons t targets ih =>
    intro cfg edge edges
    obtain ⟨frame, rest⟩ := ih _ _ (edges_link edges b t)
    refine ⟨(sameButEdges_link cfg b t).trans frame, rest.congr ?_⟩
    intro x c
    grind

theorem edges_foldUnlink (targets : List BBRef) : ∀ (cfg : Cfg) (edge : BBRef → BBRef → Prop), Edges cfg edge →
      SameButEdges cfg (targets.foldl (fun cfg c => monoUnlinkBblock cfg b c) cfg) ∧
      Edges (targets.foldl (fun cfg c => monoUnlinkBblock cfg b c) cfg)
        fun x c => edge x c ∧ ¬ (x = b ∧ c ∈ targets) := by
  induction targets with
  | nil => exact fun cfg edge edges => ⟨SameButEdges.refl cfg, edges.congr (by simp)⟩
  | cons t targets ih =>
    intro cfg edge edges
    obtain ⟨frame, rest⟩ := ih _ _ (edges_unlink edges b t)
    refine ⟨(sameButEdges_unlink cfg b t).trans frame, rest.congr ?_⟩
    intro x c
    grind

/-- The graph of the merge when the edges are moved. -/
def mergeEdges (cfg : Cfg) (b next : BBRef) : Cfg :=
  let cfg := monoUnlinkBblock cfg b next
  let cfg := (cfg.outBb next).foldl (fun cfg outBb => monoLinkBblock cfg b outBb) cfg
  (cfg.outBb next).foldl (fun cfg outBb => monoUnlinkBblock cfg next outBb) cfg

/-- The graph of the merge when the code is moved. -/
def mergeCode (cfg : Cfg) (b next : BBRef) : Cfg :=
  let moved := (mergeEdges cfg b next).update b fun bb =>
    { bb with
      code := mergeFront (cfg.bb b).hasJumpTable (cfg.code b) ++ cfg.code next
      hasJumpTable := bb.hasJumpTable || (cfg.bb next).hasJumpTable }
  monoNullifyBasicBlock (moved.unchain next) next

/-- A block whose only successor follows and has no other predecessor. -/
structure Mergeable (cfg : Cfg) (b next : BBRef) : Prop where
  inChain : b ∈ cfg.chain
  isNext : cfg.nextBb b = some next
  out : ∀ c, c ∈ cfg.outBb b ↔ c = next
  into : ∀ x, next ∈ cfg.outBb x ↔ x = b
  notExit : next ≠ cfg.bbExit

theorem mergeEdges_spec (consistent : Consistent cfg) (mergeable : Mergeable cfg b next) :
    SameButEdges cfg (mergeEdges cfg b next) ∧
      Edges (mergeEdges cfg b next) fun x c =>
        if x = b then c ∈ cfg.outBb next else x ≠ next ∧ c ∈ cfg.outBb x := by
  have differ : next ≠ b := (next_mem consistent mergeable.isNext).2.2
  have first := edges_unlink consistent.edges b next
  obtain ⟨frame, linked⟩ := edges_foldLink (b := b) ((monoUnlinkBblock cfg b next).outBb next) _ _ first
  obtain ⟨frame', unlinked⟩ := edges_foldUnlink (b := next) _ _ _ linked
  refine ⟨((sameButEdges_unlink cfg b next).trans frame).trans frame', unlinked.congr ?_⟩
  have inner : ∀ c, c ∈ (monoUnlinkBblock cfg b next).outBb next ↔ c ∈ cfg.outBb next := by
    intro c
    rw [outBb_unlink, if_neg differ]
  have outer := fun c => linked.outIff next c
  have out := mergeable.out
  intro x c
  by_cases same : x = b
  · subst same
    grind
  · grind

theorem mergeEdges_nullified (consistent : Consistent cfg) (mergeable : Mergeable cfg b next) :
    Edges (mergeCode cfg b next) fun x c =>
      if x = b then c ∈ cfg.outBb next else x ≠ next ∧ c ∈ cfg.outBb x := by
  have differ : next ≠ b := (next_mem consistent mergeable.isNext).2.2
  obtain ⟨-, edges⟩ := mergeEdges_spec consistent mergeable
  have moved : Edges (((mergeEdges cfg b next).update b fun bb =>
      { bb with
        code := mergeFront (cfg.bb b).hasJumpTable (cfg.code b) ++ cfg.code next
        hasJumpTable := bb.hasJumpTable || (cfg.bb next).hasJumpTable }).unchain next) _ :=
    edges.of_same
      (fun x => by by_cases same : x = b <;> simp [Cfg.unchain, Cfg.update, Cfg.outBb, Function.update, same])
      fun x => by by_cases same : x = b <;> simp [Cfg.unchain, Cfg.update, Cfg.inBb, Function.update, same]
  have notLoop : next ∉ cfg.outBb next := fun inOut => differ ((mergeable.into next).1 inOut)
  have nullified := edges_nullify moved next (by
    intro x notNext
    constructor
    · intro isEdge
      split at isEdge
      · exact notLoop isEdge
      · next notB => exact notB ((mergeable.into x).1 isEdge.2)
    · intro isEdge
      rw [if_neg differ] at isEdge
      exact isEdge.1 rfl)
  apply nullified.congr
  intro x c
  by_cases same : x = b
  · simp only [same, if_true]
    constructor
    · exact And.left
    · exact fun inOut => ⟨inOut, Ne.symm differ, fun isNext => notLoop (isNext ▸ inOut)⟩
  · simp only [same, if_false]
    constructor
    · exact And.left
    · intro isEdge
      exact ⟨isEdge, isEdge.1, fun isNext => same ((mergeable.into x).1 (isNext ▸ isEdge.2))⟩

theorem merge_eq (consistent : Consistent cfg) (mergeable : Mergeable cfg b next) :
    monoMergeBasicBlocks cfg b next = branchAfterMerge (mergeCode cfg b next) b := by
  obtain ⟨frame, -⟩ := mergeEdges_spec consistent mergeable
  have cleared : nullifyBranch (if ((mergeEdges cfg b next).bb b).hasJumpTable
      then ((mergeEdges cfg b next).code b).map Ins.clearTable else (mergeEdges cfg b next).code b)
      = mergeFront (cfg.bb b).hasJumpTable (cfg.code b) := by
    rw [frame.hasJumpTable, frame.code, mergeFront]
  rw [mergeCode, ← cleared]
  rfl

theorem mergeCode_spec (consistent : Consistent cfg) (mergeable : Mergeable cfg b next) :
    Leaves cfg (mergeCode cfg b next) next
      (fun x c => if x = b then c ∈ cfg.outBb next else x ≠ next ∧ c ∈ cfg.outBb x) ∧
    (∀ x, x ≠ next → x ≠ b → (mergeCode cfg b next).code x = cfg.code x ∧
      ((mergeCode cfg b next).bb x).hasJumpTable = (cfg.bb x).hasJumpTable) ∧
    (mergeCode cfg b next).code b = mergeFront (cfg.bb b).hasJumpTable (cfg.code b) ++ cfg.code next ∧
    ((mergeCode cfg b next).bb b).hasJumpTable = ((cfg.bb b).hasJumpTable || (cfg.bb next).hasJumpTable) := by
  obtain ⟨isChain, isEntry, differ⟩ := next_mem consistent mergeable.isNext
  obtain ⟨frame, -⟩ := mergeEdges_spec consistent mergeable
  have notExit : b ≠ cfg.bbExit := by
    intro isExit
    exact out_exit consistent next (isExit ▸ (mergeable.out next).2 rfl)
  have others : ∀ x, x ≠ next → x ≠ b → (mergeCode cfg b next).code x = cfg.code x ∧
      ((mergeCode cfg b next).bb x).hasJumpTable = (cfg.bb x).hasJumpTable := by
    intro x notNext notB
    constructor
    · rw [mergeCode, code_nullify, if_neg notNext, ← frame.code x]
      simp [Cfg.unchain, Cfg.update, Cfg.code, Function.update, notB]
    · rw [mergeCode, (flags_nullify _ next x).2, ← frame.hasJumpTable x]
      simp [Cfg.unchain, Cfg.update, Function.update, notB]
  refine ⟨⟨isEntry, ?_, frame.bbEntry, frame.bbExit, ?_, ?_, mergeEdges_nullified consistent mergeable, ?_, ?_⟩,
    others, ?_, ?_⟩
  · exact congrArg (·.erase next) frame.chain
  · intro x
    rw [mergeCode, (flags_nullify _ next x).1, ← frame.outOfLine x]
    by_cases same : x = b <;> simp [Cfg.unchain, Cfg.update, Function.update, same]
  · exact (others _ (Ne.symm mergeable.notExit) (Ne.symm notExit)).1
  · intro x c isEdge
    split at isEdge
    · next same => exact ⟨same ▸ mergeable.inChain, (consistent.inChain next c isEdge).2⟩
    · exact consistent.inChain x c isEdge.2
  · intro x c isEdge
    split at isEdge
    · next same =>
        refine ⟨same ▸ Ne.symm differ, ?_⟩
        intro isNext
        exact differ ((mergeable.into next).1 (isNext ▸ isEdge))
    · next notB =>
        refine ⟨isEdge.1, ?_⟩
        intro isNext
        exact notB ((mergeable.into x).1 (isNext ▸ isEdge.2))
  · rw [mergeCode, code_nullify, if_neg (Ne.symm differ)]
    simp [Cfg.unchain, Cfg.update, Cfg.code, Function.update]
  · rw [mergeCode, (flags_nullify _ next b).2, ← frame.hasJumpTable b]
    simp [Cfg.unchain, Cfg.update, Function.update]

theorem branchAfterMerge_eq {merged : Cfg} {front : List Ins} (appended : Appended cfg merged b next front)
    (ok : BlockOk cfg next) (out : ∀ c, c ∈ merged.outBb b ↔ c ∈ cfg.outBb next) :
    ∃ tail, branchAfterMerge merged b = merged.setCode b (merged.code b ++ tail) ∧
      (tail = [] ∨ tail = [.br cfg.bbExit] ∧ ¬ cfg.endReached next ∧
        ∀ last, merged.lastIns b = some last → last.isBranchOp = false) := by
  have unchanged : merged.setCode b (merged.code b ++ []) = merged := by
    simp [Cfg.setCode, Cfg.update, Cfg.code]
  unfold branchAfterMerge
  split
  · next last target isLast isOut =>
      split
      · next adds =>
          have toTarget : target ∈ cfg.outBb next := by
            rw [← out, isOut]
            exact mem_singleton.2 rfl
          have dead : ¬ cfg.endReached next := by
            intro reached
            have falls : cfg.fallsThrough next := by
              refine ⟨appended.nextNotExit, reached, ?_⟩
              intro nextLast isNextLast
              have same := isLast.symm.trans (appended.lastIns isNextLast)
              exact Option.some.inj same ▸ adds.2
            exact adds.1 (appended.follows.trans ((out_of_fallsThrough ok falls target).1 toTarget))
          have isExit := (ok.deadEnd dead).edges target toTarget
          refine ⟨[.br target], rfl, .inr ⟨by rw [isExit], dead, ?_⟩⟩
          intro other isOther
          exact Option.some.inj (isLast.symm.trans isOther) ▸ adds.2
      · exact ⟨[], unchanged.symm, .inl rfl⟩
  · exact ⟨[], unchanged.symm, .inl rfl⟩

/-- The merged block performs what both blocks performed, and goes where the second one went. -/
theorem preserves_merged {final : Cfg} (consistent : Consistent cfg) (mergeable : Mergeable cfg b next)
    (leaves : Leaves cfg final next
      fun x c => if x = b then c ∈ cfg.outBb next else x ≠ next ∧ c ∈ cfg.outBb x)
    (others : ∀ x, x ≠ next → x ≠ b →
      final.code x = cfg.code x ∧ (final.bb x).hasJumpTable = (cfg.bb x).hasJumpTable) (ok : BlockOk final b)
    (performs : ∀ (σ : Type) (m : Machine σ) (state : σ),
      perform m (final.code b) state = perform m (cfg.code b ++ cfg.code next) state)
    (goes : ∀ (σ : Type) (m : Machine σ) (state : σ), nextBlock m final b state = nextBlock m cfg next state) :
    Preserves cfg final := by
  obtain ⟨isChain, -, differ⟩ := next_mem consistent mergeable.isNext
  have okB := consistent.block mergeable.inChain
  have reachedB : cfg.endReached b := by
    apply Classical.byContradiction
    intro dead
    exact mergeable.notExit ((okB.deadEnd dead).edges next ((mergeable.out next).2 rfl))
  have sameNext : ∀ x ∈ cfg.chain, x ≠ next → x ≠ b → cfg.fallsThrough x → final.nextBb x = cfg.nextBb x := by
    intro x inChain notNext notB falls
    rw [leaves.next consistent notNext, if_neg]
    intro toNext
    exact notB ((mergeable.into x).1 ((out_of_fallsThrough (consistent.block inChain) falls next).2 toNext))
  have stays : ∀ x c, x ≠ next → c ∈ cfg.outBb x → (x = b → c ≠ next) → c ∈ final.chain := by
    intro x c notNext inOut notMerged
    rw [leaves.chain, mem_erase_chain consistent]
    refine ⟨?_, (consistent.inChain x c inOut).2⟩
    intro isNext
    exact notMerged ((mergeable.into x).1 (isNext ▸ inOut)) isNext
  apply leaves.preserves consistent
  · intro x inChain notNext
    by_cases notB : x = b
    · exact notB ▸ ok
    · obtain ⟨code, flag⟩ := others x notNext notB
      apply (consistent.block inChain).congr code leaves.bbExit
      · intro c
        rw [leaves.edges.outIff, if_neg notB]
        exact and_iff_right notNext
      · exact flag
      · exact sameNext x inChain notNext notB
      · intro _ toExit
        rw [leaves.next consistent notNext, toExit, if_neg]
        exact fun same => mergeable.notExit (Option.some.inj same).symm
  · intro σ m state x inChain notNext
    by_cases notB : x = b
    · subst notB
      apply pieces_two (c := next)
      · exact nextBlock_single m _ okB reachedB mergeable.out
      · exact performs σ m state
      · exact goes σ m _
      · intro d isGoing
        have inOut := nextBlock_mem m _ (consistent.block isChain) isGoing
        rw [leaves.chain, mem_erase_chain consistent]
        refine ⟨?_, (consistent.inChain next d inOut).2⟩
        intro isNext
        exact differ ((mergeable.into next).1 (isNext ▸ inOut))
    · obtain ⟨code, -⟩ := others x notNext notB
      apply pieces_same
      · rw [code]
      · exact nextBlock_congr m _ code leaves.bbExit (sameNext x inChain notNext notB)
      · intro c isGoing
        exact stays x c notNext (nextBlock_mem m _ (consistent.block inChain) isGoing) fun same => absurd same notB

theorem preserves_merge (consistent : Consistent cfg) (mergeable : Mergeable cfg b next) :
    Preserves cfg (monoMergeBasicBlocks cfg b next) := by
  obtain ⟨isChain, isEntry, differ⟩ := next_mem consistent mergeable.isNext
  obtain ⟨leaves, others, codeB, flagB⟩ := mergeCode_spec consistent mergeable
  have okB := consistent.block mergeable.inChain
  have okNext := consistent.block isChain
  have notExit : b ≠ cfg.bbExit := by
    intro isExit
    exact out_exit consistent next (isExit ▸ (mergeable.out next).2 rfl)
  have reachedB : cfg.endReached b := by
    apply Classical.byContradiction
    intro dead
    exact mergeable.notExit ((okB.deadEnd dead).edges next ((mergeable.out next).2 rfl))
  have outB : ∀ c, c ∈ (mergeCode cfg b next).outBb b ↔ c ∈ cfg.outBb next := by
    intro c
    rw [leaves.edges.outIff, if_pos rfl]
  have flag : ∀ ins ∈ (mergeCode cfg b next).code b, ins.hasTable = true →
      ((mergeCode cfg b next).bb b).hasJumpTable = true := by
    intro ins inCode hasTable
    rw [flagB, Bool.or_eq_true]
    rw [codeB] at inCode
    rcases mem_append.1 inCode with inFront | inNext
    · obtain ⟨old, inOld, hasTable⟩ := hasTable_mergeFront inFront hasTable
      exact .inl (okB.tableFlag old inOld hasTable)
    · exact .inr (okNext.tableFlag ins inNext hasTable)
  have appended : Appended cfg (mergeCode cfg b next) b next
      (mergeFront (cfg.bb b).hasJumpTable (cfg.code b)) := by
    constructor
    · exact codeB
    · exact plain_mergeFront okB.atEnd
    · exact notReached_mergeFront reachedB
    · exact leaves.bbExit
    · exact notExit
    · exact mergeable.notExit
    · rw [leaves.next consistent (Ne.symm differ), if_pos mergeable.isNext]
  obtain ⟨tail, isTail, kind⟩ := branchAfterMerge_eq appended okNext outB
  rw [merge_eq consistent mergeable, isTail]
  have performs : ∀ (σ : Type) (m : Machine σ) (state : σ),
      perform m ((mergeCode cfg b next).code b) state = perform m (cfg.code b ++ cfg.code next) state := by
    intro σ m state
    rw [codeB, perform_append, perform_append, perform_mergeFront]
  rcases kind with isNil | ⟨isBr, dead, plain⟩
  · have unchanged : (mergeCode cfg b next).setCode b ((mergeCode cfg b next).code b ++ tail)
        = mergeCode cfg b next := by
      rw [isNil, append_nil]
      simp [Cfg.setCode, Cfg.update, Cfg.code]
    rw [unchanged]
    exact preserves_merged consistent mergeable leaves others (appended.blockOk okNext outB flag) performs
      fun σ m state => appended.goes okNext m state
  -- The branch that is added changes nothing but the code of the block.
  have leaves' : Leaves cfg ((mergeCode cfg b next).setCode b ((mergeCode cfg b next).code b ++ tail)) next
      (fun x c => if x = b then c ∈ cfg.outBb next else x ≠ next ∧ c ∈ cfg.outBb x) := by
    constructor
    · exact leaves.notEntry
    · exact leaves.chain
    · exact leaves.bbEntry
    · exact leaves.bbExit
    · exact fun x => (outOfLine_setCode _ b x _).trans (leaves.outOfLine x)
    · rw [code_setCode, if_neg (Ne.symm notExit)]
      exact leaves.exitCode
    · exact leaves.edges.of_same (fun x => outBb_setCode _ b x _) fun x => inBb_setCode _ b x _
    · exact leaves.inChain
    · exact leaves.apart
  have code : ((mergeCode cfg b next).setCode b ((mergeCode cfg b next).code b ++ tail)).code b
      = (mergeCode cfg b next).code b ++ [.br cfg.bbExit] := by
    rw [code_setCode, if_pos rfl, isBr]
  have isDead : .notReached ∈ (mergeCode cfg b next).code b :=
    not_not.1 fun notIn => dead (appended.endReached.1 notIn)
  have merged := appended.blockOk okNext outB flag
  have deadEnd := merged.deadEnd (not_not.2 isDead)
  apply preserves_merged consistent mergeable leaves'
  · intro x notNext notB
    obtain ⟨codeX, flagX⟩ := others x notNext notB
    rw [code_setCode, if_neg notB]
    exact ⟨codeX, (hasJumpTable_setCode _ b x _).trans flagX⟩
  · apply blockOk_br code
    · intro ins inCode
      apply code_plain merged _ ins inCode
      cases isLast : (mergeCode cfg b next).lastIns b with
      | none => rfl
      | some last => exact plain last isLast
    · intro ins inCode hasTable
      rw [hasJumpTable_setCode]
      exact flag ins inCode hasTable
    · exact fun notIn => absurd isDead notIn
    · intro _
      refine ⟨leaves.bbExit.symm, ?_, deadEnd.behind⟩
      intro c inOut
      rw [outBb_setCode] at inOut
      exact deadEnd.edges c inOut
  · intro σ m state
    rw [code, perform_concat m _ state rfl]
    exact performs σ m state
  · intro σ m state
    have dead' : ¬ ((mergeCode cfg b next).setCode b ((mergeCode cfg b next).code b ++ tail)).endReached b := by
      rw [Cfg.endReached, code, not_not]
      exact mem_append_left _ isDead
    rw [nextBlock_dead m state dead, nextBlock_dead m state dead']

end Merge

end MonoRuntime.BranchOpts
