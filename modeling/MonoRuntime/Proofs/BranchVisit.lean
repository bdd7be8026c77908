/-
Module: MonoRuntime.Proofs.BranchVisit
Purpose: The visit of a block by the branch optimisations leaves a consistent graph with the same runs, if the move
  that it makes is clean, and never lengthens what is left of the pass but by a block that is out of line.
Trusted boundary: none
Main exports: preserves_move
-/
import MonoRuntime.Proofs.BranchMerge

namespace MonoRuntime.BranchOpts

open List

/-! ### The move of a block to the end -/

section Move

variable {cfg : Cfg} {target : BBRef}

theorem moveToEnd_eq (consistent : Consistent cfg) (notEntry : target ≠ cfg.bbEntry) :
    moveToEnd cfg.chain target = cfg.chain.erase target ++ [target] := by
  have first := consistent.entryFirst
  cases chain : cfg.chain with
  | nil =>
    rw [chain] at first
    cases first
  | cons entry rest =>
    rw [chain] at first
    have isEntry : entry = cfg.bbEntry := Option.some.inj first
    have differ : entry ≠ target := fun same => notEntry (same ▸ isEntry)
    rw [moveToEnd, if_neg differ, erase_cons_tail (by simpa using differ), cons_append]

theorem next_moved (consistent : Consistent cfg) {x : BBRef} (inChain : x ∈ cfg.chain) (other : x ≠ target) :
    (afterIn (cfg.chain.erase target ++ [target]) x).head? =
      (if cfg.nextBb x = some target then cfg.nextBb target else cfg.nextBb x).or (some target) := by
  have inErased : x ∈ cfg.chain.erase target := (mem_erase_chain consistent target x).2 ⟨other, inChain⟩
  rw [afterIn_append inErased, head?_append, next_erase consistent other]
  rfl

/-- A graph with a block at the end of the chain that was elsewhere. -/
structure Moved (cfg final : Cfg) (target : BBRef) (edge : BBRef → BBRef → Prop) : Prop where
  chain : final.chain = cfg.chain.erase target ++ [target]
  bbEntry : final.bbEntry = cfg.bbEntry
  bbExit : final.bbExit = cfg.bbExit
  outOfLine : ∀ x, (final.bb x).outOfLine = (cfg.bb x).outOfLine
  hasJumpTable : ∀ x, (final.bb x).hasJumpTable = (cfg.bb x).hasJumpTable
  code : ∀ x, x ≠ target → final.code x = cfg.code x
  edges : Edges final edge
  otherEdges : ∀ x, x ≠ target → ∀ c, edge x c ↔ c ∈ cfg.outBb x
  inChain : ∀ c, edge target c → c ∈ cfg.chain

theorem Moved.preserves {final : Cfg} {edge : BBRef → BBRef → Prop} (moved : Moved cfg final target edge)
    (consistent : Consistent cfg) (isTarget : target ∈ cfg.chain) (notEntry : target ≠ cfg.bbEntry)
    (notExit : target ≠ cfg.bbExit) (noFall : ∀ p, cfg.nextBb p = some target → ¬ cfg.fallsThrough p)
    (ok : BlockOk final target) (performs : ∀ (σ : Type) (m : Machine σ) (state : σ),
      perform m (final.code target) state = perform m (cfg.code target) state)
    (goes : ∀ (σ : Type) (m : Machine σ) (state : σ), nextBlock m final target state = nextBlock m cfg target state) :
    Preserves cfg final := by
  have members : ∀ x, x ∈ final.chain ↔ x ∈ cfg.chain := by
    intro x
    rw [moved.chain, mem_append, mem_singleton, mem_erase_chain consistent]
    by_cases same : x = target
    · simp [same, isTarget]
    · simp [same]
  have next : ∀ x ∈ cfg.chain, x ≠ target → final.nextBb x =
      (if cfg.nextBb x = some target then cfg.nextBb target else cfg.nextBb x).or (some target) := by
    intro x inChain other
    rw [Cfg.nextBb, moved.chain, next_moved consistent inChain other]
  -- No block falls through to the moved one, and the last one falls through to nothing.
  have sameNext : ∀ x ∈ cfg.chain, x ≠ target → cfg.fallsThrough x → final.nextBb x = cfg.nextBb x := by
    intro x inChain other falls
    have hasNext := (consistent.block inChain).hasNext falls
    rw [next x inChain other, if_neg fun toTarget => noFall x toTarget falls]
    obtain ⟨c, isNext⟩ := Option.isSome_iff_exists.1 hasNext
    rw [isNext, Option.some_or]
  apply Preserves.of_blocks consistent
  · rw [moved.chain]
    apply nodup_append.2
    refine ⟨consistent.chainNodup.erase target, nodup_singleton target, ?_⟩
    intro x inErased y isLast same
    exact ((mem_erase_chain consistent target x).1 inErased).1 (same.trans (mem_singleton.1 isLast))
  · rw [moved.chain, head?_append, head_erase consistent notEntry]
    rfl
  · exact moved.bbEntry
  · exact moved.bbExit
  · exact moved.outOfLine
  · exact moved.code _ (Ne.symm notExit)
  · exact moved.edges
  · intro x c isEdge
    rw [members, members]
    by_cases same : x = target
    · exact ⟨same ▸ isTarget, moved.inChain c (same ▸ isEdge)⟩
    · exact consistent.inChain x c ((moved.otherEdges x same c).1 isEdge)
  · intro x inChain
    rw [members] at inChain
    by_cases same : x = target
    · exact same ▸ ok
    · apply (consistent.block inChain).congr (moved.code x same) moved.bbExit
      · intro c
        rw [moved.edges.outIff, moved.otherEdges x same]
      · exact moved.hasJumpTable x
      · exact sameNext x inChain same
      · intro _ toExit
        rw [next x inChain same, toExit, if_neg fun isExit => notExit (Option.some.inj isExit).symm, Option.some_or]
  · intro σ m state x inChain
    rw [members] at inChain
    apply pieces_same
    · by_cases same : x = target
      · exact same ▸ performs σ m state
      · rw [moved.code x same]
    · by_cases same : x = target
      · subst same
        exact goes σ m _
      · exact nextBlock_congr m _ (moved.code x same) moved.bbExit (sameNext x inChain same)
    · intro c isGoing
      exact (members c).2 (consistent.inChain x c (nextBlock_mem m _ (consistent.block inChain) isGoing)).2

theorem move_last (consistent : Consistent cfg) (isTarget : target ∈ cfg.chain) (notEntry : target ≠ cfg.bbEntry)
    (isLast : cfg.nextBb target = none) : moveBasicBlockToEnd cfg target = cfg := by
  have noRest : afterIn cfg.chain target = [] := head?_eq_none_iff.1 isLast
  obtain ⟨front, whole, notIn⟩ := split_at isTarget
  rw [noRest] at whole
  have chain : moveToEnd cfg.chain target = cfg.chain := by
    rw [moveToEnd_eq consistent notEntry, whole, erase_append_right _ notIn, erase_cons_head,
      append_nil]
  unfold moveBasicBlockToEnd
  simp only [isLast, chain]

/-- The chain with a block moved to the end. -/
def rechain (cfg : Cfg) (target : BBRef) : Cfg :=
  { cfg with chain := moveToEnd cfg.chain target }

/-- The moved block has a branch to the block that followed it. -/
def moveBranch (cfg : Cfg) (target next : BBRef) : Cfg :=
  monoLinkBblock ((rechain cfg target).addIns target (.br next)) target next

theorem preserves_moveBranch (consistent : Consistent cfg) {next : BBRef} (isTarget : target ∈ cfg.chain)
    (notEntry : target ≠ cfg.bbEntry) (notExit : target ≠ cfg.bbExit)
    (noFall : ∀ p, cfg.nextBb p = some target → ¬ cfg.fallsThrough p) (noSwitch : endsInSwitch cfg target = false)
    (isNext : cfg.nextBb target = some next) (needs : (cfg.lastIns target).any Ins.needsNoBranch = false) :
    Preserves cfg (moveBranch cfg target next) := by
  have ok := consistent.block isTarget
  have noBranch : (cfg.lastIns target).any Ins.isBranchOp = false := by
    unfold endsInSwitch at noSwitch
    cases isLast : cfg.lastIns target with
    | none => rfl
    | some last =>
      rw [isLast] at needs noSwitch
      cases last <;> first
        | rfl
        | (cases needs; done)
        | cases noSwitch
  have plain := lastIns_plain noBranch
  have added : SameButEdges ((rechain cfg target).addIns target (.br next)) (moveBranch cfg target next) :=
    sameButEdges_link _ target next
  have before : Edges ((rechain cfg target).addIns target (.br next)) fun x c => c ∈ cfg.outBb x :=
    consistent.edges.of_same (fun x => outBb_setCode _ target x _) fun x => inBb_setCode _ target x _
  have edges : Edges (moveBranch cfg target next) fun x c => c ∈ cfg.outBb x ∨ (x = target ∧ c = next) :=
    edges_link before target next
  have code : (moveBranch cfg target next).code target = cfg.code target ++ [.br next] := by
    rw [added.code, Cfg.addIns, code_setCode, if_pos rfl]
    rfl
  have moved : Moved cfg (moveBranch cfg target next) target
      fun x c => c ∈ cfg.outBb x ∨ (x = target ∧ c = next) := by
    refine ⟨?_, added.bbEntry, added.bbExit, ?_, ?_, ?_, edges, ?_, ?_⟩
    · exact added.chain.trans (moveToEnd_eq consistent notEntry)
    · exact fun x => (added.outOfLine x).trans (outOfLine_setCode _ target x _)
    · exact fun x => (added.hasJumpTable x).trans (hasJumpTable_setCode _ target x _)
    · intro x other
      rw [added.code, Cfg.addIns, code_setCode, if_neg other]
      rfl
    · intro x other c
      simp only [other, false_and, or_false]
    · rintro c (inOut | ⟨-, isNext'⟩)
      · exact (consistent.inChain target c inOut).2
      · exact isNext' ▸ (next_mem consistent isNext).1
  -- The branch of a dead end goes to the exit.
  have toExit : ¬ cfg.endReached target → next = cfg.bbExit := by
    intro dead
    have isNop : cfg.lastIns target = some .nop := by
      cases isLast : cfg.lastIns target with
      | none =>
        rw [Cfg.lastIns, getLast?_eq_none_iff] at isLast
        rw [Cfg.endReached, isLast] at dead
        exact absurd not_mem_nil dead
      | some last =>
        rw [isLast] at needs
        rcases ok.last_dead dead isLast with isEnd | isNop | isBr
        · rw [isEnd] at needs
          cases needs
        · rw [isNop]
        · rw [isBr] at needs
          cases needs
    exact Option.some.inj (isNext.symm.trans ((ok.deadEnd dead).nopLast isNop))
  apply moved.preserves consistent isTarget notEntry notExit noFall
  · apply blockOk_br code
    · exact code_plain ok noBranch
    · intro ins inCode hasTable
      rw [moved.hasJumpTable]
      exact ok.tableFlag ins inCode hasTable
    · intro reached c
      rw [edges.outIff]
      have out := out_of_fallsThrough ok ⟨notExit, reached, plain⟩ c
      rw [out, isNext, Option.some.injEq]
      simp [eq_comm]
    · intro isDead
      have dead : ¬ cfg.endReached target := fun reached => reached isDead
      rw [moved.bbExit]
      refine ⟨toExit dead, ?_, (ok.deadEnd dead).behind⟩
      intro c inOut
      rcases (edges.outIff target c).1 inOut with inOld | ⟨-, isNext'⟩
      · exact (ok.deadEnd dead).edges c inOld
      · exact isNext'.trans (toExit dead)
  · intro σ m state
    rw [code, perform_concat m _ state rfl]
  · intro σ m state
    by_cases reached : cfg.endReached target
    · have reached' : (moveBranch cfg target next).endReached target := by
        intro inCode
        rw [code, mem_append, mem_singleton] at inCode
        rcases inCode with inFront | isBr
        · exact reached inFront
        · cases isBr
      rw [nextBlock_br m state reached' (lastIns_concat code), nextBlock_plain m state reached plain,
        if_neg notExit, isNext]
    · have dead' : ¬ (moveBranch cfg target next).endReached target := by
        intro reached'
        apply reached
        intro inCode
        apply reached'
        rw [code]
        exact mem_append_left _ inCode
      rw [nextBlock_dead m state reached, nextBlock_dead m state dead']

theorem preserves_move (consistent : Consistent cfg) (isTarget : target ∈ cfg.chain) (notEntry : target ≠ cfg.bbEntry)
    (notExit : target ≠ cfg.bbExit)
    (noFall : (cfg.nextBb target).isSome → ∀ p, cfg.nextBb p = some target → ¬ cfg.fallsThrough p)
    (noSwitch : endsInSwitch cfg target = false) : Preserves cfg (moveBasicBlockToEnd cfg target) := by
  have ok := consistent.block isTarget
  have chain := moveToEnd_eq consistent notEntry
  cases isNext : cfg.nextBb target with
  | none =>
    rw [move_last consistent isTarget notEntry isNext]
    exact Preserves.refl consistent
  | some next =>
    have noFall := noFall (by rw [isNext]; rfl)
    have isMove : moveBasicBlockToEnd cfg target = if (cfg.lastIns target).any Ins.needsNoBranch = true
        then rechain cfg target else moveBranch cfg target next := by
      unfold moveBasicBlockToEnd
      simp only [isNext]
      rfl
    rw [isMove]
    by_cases noBranch : (cfg.lastIns target).any Ins.needsNoBranch = true
    · -- The block does not fall through, and keeps its code.
      have notFalls : ¬ cfg.fallsThrough target := by
        intro falls
        cases isLast : cfg.lastIns target with
        | none =>
          rw [isLast] at noBranch
          cases noBranch
        | some last =>
          rw [isLast] at noBranch
          have plain := falls.2.2 last isLast
          cases last <;> first
            | (cases noBranch; done)
            | (cases plain; done)
            | exact falls.2.1 (mem_of_getLast? isLast)
      have notNop : cfg.lastIns target ≠ some .nop := by
        intro isNop
        rw [isNop] at noBranch
        cases noBranch
      rw [if_pos noBranch]
      have moved : Moved cfg (rechain cfg target) target
          fun x c => c ∈ cfg.outBb x := by
        refine ⟨chain, rfl, rfl, fun _ => rfl, fun _ => rfl, fun _ _ => rfl, ?_, fun _ _ _ => Iff.rfl, ?_⟩
        · exact consistent.edges.of_same (fun _ => rfl) fun _ => rfl
        · exact fun c inOut => (consistent.inChain target c inOut).2
      apply moved.preserves consistent isTarget notEntry notExit noFall
      · have sameCode : (rechain cfg target).code target = cfg.code target := rfl
        apply ok.congr sameCode rfl (fun _ => Iff.rfl) rfl
        · exact fun falls => absurd falls notFalls
        · exact fun isNop => absurd isNop notNop
      · exact fun _ _ _ => rfl
      · intro σ m state
        have sameCode : (rechain cfg target).code target = cfg.code target := rfl
        exact nextBlock_congr m state sameCode rfl fun falls => absurd falls notFalls
    · rw [if_neg noBranch]
      exact preserves_moveBranch consistent isTarget notEntry notExit noFall noSwitch isNext
        (Bool.eq_false_iff.2 noBranch)

end Move

/-! ### The parts of a visit -/

section Visit

variable {cfg : Cfg} {b : BBRef}

/-- What a part of a visit keeps; the rest of the pass only gets shorter. -/
structure VisitOk (cfg : Cfg) (b : BBRef) (visit : Visit) : Prop where
  preserves : Preserves cfg visit.cfg
  rest : (afterIn visit.cfg.chain b).Sublist (afterIn cfg.chain b)
  stays : visit.done = false → b ∈ visit.cfg.chain

theorem visitOk_skip (consistent : Consistent cfg) (inChain : b ∈ cfg.chain) : VisitOk cfg b (Visit.skip cfg) where
  preserves := Preserves.refl consistent
  rest := List.Sublist.refl _
  stays _ := inChain

variable {visit : Visit} {previous out : BBRef}

theorem visitOk_of_chain (preserves : Preserves cfg visit.cfg) (inChain : b ∈ cfg.chain)
    (chain : visit.cfg.chain = cfg.chain) : VisitOk cfg b visit where
  preserves := preserves
  rest := by rw [chain]
  stays _ := chain ▸ inChain

theorem visitOk_of_erase {n : BBRef} (consistent : Consistent cfg)
    (preserves : Preserves cfg visit.cfg) (inChain : b ∈ cfg.chain) (other : b ≠ n)
    (chain : visit.cfg.chain = cfg.chain.erase n) : VisitOk cfg b visit where
  preserves := preserves
  rest := by
    rw [chain, afterIn_erase consistent.chainNodup other]
    exact erase_sublist
  stays _ := by
    rw [chain, mem_erase_chain consistent]
    exact ⟨other, inChain⟩

theorem VisitOk.andThen {part : Cfg → Visit} (first : VisitOk cfg b visit)
    (next : ∀ cfg, Consistent cfg → b ∈ cfg.chain → visit.done = false → cfg = visit.cfg → VisitOk cfg b (part cfg)) :
    VisitOk cfg b (visit.andThen part) := by
  unfold Visit.andThen
  cases done : visit.done with
  | true =>
    exact first
  | false =>
    have second := next visit.cfg first.preserves.consistent (first.stays done) done rfl
    exact ⟨first.preserves.trans second.preserves, second.rest.trans first.rest, second.stays⟩

theorem preserves_notUseless (consistent : Consistent cfg) :
    Preserves cfg (cfg.update b fun bb => { bb with notUseless := true }) := by
  have frame : SameButEdges cfg (cfg.update b fun bb => { bb with notUseless := true }) :=
    sameButEdges_update cfg b _ rfl rfl rfl
  have out : ∀ x, (cfg.update b fun bb => { bb with notUseless := true }).outBb x = cfg.outBb x := by
    intro x
    by_cases same : x = b <;> simp [Cfg.update, Cfg.outBb, Function.update, same]
  have into : ∀ x, (cfg.update b fun bb => { bb with notUseless := true }).inBb x = cfg.inBb x := by
    intro x
    by_cases same : x = b <;> simp [Cfg.update, Cfg.inBb, Function.update, same]
  apply Preserves.of_blocks consistent
  · exact consistent.chainNodup
  · exact consistent.entryFirst
  · rfl
  · rfl
  · exact frame.outOfLine
  · exact frame.code _
  · exact consistent.edges.of_same out into
  · exact consistent.inChain
  · intro x inChain
    apply (consistent.block inChain).congr (frame.code x) frame.bbExit
    · intro c
      rw [out]
    · exact frame.hasJumpTable x
    · exact fun _ => frame.nextBb x
    · exact fun _ toExit => (frame.nextBb x).trans toExit
  · intro σ m state x inChain
    apply pieces_same
    · rw [frame.code]
    · exact nextBlock_congr m _ (frame.code x) frame.bbExit fun _ => frame.nextBb x
    · intro c goes
      exact (consistent.inChain x c (nextBlock_mem m _ (consistent.block inChain) goes)).2

theorem visitOk_removeBlockIfUseless (consistent : Consistent cfg) (isNext : cfg.nextBb previous = some b) :
    VisitOk cfg b (removeBlockIfUseless previous b cfg) := by
  have inChain := (next_mem consistent isNext).1
  have skipped := visitOk_skip consistent inChain
  unfold removeBlockIfUseless
  split
  · exact skipped
  · split
    · exact visitOk_of_chain (preserves_notUseless consistent) inChain rfl
    · next found isUseless =>
        split
        · exact skipped
        · next target useful =>
            split
            · exact skipped
            · split
              · exact skipped
              · next entryNext =>
                  split
                  · next other =>
                      have useless := useless_of_usefulTarget consistent inChain isUseless useful
                      have removed := removed_removeUseless consistent useless isNext other
                      have atEntry : previous = cfg.bbEntry → cfg.nextBb b = some target := by
                        intro isEntry
                        apply Classical.byContradiction
                        exact fun notNext => entryNext ⟨isEntry, notNext⟩
                      refine ⟨preserves_removeUseless consistent useless isNext other atEntry, ?_, ?_⟩
                      · -- The removed block precedes nothing.
                        have gone : b ∉ cfg.chain.erase b := consistent.chainNodup.not_mem_erase
                        rw [removed.leaves.chain, afterIn_of_not_mem gone]
                        exact nil_sublist _
                      · exact fun notDone => Bool.noConfusion notDone
                  · exact skipped

theorem visitOk_nullifyNext (goesOn : Bool) (consistent : Consistent cfg) (inChain : b ∈ cfg.chain) :
    VisitOk cfg b (nullifyNext goesOn b cfg) := by
  unfold nullifyNext
  split
  · exact visitOk_skip consistent inChain
  · next n isNext =>
      split
      · next lonely =>
          have noIn := length_eq_zero_iff.1 lonely.1
          have frame := (fold_replaceIn n (cfg.outBb n) (cfg.unchain n) consistent.edges.inNodup).1
          exact visitOk_of_erase consistent (preserves_nullifyBlock consistent isNext noIn lonely.2) inChain
            (Ne.symm (next_mem consistent isNext).2.2) frame.chain
      · exact visitOk_skip consistent inChain

/-- The last instruction changes at most. -/
def OnlyLast (cfg cfg' : Cfg) (b : BBRef) : Prop :=
  cfg' = cfg ∨ ∃ ins, cfg' = cfg.setLast b ins

theorem OnlyLast.chain {cfg' : Cfg} (only : OnlyLast cfg cfg' b) : cfg'.chain = cfg.chain := by
  rcases only with same | ⟨ins, same⟩
  · rw [same]
  · rw [same]
    rfl

theorem OnlyLast.outBb {cfg' : Cfg} (only : OnlyLast cfg cfg' b) (x : BBRef) : cfg'.outBb x = cfg.outBb x := by
  rcases only with same | ⟨ins, same⟩
  · rw [same]
  · rw [same]
    exact outBb_setCode cfg b x _

theorem onlyLast_condToBr (b : BBRef) (cfg : Cfg) : OnlyLast cfg (condToBr b cfg).cfg b := by
  unfold condToBr
  split
  · exact .inr ⟨_, rfl⟩
  · exact .inl rfl

theorem onlyLast_brToNop (b : BBRef) (cfg : Cfg) : OnlyLast cfg (brToNop b cfg).cfg b := by
  unfold brToNop
  split
  · exact .inr ⟨_, rfl⟩
  · exact .inl rfl

theorem visitOk_condToBr (consistent : Consistent cfg) (inChain : b ∈ cfg.chain) (single : cfg.outBb b = [out]) :
    VisitOk cfg b (condToBr b cfg) := by
  apply visitOk_of_chain _ inChain (onlyLast_condToBr b cfg).chain
  unfold condToBr
  split
  · next isLast => exact preserves_condToBr consistent inChain single isLast
  · exact Preserves.refl consistent

theorem visitOk_brToNop (consistent : Consistent cfg) (inChain : b ∈ cfg.chain) (single : cfg.outBb b = [out])
    (isNext : cfg.nextBb b = some out) : VisitOk cfg b (brToNop b cfg) := by
  apply visitOk_of_chain _ inChain (onlyLast_brToNop b cfg).chain
  unfold brToNop
  split
  · next isLast => exact preserves_brToNop consistent inChain single isNext isLast
  · exact Preserves.refl consistent

theorem chain_merge (consistent : Consistent cfg) {next : BBRef} (mergeable : Mergeable cfg b next) :
    (monoMergeBasicBlocks cfg b next).chain = cfg.chain.erase next := by
  rw [merge_eq consistent mergeable, ← (mergeCode_spec consistent mergeable).1.chain]
  unfold branchAfterMerge
  split
  · split <;> rfl
  · rfl

theorem visitOk_mergeNext (consistent : Consistent cfg) (inChain : b ∈ cfg.chain) (single : cfg.outBb b = [out])
    (isNext : cfg.nextBb b = some out) : VisitOk cfg b (mergeNext b cfg) := by
  unfold mergeNext
  rw [isNext]
  simp only
  split
  · next lonely =>
      obtain ⟨p, isIn⟩ := length_eq_one_iff.1 lonely.1
      have edges := consistent.edges
      have isB : b = p := by
        have inIn := (edges.inIff b out).2 (single ▸ mem_singleton.2 rfl)
        rw [isIn, mem_singleton] at inIn
        exact inIn
      have mergeable : Mergeable cfg b out := by
        refine ⟨inChain, isNext, ?_, ?_, lonely.2⟩
        · intro c
          rw [single, mem_singleton]
        · intro x
          rw [← edges.inIff, isIn, mem_singleton, isB]
      exact visitOk_of_erase consistent (preserves_merge consistent mergeable) inChain
        (Ne.symm (next_mem consistent isNext).2.2) (chain_merge consistent mergeable)
  · exact visitOk_skip consistent inChain

theorem visitOk_oneSuccessor (consistent : Consistent cfg) (inChain : b ∈ cfg.chain) :
    VisitOk cfg b (oneSuccessor b cfg) := by
  unfold oneSuccessor
  split
  · next out single =>
      apply (visitOk_condToBr consistent inChain single).andThen
      intro cfg1 consistent1 inChain1 _ isCfg1
      subst isCfg1
      have single1 := ((onlyLast_condToBr b cfg).outBb b).trans single
      split
      · next isNext =>
          apply (visitOk_brToNop consistent1 inChain1 single1 isNext).andThen
          intro cfg2 consistent2 inChain2 _ isCfg2
          subst isCfg2
          have single2 := ((onlyLast_brToNop b (condToBr b cfg).cfg).outBb b).trans single1
          have isNext2 : (brToNop b (condToBr b cfg).cfg).cfg.nextBb b = some out := by
            rw [Cfg.nextBb, (onlyLast_brToNop b (condToBr b cfg).cfg).chain]
            exact isNext
          exact visitOk_mergeNext consistent2 inChain2 single2 isNext2
      · exact visitOk_skip consistent1 inChain1
  · exact visitOk_skip consistent inChain

theorem visitOk_threadBr (consistent : Consistent cfg) (inChain : b ∈ cfg.chain) (one : (cfg.outBb b).length = 1) :
    VisitOk cfg b (threadBr b cfg) := by
  unfold threadBr
  split
  · next next isLast =>
      split
      · next target isBranch =>
          split
          · apply visitOk_of_chain (preserves_threadBr consistent inChain one isLast isBranch) inChain
            exact (sameButEdges_threadBr cfg b next target).chain
          · exact visitOk_skip consistent inChain
      · exact visitOk_skip consistent inChain
  · exact visitOk_skip consistent inChain

theorem chain_retarget (op : CondOp) (cfold : Option Bool) (trueBb falseBb newTrue newFalse : BBRef) :
    (retarget cfg b op cfold trueBb falseBb newTrue newFalse).chain = cfg.chain := by
  have before := (sameButEdges_unlink cfg b trueBb).trans (sameButEdges_unlink _ b falseBb)
  have after := (sameButEdges_link ((monoUnlinkBblock (monoUnlinkBblock cfg b trueBb) b falseBb).setLast b
    (.condBranch op newTrue newFalse cfold)) b newTrue).trans (sameButEdges_link _ b newFalse)
  exact after.chain.trans before.chain

theorem visitOk_threadCond (consistent : Consistent cfg) (inChain : b ∈ cfg.chain) (two : (cfg.outBb b).length = 2) :
    VisitOk cfg b (threadCond b cfg) := by
  unfold threadCond
  split
  · next op trueBb falseBb cfold isLast =>
      split
      · exact visitOk_skip consistent inChain
      · split
        · next taken =>
            apply visitOk_of_chain (preserves_decided consistent inChain two isLast) inChain
            exact (sameButEdges_unlink _ b _).chain
        · cases isTrue : branchOf cfg trueBb with
          | some target =>
            apply visitOk_of_chain (preserves_retarget consistent inChain isLast (.inr isTrue) (.inl rfl)) inChain
            exact chain_retarget op none trueBb falseBb target falseBb
          | none =>
            cases isFalse : branchOf cfg falseBb with
            | some target =>
              apply visitOk_of_chain (preserves_retarget consistent inChain isLast (.inl rfl) (.inr isFalse)) inChain
              exact chain_retarget op none trueBb falseBb trueBb target
            | none => exact visitOk_skip consistent inChain
  · exact visitOk_skip consistent inChain

theorem visitOk_thread (consistent : Consistent cfg) (inChain : b ∈ cfg.chain) : VisitOk cfg b (thread b cfg) := by
  unfold thread
  split
  · next one => exact visitOk_threadBr consistent inChain one
  · split
    · next two => exact visitOk_threadCond consistent inChain two
    · exact visitOk_skip consistent inChain

theorem visitOk_visitFront (consistent : Consistent cfg) (isNext : cfg.nextBb previous = some b) :
    VisitOk cfg b (visitFront previous b cfg) := by
  apply VisitOk.andThen
  · apply VisitOk.andThen
    · apply VisitOk.andThen
      · apply (visitOk_removeBlockIfUseless consistent isNext).andThen
        exact fun _ consistent inChain _ _ => visitOk_nullifyNext false consistent inChain
      · exact fun _ consistent inChain _ _ => visitOk_oneSuccessor consistent inChain
    · exact fun _ consistent inChain _ _ => visitOk_nullifyNext true consistent inChain
  · exact fun _ consistent inChain _ _ => visitOk_thread consistent inChain

/-! ### The reversal -/

theorem thread_kept (notDone : (thread b cfg).done = false) : (thread b cfg).cfg = cfg := by
  unfold thread threadBr threadCond at notDone ⊢
  split
  · split
    · split
      · split
        · next differ => simp_all
        · rfl
      · rfl
    · rfl
  · split
    · split
      · split
        · rfl
        · split
          · simp_all
          · split <;> simp_all [Visit.skip]
      · rfl
    · rfl

theorem visitFront_cfg (notDone : (visitFront previous b cfg).done = false) :
    (thread b (visitFront previous b cfg).cfg).done = false := by
  unfold visitFront at notDone ⊢
  generalize ((((removeBlockIfUseless previous b cfg).andThen (nullifyNext false b)).andThen
    (oneSuccessor b)).andThen (nullifyNext true b)) = visit at notDone ⊢
  unfold Visit.andThen at notDone ⊢
  cases done : visit.done with
  | true =>
    rw [done, if_pos rfl] at notDone
    rw [done] at notDone
    cases notDone
  | false =>
    rw [done, if_neg Bool.false_ne_true] at notDone
    have kept := thread_kept notDone
    rw [← kept] at notDone
    exact notDone

theorem reversal_spec (notDone : (thread b cfg).done = false) {branch : Ins} {target : BBRef}
    (isReversal : reversal cfg b = some (branch, target)) :
    ∃ op trueBb, cfg.lastIns b = some (.condBranch op trueBb target none) ∧
      branch = .condBranch (monoReverseBranchOp op) target trueBb none ∧ op.kind ≠ .float ∧
      (cfg.bb target).outOfLine = true := by
  unfold reversal at isReversal
  split at isReversal
  · next op trueBb falseBb cfold isLast =>
      split at isReversal
      · next reverses =>
          obtain ⟨two, notFloat, outOfLine, -⟩ := reverses
          rw [Option.some.injEq, Prod.mk.injEq] at isReversal
          obtain ⟨isBranch, isTarget⟩ := isReversal
          cases cfold with
          | none =>
            refine ⟨op, trueBb, isTarget ▸ isLast, ?_, notFloat, isTarget ▸ outOfLine⟩
            rw [← isBranch, isTarget]
          | some taken =>
            -- A decided branch ends the visit before.
            unfold thread threadCond at notDone
            rw [if_neg (by rw [two]; decide), if_pos two, isLast] at notDone
            simp only [if_neg notFloat] at notDone
            cases notDone
      · cases isReversal
  · cases isReversal

theorem chain_move (target : BBRef) : (moveBasicBlockToEnd cfg target).chain = moveToEnd cfg.chain target := by
  unfold moveBasicBlockToEnd
  cases cfg.nextBb target with
  | none => rfl
  | some next =>
    simp only
    split
    · rfl
    · exact (sameButEdges_link _ target next).chain

/-- What a visit leaves. -/
structure Visited (cfg : Cfg) (b : BBRef) (visit : Visit) : Prop where
  preserves : Preserves cfg visit.cfg
  rest : (afterIn visit.cfg.chain b).Sublist (afterIn cfg.chain b) ∨
    ∃ target rest, (cfg.bb target).outOfLine = true ∧ rest.Sublist (afterIn cfg.chain b) ∧
      (afterIn visit.cfg.chain b).Perm (target :: rest) ∧
      ((cfg.bb b).outOfLine = false ∨ target ∈ afterIn cfg.chain b ∧ target ∉ rest)

theorem visited_visitBlock (consistent : Consistent cfg) (isNext : cfg.nextBb previous = some b)
    (clean : (visitFront previous b cfg).done = false →
      ∀ branch target, reversal (visitFront previous b cfg).cfg b = some (branch, target) →
        MoveClean (visitFront previous b cfg).cfg b target) : Visited cfg b (visitBlock previous b cfg) := by
  have front := visitOk_visitFront consistent isNext
  unfold visitBlock Visit.andThen
  cases done : (visitFront previous b cfg).done with
  | true =>
    exact ⟨front.preserves, .inl front.rest⟩
  | false =>
    rw [if_neg Bool.false_ne_true]
    have notThreaded := visitFront_cfg done
    have clean := clean done
    have stays := front.stays done
    have consistent1 := front.preserves.consistent
    have sameLine := front.preserves.outOfLine
    have rest := front.rest
    have preserves1 := front.preserves
    generalize (visitFront previous b cfg).cfg = cfg1 at *
    unfold reverseBranch
    cases isReversal : reversal cfg1 b with
    | none => exact ⟨preserves1, .inl rest⟩
    | some pair =>
      obtain ⟨branch, target⟩ := pair
      obtain ⟨op, trueBb, isLast, isBranch, notFloat, outOfLine⟩ := reversal_spec notThreaded isReversal
      have move := clean branch target isReversal
      have ok := consistent1.block stays
      have reached := ok.endReached isLast rfl (by simp)
      have toTarget : target ∈ cfg1.outBb b := by
        rw [ok.successors reached, successors_condBranch isLast]
        exact mem_cons_of_mem _ (mem_singleton.2 rfl)
      have isTarget := (consistent1.inChain b target toTarget).2
      have differ : b ≠ target := by
        rintro rfl
        rcases move.onward with inLine | isAfter
        · rw [inLine] at outOfLine
          cases outOfLine
        · exact not_mem_afterIn consistent1.chainNodup isAfter
      have reversed := preserves_reverse consistent1 stays isLast notFloat
      rw [← isBranch] at reversed
      have moved : Preserves (cfg1.setLast b branch) (moveBasicBlockToEnd (cfg1.setLast b branch) target) := by
        apply preserves_move reversed.consistent isTarget move.notEntry move.notExit
        · intro hasNext p toMoved falls
          apply move.noFall hasNext p toMoved
          by_cases same : p = b
          · have last : (cfg1.setLast b branch).lastIns b = some branch := by
              rw [Cfg.setLast, lastIns_setCode, if_pos rfl, getLast?_concat]
            have plain := falls.2.2 branch (same ▸ last)
            rw [isBranch] at plain
            cases plain
          · have code : (cfg1.setLast b branch).code p = cfg1.code p := by
              rw [Cfg.setLast, code_setCode, if_neg same]
            exact (fallsThrough_congr code rfl).1 falls
        · have last : (cfg1.setLast b branch).lastIns target = cfg1.lastIns target := by
            rw [Cfg.setLast, lastIns_setCode, if_neg (Ne.symm differ)]
          rw [endsInSwitch, last]
          exact move.noSwitch
      refine ⟨preserves1.trans (reversed.trans moved), .inr ?_⟩
      have chain : (moveBasicBlockToEnd (cfg1.setLast b branch) target).chain
          = cfg1.chain.erase target ++ [target] := by
        have atEnd := moveToEnd_eq consistent1 move.notEntry
        exact (chain_move target).trans atEnd
      have inErased : b ∈ cfg1.chain.erase target := (mem_erase_chain consistent1 target b).2 ⟨differ, stays⟩
      have isRest : afterIn (cfg1.chain.erase target ++ [target]) b
          = (afterIn cfg1.chain b).erase target ++ [target] := by
        rw [afterIn_append inErased, afterIn_erase consistent1.chainNodup differ]
      refine ⟨target, (afterIn cfg1.chain b).erase target, ?_, ?_, ?_, ?_⟩
      · exact (sameLine target).symm.trans outOfLine
      · exact erase_sublist.trans rest
      · have isChain : (Visit.skip (moveBasicBlockToEnd (cfg1.setLast b branch) target)).cfg.chain
            = cfg1.chain.erase target ++ [target] := chain
        simp only [isChain, isRest]
        exact perm_append_singleton target _
      · rcases move.onward with inLine | isAfter
        · exact .inl ((sameLine b).symm.trans inLine)
        · right
          refine ⟨rest.subset isAfter, ?_⟩
          obtain ⟨front', whole, -⟩ := split_at stays
          have nodup : (afterIn cfg1.chain b).Nodup := by
            have chainNodup := consistent1.chainNodup
            rw [whole] at chainNodup
            exact (nodup_cons.1 (nodup_append.1 chainNodup).2.1).2
          exact nodup.not_mem_erase

end Visit

end MonoRuntime.BranchOpts
