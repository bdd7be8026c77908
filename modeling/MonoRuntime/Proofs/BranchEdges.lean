/-
Module: MonoRuntime.Proofs.BranchEdges
Purpose: The chain of the blocks and the arrays of edges under the operations of the branch optimisations.
Trusted boundary: none
Main exports: afterIn_erase
-/
import Mathlib.Data.List.Nodup
import MonoRuntime.Mini.BranchRun

namespace MonoRuntime.BranchOpts

open List

/-! ### The chain -/

variable {chain rest : List BBRef} {b c : BBRef} {cfg cfg' : Cfg}

theorem afterIn_cons (a : BBRef) (chain : List BBRef) (b : BBRef) :
    afterIn (a :: chain) b = if a = b then chain else afterIn chain b :=
  rfl

theorem mem_of_mem_afterIn (isAfter : c ∈ afterIn chain b) : c ∈ chain := by
  induction chain with
  | nil => exact isAfter
  | cons a chain ih =>
    rw [afterIn_cons] at isAfter
    split at isAfter
    · exact mem_cons_of_mem a isAfter
    · exact mem_cons_of_mem a (ih isAfter)

theorem mem_of_afterIn (isAfter : c ∈ afterIn chain b) : b ∈ chain := by
  induction chain with
  | nil => cases isAfter
  | cons a chain ih =>
    rw [afterIn_cons] at isAfter
    split at isAfter
    · next same => exact same ▸ mem_cons_self
    · exact mem_cons_of_mem a (ih isAfter)

theorem afterIn_of_not_mem (notIn : b ∉ chain) : afterIn chain b = [] := by
  apply eq_nil_iff_forall_not_mem.2
  intro c isAfter
  exact notIn (mem_of_afterIn isAfter)

theorem split_at (inChain : b ∈ chain) : ∃ front, chain = front ++ b :: afterIn chain b ∧ b ∉ front := by
  induction chain with
  | nil => cases inChain
  | cons a chain ih =>
    rw [afterIn_cons]
    split
    · next same => exact ⟨[], by rw [same, nil_append], not_mem_nil⟩
    · next other =>
        rcases mem_cons.1 inChain with same | inRest
        · exact absurd same.symm other
        · obtain ⟨front, whole, notIn⟩ := ih inRest
          refine ⟨a :: front, by rw [cons_append, ← whole], ?_⟩
          rw [mem_cons, not_or]
          exact ⟨Ne.symm other, notIn⟩

theorem afterIn_split {front : List BBRef} (notIn : b ∉ front) : afterIn (front ++ b :: rest) b = rest := by
  induction front with
  | nil => simp [afterIn_cons]
  | cons a front ih =>
    rw [mem_cons, not_or] at notIn
    rw [cons_append, afterIn_cons, if_neg (Ne.symm notIn.1), ih notIn.2]

theorem not_mem_afterIn (nodup : chain.Nodup) : b ∉ afterIn chain b := by
  intro isAfter
  obtain ⟨front, whole, -⟩ := split_at (mem_of_afterIn isAfter)
  rw [whole] at nodup
  have tail := (nodup_append.1 nodup).2.1
  exact (nodup_cons.1 tail).1 isAfter

theorem afterIn_erase {x : BBRef} (nodup : chain.Nodup) (other : b ≠ x) :
    afterIn (chain.erase x) b = (afterIn chain b).erase x := by
  induction chain with
  | nil => rfl
  | cons a chain ih =>
    obtain ⟨notIn, nodup⟩ := nodup_cons.1 nodup
    by_cases same : a = x
    · rw [same, erase_cons_head, afterIn_cons, if_neg (Ne.symm other)]
      rw [same] at notIn
      rw [erase_of_not_mem fun isAfter => notIn (mem_of_mem_afterIn isAfter)]
    · rw [erase_cons_tail (by simpa using same), afterIn_cons, afterIn_cons]
      split
      · rfl
      · exact ih nodup

theorem afterIn_append (inChain : b ∈ chain) : afterIn (chain ++ rest) b = afterIn chain b ++ rest := by
  obtain ⟨front, whole, notIn⟩ := split_at inChain
  conv_lhs => rw [whole, append_assoc, cons_append]
  exact afterIn_split notIn

theorem afterIn_next {next : BBRef} (nodup : chain.Nodup) (isAfter : afterIn chain b = next :: rest) :
    afterIn chain next = rest := by
  have inChain : b ∈ chain := mem_of_afterIn (c := next) (isAfter ▸ mem_cons_self)
  obtain ⟨front, whole, -⟩ := split_at inChain
  rw [isAfter] at whole
  rw [whole] at nodup ⊢
  have notFront : next ∉ front ++ [b] := by
    intro inFront
    have apart := (nodup_append.1 (by simpa using nodup : (front ++ [b] ++ next :: rest).Nodup)).2.2
    exact apart next inFront next mem_cons_self rfl
  have whole' : front ++ b :: next :: rest = (front ++ [b]) ++ next :: rest := by simp
  rw [whole', afterIn_split notFront]

theorem previous_unique {p q : BBRef} (nodup : chain.Nodup) (nextP : (afterIn chain p).head? = some c)
    (nextQ : (afterIn chain q).head? = some c) : p = q := by
  induction chain with
  | nil => cases nextP
  | cons a chain ih =>
    obtain ⟨notIn, nodup⟩ := nodup_cons.1 nodup
    rw [afterIn_cons] at nextP nextQ
    -- The block at the head of a chain follows no other block of it.
    have headNext : ∀ r, chain.head? = some c → (afterIn chain r).head? ≠ some c := by
      intro r isHead next
      have after : c ∈ afterIn chain r := mem_of_mem_head? next
      obtain ⟨front, whole, -⟩ := split_at (mem_of_afterIn after)
      cases front with
      | nil =>
        rw [whole] at isHead
        have same : r = c := Option.some.inj isHead
        exact not_mem_afterIn nodup (same ▸ after)
      | cons d front =>
        rw [whole] at isHead nodup
        have same : d = c := Option.some.inj isHead
        have apart := (nodup_cons.1 nodup).1
        apply apart
        rw [same]
        exact mem_append_right _ (mem_cons_of_mem _ after)
    split at nextP
    · next isP =>
        split at nextQ
        · next isQ => exact isP.symm.trans isQ
        · exact absurd nextQ (headNext q nextP)
    · split at nextQ
      · exact absurd nextP (headNext p nextQ)
      · exact ih nodup nextP nextQ

theorem next_ne_head (nodup : chain.Nodup) (next : (afterIn chain b).head? = some c) : chain.head? ≠ some c := by
  intro isHead
  cases chain with
  | nil => cases isHead
  | cons a chain =>
    have same : a = c := Option.some.inj isHead
    have notIn := (nodup_cons.1 nodup).1
    have after : c ∈ afterIn (a :: chain) b := mem_of_mem_head? next
    rw [afterIn_cons] at after
    apply notIn
    rw [same]
    split at after
    · exact after
    · exact mem_of_mem_afterIn after

/-! ### Changes of one block -/

section Update

variable (cfg : Cfg) (b c : BBRef)

theorem code_setCode (code : List Ins) :
    (cfg.setCode b code).code c = if c = b then code else cfg.code c := by
  by_cases same : c = b <;> simp [Cfg.setCode, Cfg.update, Cfg.code, Function.update, same]

theorem lastIns_setCode (code : List Ins) :
    (cfg.setCode b code).lastIns c = if c = b then code.getLast? else cfg.lastIns c := by
  by_cases same : c = b <;> simp [Cfg.lastIns, code_setCode, same]

@[simp] theorem outBb_setCode (code : List Ins) : (cfg.setCode b code).outBb c = cfg.outBb c := by
  by_cases same : c = b <;> simp [Cfg.setCode, Cfg.update, Cfg.outBb, Function.update, same]

@[simp] theorem inBb_setCode (code : List Ins) : (cfg.setCode b code).inBb c = cfg.inBb c := by
  by_cases same : c = b <;> simp [Cfg.setCode, Cfg.update, Cfg.inBb, Function.update, same]

@[simp] theorem outOfLine_setCode (code : List Ins) : ((cfg.setCode b code).bb c).outOfLine = (cfg.bb c).outOfLine := by
  by_cases same : c = b <;> simp [Cfg.setCode, Cfg.update, Function.update, same]

@[simp] theorem hasJumpTable_setCode (code : List Ins) :
    ((cfg.setCode b code).bb c).hasJumpTable = (cfg.bb c).hasJumpTable := by
  by_cases same : c = b <;> simp [Cfg.setCode, Cfg.update, Function.update, same]

theorem outBb_setOut (blocks : List BBRef) :
    (cfg.setOut b blocks).outBb c = if c = b then blocks else cfg.outBb c := by
  by_cases same : c = b <;> simp [Cfg.setOut, Cfg.update, Cfg.outBb, Function.update, same]

@[simp] theorem inBb_setOut (blocks : List BBRef) : (cfg.setOut b blocks).inBb c = cfg.inBb c := by
  by_cases same : c = b <;> simp [Cfg.setOut, Cfg.update, Cfg.inBb, Function.update, same]

theorem inBb_setIn (blocks : List BBRef) :
    (cfg.setIn b blocks).inBb c = if c = b then blocks else cfg.inBb c := by
  by_cases same : c = b <;> simp [Cfg.setIn, Cfg.update, Cfg.inBb, Function.update, same]

@[simp] theorem outBb_setIn (blocks : List BBRef) : (cfg.setIn b blocks).outBb c = cfg.outBb c := by
  by_cases same : c = b <;> simp [Cfg.setIn, Cfg.update, Cfg.outBb, Function.update, same]

end Update

/-- Two graphs that differ in their edges at most. -/
structure SameButEdges (cfg cfg' : Cfg) : Prop where
  code : ∀ b, cfg'.code b = cfg.code b
  chain : cfg'.chain = cfg.chain
  bbEntry : cfg'.bbEntry = cfg.bbEntry
  bbExit : cfg'.bbExit = cfg.bbExit
  outOfLine : ∀ b, (cfg'.bb b).outOfLine = (cfg.bb b).outOfLine
  hasJumpTable : ∀ b, (cfg'.bb b).hasJumpTable = (cfg.bb b).hasJumpTable

theorem SameButEdges.refl (cfg : Cfg) : SameButEdges cfg cfg :=
  ⟨fun _ => rfl, rfl, rfl, rfl, fun _ => rfl, fun _ => rfl⟩

theorem SameButEdges.trans {cfg'' : Cfg} (first : SameButEdges cfg cfg') (second : SameButEdges cfg' cfg'') :
    SameButEdges cfg cfg'' where
  code b := (second.code b).trans (first.code b)
  chain := second.chain.trans first.chain
  bbEntry := second.bbEntry.trans first.bbEntry
  bbExit := second.bbExit.trans first.bbExit
  outOfLine b := (second.outOfLine b).trans (first.outOfLine b)
  hasJumpTable b := (second.hasJumpTable b).trans (first.hasJumpTable b)

theorem SameButEdges.nextBb (same : SameButEdges cfg cfg') (b : BBRef) : cfg'.nextBb b = cfg.nextBb b := by
  rw [Cfg.nextBb, Cfg.nextBb, same.chain]

theorem sameButEdges_update (cfg : Cfg) (b : BBRef) (change : BasicBlock → BasicBlock)
    (code : (change (cfg.bb b)).code = (cfg.bb b).code) (outOfLine : (change (cfg.bb b)).outOfLine = (cfg.bb b).outOfLine)
    (hasJumpTable : (change (cfg.bb b)).hasJumpTable = (cfg.bb b).hasJumpTable) :
    SameButEdges cfg (cfg.update b change) where
  code c := by
    by_cases same : c = b <;> simp [Cfg.update, Cfg.code, Function.update, same, code]
  chain := rfl
  bbEntry := rfl
  bbExit := rfl
  outOfLine c := by
    by_cases same : c = b <;> simp [Cfg.update, Function.update, same, outOfLine]
  hasJumpTable c := by
    by_cases same : c = b <;> simp [Cfg.update, Function.update, same, hasJumpTable]

theorem sameButEdges_setOut (cfg : Cfg) (b : BBRef) (blocks : List BBRef) : SameButEdges cfg (cfg.setOut b blocks) :=
  sameButEdges_update cfg b _ rfl rfl rfl

theorem sameButEdges_setIn (cfg : Cfg) (b : BBRef) (blocks : List BBRef) : SameButEdges cfg (cfg.setIn b blocks) :=
  sameButEdges_update cfg b _ rfl rfl rfl

/-! ### Edges -/

section Edges

variable {cfg : Cfg} {edge : BBRef → BBRef → Prop}

theorem Edges.congr {edge' : BBRef → BBRef → Prop} (edges : Edges cfg edge) (same : ∀ b c, edge b c ↔ edge' b c) :
    Edges cfg edge' where
  outIff b c := (edges.outIff b c).trans (same b c)
  inIff b c := (edges.inIff b c).trans (same b c)
  outNodup := edges.outNodup
  inNodup := edges.inNodup

theorem Edges.of_same {cfg' : Cfg} (edges : Edges cfg edge) (outSame : ∀ b, cfg'.outBb b = cfg.outBb b)
    (inSame : ∀ b, cfg'.inBb b = cfg.inBb b) : Edges cfg' edge where
  outIff b c := by rw [outSame b]; exact edges.outIff b c
  inIff b c := by rw [inSame c]; exact edges.inIff b c
  outNodup b := by rw [outSame b]; exact edges.outNodup b
  inNodup b := by rw [inSame b]; exact edges.inNodup b

theorem sameButEdges_link (cfg : Cfg) (s t : BBRef) : SameButEdges cfg (monoLinkBblock cfg s t) := by
  have first : SameButEdges cfg
      (if t ∈ cfg.outBb s then cfg else cfg.setOut s (cfg.outBb s ++ [t])) := by
    split
    · exact SameButEdges.refl cfg
    · exact sameButEdges_setOut cfg s _
  have second : ∀ cfg : Cfg,
      SameButEdges cfg (if s ∈ cfg.inBb t then cfg else cfg.setIn t (cfg.inBb t ++ [s])) := by
    intro cfg
    split
    · exact SameButEdges.refl cfg
    · exact sameButEdges_setIn cfg t _
  exact first.trans (second _)

theorem sameButEdges_unlink (cfg : Cfg) (s t : BBRef) : SameButEdges cfg (monoUnlinkBblock cfg s t) :=
  (sameButEdges_setOut cfg s _).trans (sameButEdges_setIn _ t _)

theorem outBb_link (cfg : Cfg) (s t b : BBRef) : (monoLinkBblock cfg s t).outBb b =
      if b = s ∧ t ∉ cfg.outBb s then cfg.outBb s ++ [t] else cfg.outBb b := by
  have second : ∀ cfg : Cfg, (if s ∈ cfg.inBb t then cfg else cfg.setIn t (cfg.inBb t ++ [s])).outBb b
      = cfg.outBb b := by
    intro cfg
    split
    · rfl
    · exact outBb_setIn cfg t b _
  unfold monoLinkBblock
  rw [second]
  by_cases linked : t ∈ cfg.outBb s <;> by_cases same : b = s <;> simp [linked, same, outBb_setOut]

theorem inBb_link (cfg : Cfg) (s t b : BBRef) : (monoLinkBblock cfg s t).inBb b =
      if b = t ∧ s ∉ cfg.inBb t then cfg.inBb t ++ [s] else cfg.inBb b := by
  have first : ∀ b, (if t ∈ cfg.outBb s then cfg else cfg.setOut s (cfg.outBb s ++ [t])).inBb b = cfg.inBb b := by
    intro b
    split
    · rfl
    · exact inBb_setOut cfg s b _
  unfold monoLinkBblock
  dsimp only
  rw [first t]
  by_cases linked : s ∈ cfg.inBb t
  · simp [linked, first b]
  · by_cases same : b = t <;> simp [linked, same, inBb_setIn, first b]

theorem edges_link (edges : Edges cfg edge) (s t : BBRef) :
    Edges (monoLinkBblock cfg s t) fun b c => edge b c ∨ (b = s ∧ c = t) where
  outIff b c := by
    have there := edges.outIff b c
    rw [outBb_link]
    grind
  inIff b c := by
    have there := edges.inIff b c
    rw [inBb_link]
    grind
  outNodup b := by
    rw [outBb_link]
    split
    · next fresh =>
        apply nodup_append.2
        refine ⟨edges.outNodup s, nodup_singleton t, ?_⟩
        intro x inOut y isT same
        rw [mem_singleton] at isT
        exact fresh.2 (isT ▸ same ▸ inOut)
    · exact edges.outNodup b
  inNodup b := by
    rw [inBb_link]
    split
    · next fresh =>
        apply nodup_append.2
        refine ⟨edges.inNodup t, nodup_singleton s, ?_⟩
        intro x inIn y isS same
        rw [mem_singleton] at isS
        exact fresh.2 (isS ▸ same ▸ inIn)
    · exact edges.inNodup b

theorem outBb_unlink (cfg : Cfg) (s t b : BBRef) :
    (monoUnlinkBblock cfg s t).outBb b = if b = s then (cfg.outBb s).filter (· ≠ t) else cfg.outBb b := by
  simp [monoUnlinkBblock, outBb_setOut]

theorem inBb_unlink (cfg : Cfg) (s t b : BBRef) :
    (monoUnlinkBblock cfg s t).inBb b = if b = t then (cfg.inBb t).filter (· ≠ s) else cfg.inBb b := by
  simp [monoUnlinkBblock, inBb_setIn]

theorem edges_unlink (edges : Edges cfg edge) (s t : BBRef) :
    Edges (monoUnlinkBblock cfg s t) fun b c => edge b c ∧ ¬ (b = s ∧ c = t) where
  outIff b c := by
    have here := edges.outIff b c
    rw [outBb_unlink]
    by_cases same : b = s
    · rw [if_pos same, mem_filter, ← same, here]
      simp
    · rw [if_neg same, here]
      simp [same]
  inIff b c := by
    have here := edges.inIff b c
    rw [inBb_unlink]
    by_cases same : c = t
    · rw [if_pos same, mem_filter, ← same, here]
      simp
    · rw [if_neg same, here]
      simp [same]
  outNodup b := by
    rw [outBb_unlink]
    split
    · exact (edges.outNodup s).filter _
    · exact edges.outNodup b
  inNodup b := by
    rw [inBb_unlink]
    split
    · exact (edges.inNodup t).filter _
    · exact edges.inNodup b

/-! ### The loop that replaces in an array -/

theorem replaceLoop_of_not_mem {orig : BBRef} {repl : Option BBRef} (rounds i : Nat) {blocks : List BBRef}
    (notIn : orig ∉ blocks) : replaceLoop orig repl rounds i blocks = blocks := by
  induction rounds generalizing i with
  | zero => rfl
  | succ rounds ih =>
    have other : blocks[i]? ≠ some orig := fun here => notIn (mem_of_getElem? here)
    unfold replaceLoop
    rw [if_neg other]
    exact ih (i + 1)

/-- The loop finds the block behind those that it has passed, and moves the last block in its place. -/
theorem replaceLoop_none {orig : BBRef} (front rest : List BBRef) {passed : Nat} (less : passed ≤ front.length)
    (nodup : (front ++ orig :: rest).Nodup) :
    ∃ blocks, replaceLoop orig none ((front ++ orig :: rest).length - passed) passed (front ++ orig :: rest)
        = blocks ∧ blocks.Nodup ∧ ∀ x, x ∈ blocks ↔ x ∈ front ++ orig :: rest ∧ x ≠ orig := by
  have notFront : orig ∉ front := by
    intro inFront
    exact (nodup_append.1 nodup).2.2 orig inFront orig mem_cons_self rfl
  have notRest : orig ∉ rest := (nodup_cons.1 (nodup_append.1 nodup).2.1).1
  induction rounds : front.length - passed generalizing passed with
  | zero =>
    have here : passed = front.length := by omega
    have enough : (front ++ orig :: rest).length - passed = rest.length + 1 := by
      simp [here]
    rw [enough, replaceLoop]
    have found : (front ++ orig :: rest)[passed]? = some orig := by
      rw [here, getElem?_append_right (Nat.le_refl _)]
      simp
    rw [if_pos found]
    have replaced : (front ++ orig :: rest).set passed ((front ++ orig :: rest).getLastD orig)
        = front ++ (front ++ orig :: rest).getLastD orig :: rest := by
      rw [here, set_append_right _ _ (Nat.le_refl _)]
      simp
    rw [replaced]
    -- Either the block is the last one, or the last one takes its place.
    rcases eq_nil_or_concat rest with isNil | ⟨init, last, isConcat⟩
    · subst isNil
      rw [dropLast_concat, replaceLoop_of_not_mem _ _ notFront]
      refine ⟨front, rfl, (nodup_append.1 nodup).1, ?_⟩
      intro x
      constructor
      · intro inFront
        exact ⟨mem_append_left _ inFront, fun same => notFront (same ▸ inFront)⟩
      · rintro ⟨inAll, other⟩
        rcases mem_append.1 inAll with inFront | isOrig
        · exact inFront
        · exact absurd (mem_singleton.1 isOrig) other
    · subst isConcat
      have lastIs : (front ++ orig :: (init ++ [last])).getLastD orig = last := by
        have whole : front ++ orig :: (init ++ [last]) = (front ++ orig :: init) ++ [last] := by simp
        rw [whole, getLastD_concat]
      have dropped : (front ++ last :: (init ++ [last])).dropLast = front ++ last :: init := by
        have whole : front ++ last :: (init ++ [last]) = (front ++ last :: init) ++ [last] := by simp
        rw [whole, dropLast_concat]
      have notIn : orig ∉ front ++ last :: init := by
        simp only [mem_append, mem_cons, concat_eq_append, not_mem_nil, or_false,
          not_or] at notRest ⊢
        exact ⟨notFront, notRest.2, notRest.1⟩
      rw [concat_eq_append, lastIs, dropped, replaceLoop_of_not_mem _ _ notIn]
      refine ⟨_, rfl, ?_, ?_⟩
      · rw [concat_eq_append] at nodup
        have whole : (front ++ (orig :: (init ++ [last]))).Perm (orig :: (front ++ last :: init)) := by
          have first : (front ++ orig :: (init ++ [last])).Perm (orig :: (front ++ (init ++ [last]))) :=
            perm_middle
          have second := perm_append_singleton last init
          exact first.trans ((second.append_left front).cons orig)
        exact (nodup_cons.1 ((whole.nodup_iff).1 nodup)).2
      · intro x
        constructor
        · intro inAll
          refine ⟨by grind, fun same => notIn (same ▸ by grind)⟩
        · grind
  | succ left ih =>
    have before : passed < front.length := by omega
    have enough : (front ++ orig :: rest).length - passed = (front ++ orig :: rest).length - (passed + 1) + 1 := by
      simp only [length_append, length_cons]
      omega
    have other : (front ++ orig :: rest)[passed]? ≠ some orig := by
      intro here
      rw [getElem?_append_left before] at here
      exact notFront (mem_of_getElem? here)
    rw [enough, replaceLoop, if_neg other]
    exact ih (by omega) (by omega)

/-- Without a replacement the loop takes a block out of an array without repetition. -/
theorem mem_replaceLoop_none (orig : BBRef) {blocks : List BBRef} (nodup : blocks.Nodup) :
    (replaceLoop orig none blocks.length 0 blocks).Nodup ∧
      ∀ x, x ∈ replaceLoop orig none blocks.length 0 blocks ↔ x ∈ blocks ∧ x ≠ orig := by
  by_cases inBlocks : orig ∈ blocks
  · obtain ⟨front, rest, rfl⟩ := append_of_mem inBlocks
    obtain ⟨result, isResult, resultNodup, members⟩ := replaceLoop_none front rest (Nat.zero_le _) nodup
    rw [Nat.sub_zero] at isResult
    rw [isResult]
    exact ⟨resultNodup, members⟩
  · rw [replaceLoop_of_not_mem _ _ inBlocks]
    refine ⟨nodup, fun x => ⟨fun inX => ⟨inX, fun same => inBlocks (same ▸ inX)⟩, And.left⟩⟩

theorem sameButEdges_replaceIn (cfg : Cfg) (b orig : BBRef) (repl : Option BBRef) :
    SameButEdges cfg (replaceInBlock cfg b orig repl) :=
  sameButEdges_setIn cfg b _

end Edges

end MonoRuntime.BranchOpts
