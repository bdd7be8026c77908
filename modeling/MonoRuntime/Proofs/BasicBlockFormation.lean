/-
Module: MonoRuntime.Proofs.BasicBlockFormation
Purpose: What the passes that form basic blocks keep: from each byte to the next one there is an edge or no
  block boundary, as far as control may pass there, and every branch edge hangs on a block of its
  instruction. A split moves the out-edges to the second half, which is where the instruction ends.
Trusted boundary: none
Main exports: InBlock
-/
import MonoRuntime.Proofs.BasicBlockSplit
import MonoRuntime.Metadata.IlControlFlow
import Mathlib.Data.List.Pairwise

namespace MonoRuntime.BasicBlock

open RedBlack Il

/-! ### Blocks and addresses -/

/-- The address is in the block. -/
def InBlock (h : BbHeap) (x : Nat) (bb : Ptr) : Prop :=
  bb < h.count ∧ h.start bb ≤ x ∧ (x : Int) < h.stop bb

/-- A block starts at the address. -/
def IsStart (h : BbHeap) (q : Nat) : Prop :=
  ∃ bb < h.count, h.start bb = q

/-- Control may pass from the address to the next one: a boundary between them has an edge. -/
def Flow (h : BbHeap) (x : Nat) : Prop :=
  ∀ b b', InBlock h x b → InBlock h (x + 1) b' → b = b' ∨ b' ∈ h.outBb b

/-- A block of the instruction `[p, r)` has an edge to the block that starts at `q`. -/
def BranchEdge (h : BbHeap) (p r q : Nat) : Prop :=
  ∃ x b b', p ≤ x ∧ x < r ∧ InBlock h x b ∧ b' < h.count ∧ h.start b' = q ∧ b' ∈ h.outBb b

/-- The blocks of a method of `n` bytes, with edges between them. -/
structure BbOk (n : Nat) (h : BbHeap) : Prop where
  valid : ∃ blocks t, BbValid n h blocks t
  outs : ∀ b < h.count, ∀ o ∈ h.outBb b, o < h.count

section Ok

variable {n : Nat} {h : BbHeap}

theorem BbOk.bounds (ok : BbOk n h) {bb : Ptr} (allocated : bb < h.count) :
    0 ≤ h.start bb ∧ h.start bb < h.stop bb ∧ h.stop bb ≤ n := by
  obtain ⟨_, _, valid⟩ := ok.valid
  exact valid.bounds bb allocated

theorem BbOk.apart (ok : BbOk n h) {b b' : Ptr} (allocated : b < h.count) (allocated' : b' < h.count) :
    b = b' ∨ h.stop b ≤ h.start b' ∨ h.stop b' ≤ h.start b := by
  obtain ⟨blocks, _, valid⟩ := ok.valid
  have pairs : blocks.Pairwise fun p q => h.stop p ≤ h.start q ∨ h.stop q ≤ h.start p :=
    valid.tiles.pairwise.imp Or.inl
  have symm : Std.Symm fun p q => h.stop p ≤ h.start q ∨ h.stop q ≤ h.start p :=
    ⟨fun _ _ apart => apart.symm⟩
  by_cases same : b = b'
  · exact Or.inl same
  · exact Or.inr (pairs.forall ((valid.members b).2 allocated) ((valid.members b').2 allocated') same)

theorem BbOk.unique (ok : BbOk n h) {x : Nat} {b b' : Ptr} (inB : InBlock h x b) (inB' : InBlock h x b') : b = b' := by
  obtain ⟨allocated, above, below⟩ := inB
  obtain ⟨allocated', above', below'⟩ := inB'
  rcases ok.apart allocated allocated' with same | before | before
  · exact same
  · omega
  · omega

theorem BbOk.covers (ok : BbOk n h) {x : Nat} (inside : x < n) : ∃ b, InBlock h x b := by
  obtain ⟨blocks, _, valid⟩ := ok.valid
  obtain ⟨b, member, isIn⟩ := valid.tiles.covers x (by omega) (by omega)
  exact ⟨b, (valid.members b).1 member, isIn⟩

theorem BbOk.first (ok : BbOk n h) : 0 < h.count ∧ h.start 0 = 0 := by
  obtain ⟨blocks, _, valid⟩ := ok.valid
  have isFirst := valid.first
  have tiles := valid.tiles
  cases blocks with
  | nil => cases isFirst
  | cons p rest =>
    cases isFirst
    exact ⟨(valid.members 0).1 List.mem_cons_self, tiles.1⟩

theorem BbOk.start_le (ok : BbOk n h) {x q : Nat} {b : Ptr} (inB : InBlock h x b)
    (isStart : IsStart h q) (before : q ≤ x) : (q : Int) ≤ h.start b := by
  obtain ⟨b', allocated', isStart'⟩ := isStart
  have bounds := ok.bounds allocated'
  rcases ok.apart inB.1 allocated' with rfl | apart | apart
  · omega
  · have := inB.2
    omega
  · omega

theorem BbOk.stop_le (ok : BbOk n h) {x q : Nat} {b : Ptr} (inB : InBlock h x b)
    (isStart : IsStart h q ∨ n ≤ q) (before : x < q) : h.stop b ≤ q := by
  rcases isStart with ⟨b', allocated', isStart'⟩ | outside
  · have bounds := ok.bounds allocated'
    rcases ok.apart inB.1 allocated' with rfl | apart | apart
    · have := inB.2
      omega
    · omega
    · have := inB.2
      omega
  · have := ok.bounds inB.1
    omega

theorem BbOk.flow_of_outside (ok : BbOk n h) {x : Nat} (outside : n ≤ x + 1) : Flow h x := by
  intro b b' _ inB'
  have bounds := ok.bounds inB'.1
  have := inB'.2
  omega

end Ok

/-! ### What a split does to addresses -/

/-- What a `bb_split` at `t` does, as seen from the addresses. -/
structure SplitView (n : Nat) (h : BbHeap) (t : Nat) (linkBlocks : Bool) (h' : BbHeap) (res : Ptr) :
    Prop where
  ok : BbOk n h'
  inside : t < n
  isBlock : res < h'.count
  isStart : h'.start res = t
  grows : h.count ≤ h'.count
  starts : ∀ b < h.count, h'.start b = h.start b
  shrinks : ∀ b < h.count, ∀ x, InBlock h' x b → InBlock h x b
  newShrinks : ∀ b x, InBlock h t b → InBlock h' x res → InBlock h x b
  keeps : ∀ b x, InBlock h x b → x < t ∨ (t : Int) ≤ h.start b → InBlock h' x b
  moves : ∀ b x, InBlock h x b → InBlock h t b → t ≤ x → InBlock h' x res
  dead : ∀ b < h.count, h'.dead b = h.dead b
  flow : ∀ x, Flow h x → linkBlocks = true ∨ x + 1 ≠ t → Flow h' x
  branch : ∀ p r q, BranchEdge h p r q → IsStart h r ∨ n ≤ r → linkBlocks = true ∨ ¬ (p < t ∧ t < r) →
    BranchEdge h' p r q

theorem SplitView.start {n t : Nat} {h h' : BbHeap} {linkBlocks : Bool} {res : Ptr}
    (view : SplitView n h t linkBlocks h' res) {q : Nat} (isStart : IsStart h q) : IsStart h' q := by
  obtain ⟨b, allocated, isStart⟩ := isStart
  have grows := view.grows
  exact ⟨b, Nat.lt_of_lt_of_le allocated grows, (view.starts b allocated).trans isStart⟩

theorem cutLinked_fields (h : BbHeap) (first : Ptr) (target : BitVec 32) (linkBlocks : Bool) (links : BbLinks) :
    let h' := { cutLinked h first target linkBlocks with links := links }
    h'.count = h.count + 1 ∧
      (∀ b, h'.start b = if b = h.count then target.toInt else h.start b) ∧
      (∀ b, h'.stop b = if b = first then target.toInt else if b = h.count then h.stop first
        else h.stop b) ∧
      (∀ b, h'.dead b = if b = h.count then true else h.dead b) ∧
      (∀ b, h'.outBb b = if b = first then (if linkBlocks then [h.count] else [])
        else if b = h.count then h.outBb first else h.outBb b) := by
  intro h'
  refine ⟨?_, fun b => ?_, fun b => ?_, fun b => ?_, fun b => ?_⟩
  all_goals
    simp only [h', cutLinked, bbLink, cutBb, Function.update_self, List.not_mem_nil, if_false]
    cases linkBlocks <;> simp only [if_true, if_false, Bool.false_eq_true, Function.update_apply]
  by_cases isFirst : b = first
  · rw [if_pos isFirst, if_pos isFirst]
  · rw [if_neg isFirst, if_neg isFirst, if_neg isFirst]

theorem SplitStep.view {n : Nat} {h h' : BbHeap} {target : BitVec 32} {linkBlocks : Bool} {res : Ptr} (ok : BbOk n h)
    (small : n < 2 ^ 31) (step : SplitStep h target linkBlocks h' res) (valid' : ∃ blocks t, BbValid n h' blocks t) :
    SplitView n h target.toNat linkBlocks h' res := by
  cases step with
  | found allocated isStart =>
    have bounds := ok.bounds allocated
    have inRes : InBlock h target.toNat res := ⟨allocated, by omega, by omega⟩
    exact
      { ok := ok
        inside := by omega
        isBlock := allocated
        isStart := isStart
        grows := Nat.le_refl _
        starts := fun _ _ => rfl
        shrinks := fun _ _ _ inB => inB
        newShrinks := fun b x inB isIn => ok.unique inB inRes ▸ isIn
        keeps := fun _ _ inB _ => inB
        moves := fun b x inB isIn _ => ok.unique isIn inRes ▸ inB
        dead := fun _ _ => rfl
        flow := fun _ flow _ => flow
        branch := fun _ _ _ edge _ _ => edge }
  | @cut first links allocated inside =>
    have bounds := ok.bounds allocated
    have isInt : target.toInt = target.toNat := BitVec.toInt_eq_toNat_of_lt (by omega)
    obtain ⟨count', start', stop', dead', out'⟩ := cutLinked_fields h first target linkBlocks links
    generalize ({ cutLinked h first target linkBlocks with links := links } : BbHeap) = h'
      at valid' count' start' stop' dead' out'
    rw [isInt] at start' stop'
    generalize target.toNat = t at *
    have first_ne : first ≠ h.count := Nat.ne_of_lt allocated
    -- The three kinds of blocks: the new one, the one that was cut, and the others.
    have isNew : ∀ {x}, InBlock h' x h.count ↔ (t : Int) ≤ x ∧ (x : Int) < h.stop first := by
      intro x
      rw [InBlock, count', start', stop', if_pos rfl, if_neg (Ne.symm first_ne), if_pos rfl]
      simp
    have isCut : ∀ {x}, InBlock h' x first ↔ h.start first ≤ x ∧ (x : Int) < t := by
      intro x
      rw [InBlock, count', start', stop', if_neg first_ne, if_pos rfl]
      exact ⟨fun inB => inB.2, fun inB => ⟨Nat.lt_succ_of_lt allocated, inB⟩⟩
    have isOther : ∀ {x b}, b < h.count → b ≠ first → (InBlock h' x b ↔ InBlock h x b) := by
      intro x b old ne
      have ne_new : b ≠ h.count := Nat.ne_of_lt old
      rw [InBlock, InBlock, count', start', stop', if_neg ne_new, if_neg ne, if_neg ne_new]
      exact ⟨fun inB => ⟨old, inB.2⟩, fun inB => ⟨Nat.lt_succ_of_lt old, inB.2⟩⟩
    have inFirst : InBlock h t first := ⟨allocated, by omega, by omega⟩
    have outFirst : h'.outBb first = if linkBlocks then [h.count] else [] := by
      rw [out', if_pos rfl]
    have outNew : h'.outBb h.count = h.outBb first := by
      rw [out', if_neg (Ne.symm first_ne), if_pos rfl]
    have outOther : ∀ {b}, b < h.count → b ≠ first → h'.outBb b = h.outBb b := by
      intro b old ne
      rw [out', if_neg ne, if_neg (Nat.ne_of_lt old)]
    have startOld : ∀ b < h.count, h'.start b = h.start b := by
      intro b old
      rw [start', if_neg (Nat.ne_of_lt old)]
    have cases : ∀ {x b}, InBlock h' x b →
        (b = h.count ∧ (t : Int) ≤ x ∧ (x : Int) < h.stop first) ∨
          (b = first ∧ h.start first ≤ x ∧ (x : Int) < t) ∨
          (b < h.count ∧ b ≠ first ∧ InBlock h x b) := by
      intro x b inB
      have below := inB.1
      rw [count'] at below
      rcases Nat.lt_succ_iff_lt_or_eq.1 below with old | rfl
      · by_cases same : b = first
        · subst same
          exact Or.inr (Or.inl ⟨rfl, isCut.1 inB⟩)
        · exact Or.inr (Or.inr ⟨old, same, (isOther old same).1 inB⟩)
      · exact Or.inl ⟨rfl, isNew.1 inB⟩
    have ok' : BbOk n h' := by
      refine ⟨valid', fun b below o member => ?_⟩
      rw [count'] at below ⊢
      have old : ∀ c < h.count, o ∈ h.outBb c → o < h.count + 1 :=
        fun c isOld isOut => Nat.lt_succ_of_lt (ok.outs c isOld o isOut)
      rcases Nat.lt_succ_iff_lt_or_eq.1 below with isOld | rfl
      · by_cases same : b = first
        · subst same
          rw [outFirst] at member
          cases linkBlocks with
          | true =>
            rw [if_pos rfl, List.mem_singleton] at member
            exact member ▸ Nat.lt_succ_self _
          | false => cases member
        · rw [outOther isOld same] at member
          exact old b isOld member
      · rw [outNew] at member
        exact old first allocated member
    refine
      { ok := ok'
        inside := by omega
        isBlock := by rw [count']; exact Nat.lt_succ_self _
        isStart := by rw [start', if_pos rfl]
        grows := by rw [count']; exact Nat.le_succ _
        starts := startOld
        shrinks := ?_
        newShrinks := ?_
        keeps := ?_
        moves := ?_
        dead := fun b old => by rw [dead', if_neg (Nat.ne_of_lt old)]
        flow := ?_
        branch := ?_ }
    · intro b old x inB
      by_cases same : b = first
      · subst same
        have := isCut.1 inB
        exact ⟨allocated, this.1, by omega⟩
      · exact (isOther old same).1 inB
    · intro b x inB isIn
      have same := ok.unique inB inFirst
      subst same
      have := isNew.1 isIn
      exact ⟨allocated, by omega, this.2⟩
    · intro b x inB away
      by_cases same : b = first
      · subst same
        have := inB.2
        exact isCut.2 ⟨this.1, by omega⟩
      · exact (isOther inB.1 same).2 inB
    · intro b x inB isIn after
      have same := ok.unique isIn inFirst
      subst same
      exact isNew.2 ⟨by omega, inB.2.2⟩
    · intro x flow crosses b b' inB inB'
      rcases cases inB with ⟨rfl, low, high⟩ | ⟨rfl, low, high⟩ | ⟨old, ne, inOld⟩
      · -- The out-edges of the cut block are those of its second half.
        have was : InBlock h x first := ⟨allocated, by omega, high⟩
        rcases cases inB' with ⟨rfl, _⟩ | ⟨rfl, _, before⟩ | ⟨old', ne', inOld'⟩
        · exact Or.inl rfl
        · omega
        · rcases flow first b' was inOld' with same | member
          · exact absurd same.symm ne'
          · exact Or.inr (outNew ▸ member)
      · have was : InBlock h x b := ⟨allocated, low, by omega⟩
        rcases cases inB' with ⟨rfl, after, _⟩ | ⟨rfl, _⟩ | ⟨old', ne', inOld'⟩
        · -- The boundary is the new one.
          right
          have linked : linkBlocks = true := by
            rcases crosses with linked | ne
            · exact linked
            · omega
          rw [outFirst, if_pos linked]
          exact List.mem_singleton_self _
        · exact Or.inl rfl
        · have inFirst' : InBlock h (x + 1) b := ⟨allocated, by omega, by omega⟩
          exact absurd (ok.unique inOld' inFirst') ne'
      · rcases cases inB' with ⟨rfl, after, high⟩ | ⟨rfl, low, _⟩ | ⟨old', ne', inOld'⟩
        · have both : InBlock h (x + 1) first := ⟨allocated, by omega, high⟩
          have above : h.start first ≤ x := by omega
          exact absurd (ok.unique inOld ⟨allocated, above, by omega⟩) ne
        · have was : InBlock h (x + 1) b' := ⟨allocated, low, by omega⟩
          rcases flow b b' inOld was with same | member
          · exact Or.inl same
          · exact Or.inr (outOther old ne ▸ member)
        · rcases flow b b' inOld inOld' with same | member
          · exact Or.inl same
          · exact Or.inr (outOther old ne ▸ member)
    · rintro p r q ⟨x, b, b', low, high, inB, old', isStart, member⟩ boundary crosses
      have target : b' < h'.count ∧ h'.start b' = q := by
        rw [count', startOld b' old']
        exact ⟨Nat.lt_succ_of_lt old', isStart⟩
      by_cases same : b = first
      · subst same
        by_cases before : (x : Int) < t
        · -- The edge moves to the second half, which is in the instruction as well.
          have stops := ok.stop_le inB boundary high
          have crossing : p < t ∧ t < r := by omega
          rcases crosses with linked | notInside
          · exact ⟨t, h.count, b', by omega, crossing.2, isNew.2 ⟨by omega, inFirst.2.2⟩, target.1,
              target.2, outNew ▸ member⟩
          · exact absurd crossing notInside
        · exact ⟨x, h.count, b', low, high, isNew.2 ⟨by omega, inB.2.2⟩, target.1, target.2,
            outNew ▸ member⟩
      · exact ⟨x, b, b', low, high, (isOther inB.1 same).2 inB, target.1, target.2,
          outOther inB.1 same ▸ member⟩

/-! ### What linking does -/

/-- The heap with other out-edges or other marks. -/
structure SameBlocks (h h' : BbHeap) : Prop where
  links : h'.links = h.links
  next : h'.next = h.next
  start : h'.start = h.start
  stop : h'.stop = h.stop
  count : h'.count = h.count

section SameBlocks

variable {n : Nat} {h h' : BbHeap}

theorem SameBlocks.inBlock (same : SameBlocks h h') (x : Nat) (b : Ptr) : InBlock h' x b ↔ InBlock h x b := by
  rw [InBlock, InBlock, same.count, same.start, same.stop]

theorem SameBlocks.isStart (same : SameBlocks h h') (q : Nat) : IsStart h' q ↔ IsStart h q := by
  rw [IsStart, IsStart, same.count, same.start]

theorem SameBlocks.ok (same : SameBlocks h h') (ok : BbOk n h)
    (outs : ∀ b < h.count, ∀ o ∈ h'.outBb b, o < h.count) : BbOk n h' := by
  obtain ⟨blocks, t, valid⟩ := ok.valid
  refine ⟨⟨blocks, t, valid.first, ?_, ?_, ?_, ?_, valid.inorder⟩, ?_⟩
  · rw [same.next]
    exact valid.chained
  · rw [same.count]
    exact valid.members
  · rw [same.start, same.stop]
    exact valid.tiles
  · rw [same.start, same.links]
    exact valid.tree
  · rw [same.count]
    exact outs

end SameBlocks

theorem sameBlocks_setDead (h : BbHeap) (bb : Ptr) (dead : Bool) : SameBlocks h (setDead h bb dead) :=
  ⟨rfl, rfl, rfl, rfl, rfl⟩

theorem sameBlocks_bbUnlink (h : BbHeap) (fromBb toBb : Ptr) : SameBlocks h (bbUnlink h fromBb toBb) :=
  ⟨rfl, rfl, rfl, rfl, rfl⟩

theorem sameBlocks_bbLink (h : BbHeap) (fromBb toBb : Ptr) : SameBlocks h (bbLink h fromBb toBb) := by
  unfold bbLink
  split
  · exact ⟨rfl, rfl, rfl, rfl, rfl⟩
  · exact ⟨rfl, rfl, rfl, rfl, rfl⟩

theorem dead_bbLink (h : BbHeap) (fromBb toBb : Ptr) : (bbLink h fromBb toBb).dead = h.dead := by
  unfold bbLink
  split <;> rfl

theorem mem_bbLink (h : BbHeap) (fromBb toBb b o : Ptr) :
    o ∈ (bbLink h fromBb toBb).outBb b ↔ o ∈ h.outBb b ∨ (b = fromBb ∧ o = toBb) := by
  unfold bbLink
  split
  next linked =>
    refine ⟨Or.inl, ?_⟩
    rintro (old | ⟨rfl, rfl⟩)
    · exact old
    · exact linked
  next =>
    simp only [Function.update_apply]
    split
    next same =>
      rw [List.mem_cons, same]
      tauto
    next => tauto

theorem outBb_bbUnlink (h : BbHeap) (fromBb toBb b : Ptr) : (bbUnlink h fromBb toBb).outBb b
    = if b = fromBb then (h.outBb fromBb).erase toBb else h.outBb b :=
  Function.update_apply _ _ _ _

theorem mem_bbUnlink {h : BbHeap} (fromBb toBb : Ptr) {b o : Ptr} (member : o ∈ h.outBb b) :
    (b = fromBb ∧ o = toBb) ∨ o ∈ (bbUnlink h fromBb toBb).outBb b := by
  rw [outBb_bbUnlink]
  split
  next same =>
    subst same
    by_cases removed : o = toBb
    · exact Or.inl ⟨rfl, removed⟩
    · exact Or.inr ((List.mem_erase_of_ne removed).2 member)
  next => exact Or.inr member

theorem mem_of_mem_bbUnlink {h : BbHeap} {fromBb toBb b o : Ptr}
    (member : o ∈ (bbUnlink h fromBb toBb).outBb b) : o ∈ h.outBb b := by
  rw [outBb_bbUnlink] at member
  split at member
  next same =>
    subst same
    exact List.mem_of_mem_erase member
  next => exact member

section Edges

variable {n : Nat} {h h' : BbHeap}

variable {x p r q : Nat} {fromBb toBb : Ptr}

theorem SameBlocks.flow (same : SameBlocks h h') (flow : Flow h x)
    (more : ∀ b o, InBlock h x b → InBlock h (x + 1) o → o ∈ h.outBb b → o ∈ h'.outBb b) : Flow h' x := by
  intro b b' inB inB'
  rw [same.inBlock] at inB inB'
  rcases flow b b' inB inB' with eq | member
  · exact Or.inl eq
  · exact Or.inr (more b b' inB inB' member)

theorem SameBlocks.branch (same : SameBlocks h h') (edge : BranchEdge h p r q)
    (more : ∀ x b o, p ≤ x → x < r → InBlock h x b → o < h.count → h.start o = q → o ∈ h.outBb b →
      o ∈ h'.outBb b) : BranchEdge h' p r q := by
  obtain ⟨x, b, b', low, high, inB, old, isStart, member⟩ := edge
  refine ⟨x, b, b', low, high, (same.inBlock x b).2 inB, ?_, ?_,
    more x b b' low high inB old isStart member⟩
  · rw [same.count]
    exact old
  · rw [same.start]
    exact isStart

theorem BbOk.link (ok : BbOk n h) (allocated : toBb < h.count) : BbOk n (bbLink h fromBb toBb) := by
  refine (sameBlocks_bbLink h fromBb toBb).ok ok fun b below o member => ?_
  rcases (mem_bbLink h fromBb toBb b o).1 member with old | ⟨_, rfl⟩
  · exact ok.outs b below o old
  · exact allocated

theorem Flow.link (flow : Flow h x) (fromBb toBb : Ptr) : Flow (bbLink h fromBb toBb) x :=
  (sameBlocks_bbLink h fromBb toBb).flow flow fun b o _ _ member =>
    (mem_bbLink h fromBb toBb b o).2 (Or.inl member)

theorem BranchEdge.link (edge : BranchEdge h p r q) (fromBb toBb : Ptr) : BranchEdge (bbLink h fromBb toBb) p r q :=
  (sameBlocks_bbLink h fromBb toBb).branch edge fun _ b o _ _ _ _ _ member =>
    (mem_bbLink h fromBb toBb b o).2 (Or.inl member)

theorem branchEdge_link (before : p < r) (inB : InBlock h p fromBb)
    (allocated : toBb < h.count) (isStart : h.start toBb = q) : BranchEdge (bbLink h fromBb toBb) p r q := by
  have same := sameBlocks_bbLink h fromBb toBb
  refine ⟨p, fromBb, toBb, Nat.le_refl _, before, (same.inBlock p fromBb).2 inB, ?_, ?_,
    (mem_bbLink h fromBb toBb fromBb toBb).2 (Or.inr ⟨rfl, rfl⟩)⟩
  · rw [same.count]
    exact allocated
  · rw [same.start]
    exact isStart

theorem BbOk.unlink (ok : BbOk n h) (fromBb toBb : Ptr) : BbOk n (bbUnlink h fromBb toBb) :=
  (sameBlocks_bbUnlink h fromBb toBb).ok ok fun b below o member =>
    ok.outs b below o (mem_of_mem_bbUnlink member)

theorem Flow.unlink (ok : BbOk n h) (flow : Flow h x)
    (allocated : toBb < h.count) (isStart : h.start toBb = r) (other : x + 1 ≠ r) : Flow (bbUnlink h fromBb toBb) x := by
  have same := sameBlocks_bbUnlink h fromBb toBb
  intro b b' inB inB'
  rw [same.inBlock] at inB inB'
  rcases flow b b' inB inB' with eq | member
  · exact Or.inl eq
  · rcases mem_bbUnlink fromBb toBb member with ⟨_, rfl⟩ | kept
    · -- Both addresses are in the block at `r`.
      have inside : InBlock h x b' := ⟨allocated, by have := inB'.2; omega, by have := inB'.2; omega⟩
      exact Or.inl (ok.unique inB inside)
    · exact Or.inr kept

theorem BranchEdge.unlink (edge : BranchEdge h p r q)
    (other : ∀ x, p ≤ x → x < r → InBlock h x fromBb → h.start toBb = q → False) :
    BranchEdge (bbUnlink h fromBb toBb) p r q := by
  refine (sameBlocks_bbUnlink h fromBb toBb).branch edge fun x b o low high inB _ isStart member => ?_
  rcases mem_bbUnlink fromBb toBb member with ⟨rfl, rfl⟩ | kept
  · exact absurd isStart (other x low high inB)
  · exact kept

end Edges

/-! ### Splitting as a computation -/

theorem callSplit_triple {n : Nat} {P : BbHeap → Prop} {Q : Ptr → BbHeap → Prop} {hint : Ptr}
    {target : BitVec 32} {linkBlocks : Bool} (small : n < 2 ^ 31) (ok : ∀ h, P h → BbOk n h ∧ hint < h.count)
    (post : ∀ h h' res, P h → SplitView n h target.toNat linkBlocks h' res → Q res h') :
    Fallible.Triple P (callSplit hint target linkBlocks) Q := by
  intro h start
  obtain ⟨isOk, isHint⟩ := ok h start
  obtain ⟨blocks, t, valid⟩ := isOk.valid
  obtain ⟨fails, succeeds⟩ := bbSplit_spec target linkBlocks valid (by omega) isHint
  by_cases inside : (target.toNat : Int) < n
  · obtain ⟨h', res, blocks', t', run, step, valid'⟩ := succeeds inside
    refine ⟨h', .ok res, run, fun a isRes => ?_⟩
    cases isRes
    exact post h h' res start (step.view isOk small ⟨blocks', t', valid'⟩)
  · exact ⟨h, _, fails (by omega), fun a isRes => by cases isRes⟩

end MonoRuntime.BasicBlock
