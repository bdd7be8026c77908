/-
Module: MonoRuntime.Proofs.BasicBlockSplit
Purpose: After any sequence of `bb_split` calls the list of blocks tiles the code, the tree is a balanced
  search tree over the same blocks, and `bb_split` finds or makes the block at its target exactly when
  the target is inside the code.
Trusted boundary: none
Main exports: bbSplit_correct
-/
import MonoRuntime.Proofs.BasicBlockTree

namespace MonoRuntime.BasicBlock

open RedBlack List Function

/-! ### Well-formed lists of blocks -/

/-- The blocks are chained by the field `next`, and the last one ends the chain. -/
def Chained (next : Ptr → Option Ptr) : List Ptr → Prop
  | [] => True
  | p :: rest => next p = rest.head? ∧ Chained next rest

/-- The blocks are non-empty intervals, one after the other, from `low` to `high`. -/
def Tiles (start stop : Ptr → Int) : (low : Int) → List Ptr → (high : Int) → Prop
  | low, [], high => low = high
  | low, p :: rest, high => start p = low ∧ start p < stop p ∧ Tiles start stop (stop p) rest high

/-- The blocks of a method of `codeSize` bytes: the list from the first block tiles the code, and the tree
below `*root` is a balanced search tree over exactly the blocks of the list. -/
structure BbValid (codeSize : Int) (h : BbHeap) (blocks : List Ptr) (t : ColourTree Ptr) : Prop where
  first : blocks.head? = some 0
  chained : Chained h.next blocks
  members : ∀ p, p ∈ blocks ↔ p < h.count
  tiles : Tiles h.start h.stop 0 blocks codeSize
  tree : RbTree h.start h.links t
  inorder : t.inorder = blocks

section Tiles

variable {start stop : Ptr → Int}

theorem Tiles.bounds : ∀ {blocks : List Ptr} {low high : Int}, Tiles start stop low blocks high →
    low ≤ high ∧ ∀ p ∈ blocks, low ≤ start p ∧ start p < stop p ∧ stop p ≤ high
  | [], low, high, tiles => ⟨Int.le_of_eq tiles, fun _ member => by cases member⟩
  | p :: rest, low, high, ⟨isStart, nonempty, tiles⟩ => by
      obtain ⟨ordered, inRest⟩ := tiles.bounds
      refine ⟨by omega, fun q member => ?_⟩
      rcases mem_cons.1 member with rfl | inner
      · omega
      · have := inRest q inner
        omega

theorem Tiles.pairwise : ∀ {blocks : List Ptr} {low high : Int}, Tiles start stop low blocks high →
    blocks.Pairwise fun p q => stop p ≤ start q
  | [], _, _, _ => List.Pairwise.nil
  | _ :: _, _, _, ⟨_, _, tiles⟩ =>
    pairwise_cons.2 ⟨fun q member => (tiles.bounds.2 q member).1, tiles.pairwise⟩

theorem Tiles.sorted {blocks : List Ptr} {low high : Int} (tiles : Tiles start stop low blocks high) :
    blocks.Pairwise fun p q => start p < start q := by
  refine List.Pairwise.imp_of_mem (fun {p q} inP _ le => ?_) tiles.pairwise
  have := tiles.bounds.2 p inP
  omega

theorem Tiles.covers : ∀ {blocks : List Ptr} {low high : Int}, Tiles start stop low blocks high →
    ∀ z, low ≤ z → z < high → ∃ p ∈ blocks, start p ≤ z ∧ z < stop p
  | [], low, high, tiles, z, above, below => by
      have : low = high := tiles
      omega
  | p :: rest, low, high, ⟨isStart, _, tiles⟩, z, above, below => by
      by_cases inside : z < stop p
      · exact ⟨p, mem_cons_self, by omega, inside⟩
      · obtain ⟨q, member, isIn⟩ := tiles.covers z (by omega) below
        exact ⟨q, mem_cons_of_mem _ member, isIn⟩

theorem Tiles.congr {start' stop' : Ptr → Int} : ∀ {blocks : List Ptr} {low high : Int},
    Tiles start stop low blocks high → (∀ p ∈ blocks, start' p = start p ∧ stop' p = stop p) →
      Tiles start' stop' low blocks high
  | [], _, _, tiles, _ => tiles
  | p :: rest, low, high, ⟨isStart, nonempty, tiles⟩, same => by
      obtain ⟨sameStart, sameStop⟩ := same p mem_cons_self
      refine ⟨by rw [sameStart, isStart], by rw [sameStart, sameStop]; exact nonempty, ?_⟩
      rw [sameStop]
      exact tiles.congr fun q member => same q (mem_cons_of_mem _ member)

theorem Tiles.suffix {rest : List Ptr} {high : Int} : ∀ {pre : List Ptr} {low : Int},
    Tiles start stop low (pre ++ rest) high → ∃ low', Tiles start stop low' rest high
  | [], low, tiles => ⟨low, tiles⟩
  | _ :: _, _, ⟨_, _, tiles⟩ => tiles.suffix

theorem Tiles.cut {start' stop' : Ptr → Int} {p res : Ptr} (cut : Int) {post : List Ptr}
    (isIn : start p < cut ∧ cut < stop p) (sameStart : start' p = start p) (isStop : stop' p = cut)
    (isStart : start' res = cut) (sameStop : stop' res = stop p) :
    ∀ {pre : List Ptr} {low high : Int}, Tiles start stop low (pre ++ p :: post) high →
      (∀ q ∈ pre ++ post, start' q = start q ∧ stop' q = stop q) → Tiles start' stop' low (pre ++ p :: res :: post) high
  | [], low, high, ⟨low_eq, _, tiles⟩, same => by
      refine ⟨sameStart.trans low_eq, by omega, isStart.trans isStop.symm, by omega, ?_⟩
      rw [sameStop]
      exact tiles.congr same
  | q :: pre, low, high, ⟨low_eq, nonempty, tiles⟩, same => by
      obtain ⟨startQ, stopQ⟩ := same q mem_cons_self
      refine ⟨startQ.trans low_eq, by omega, ?_⟩
      rw [stopQ]
      exact Tiles.cut cut isIn sameStart isStop isStart sameStop tiles
        fun r member => same r (mem_cons_of_mem _ member)

end Tiles

theorem Chained.congr {next next' : Ptr → Option Ptr} : ∀ {blocks : List Ptr}, Chained next blocks →
    (∀ p ∈ blocks, next' p = next p) → Chained next' blocks
  | [], _, _ => trivial
  | p :: _, ⟨isNext, chained⟩, same =>
    ⟨(same p mem_cons_self).trans isNext,
      chained.congr fun q member => same q (mem_cons_of_mem _ member)⟩

theorem Chained.cut {next next' : Ptr → Option Ptr} {p res : Ptr} {post : List Ptr} (isNext : next' p = some res)
    (resNext : next' res = next p) :
    ∀ {pre : List Ptr}, Chained next (pre ++ p :: post) → (∀ q ∈ pre ++ post, next' q = next q) →
      Chained next' (pre ++ p :: res :: post)
  | [], ⟨wasNext, chained⟩, same => ⟨isNext, resNext.trans wasNext, chained.congr same⟩
  | q :: pre, ⟨wasNext, chained⟩, same => by
      refine ⟨(same q mem_cons_self).trans (wasNext.trans ?_),
        Chained.cut isNext resNext chained fun r member => same r (mem_cons_of_mem _ member)⟩
      cases pre <;> rfl

theorem Chained.suffix {next : Ptr → Option Ptr} {rest : List Ptr} : ∀ {pre : List Ptr},
    Chained next (pre ++ rest) → Chained next rest
  | [], chained => chained
  | _ :: _, ⟨_, chained⟩ => Chained.suffix chained

theorem Chained.mem {next : Ptr → Option Ptr} {p q : Ptr} : ∀ {blocks : List Ptr}, Chained next blocks →
    p ∈ blocks → next p = some q → q ∈ blocks
  | r :: rest, ⟨isNext, chained⟩, member, hasNext => by
      rcases mem_cons.1 member with rfl | inner
      · rw [isNext] at hasNext
        exact mem_cons_of_mem _ (mem_of_mem_head? hasNext)
      · exact mem_cons_of_mem _ (chained.mem inner hasNext)

/-! ### Finding a block -/

/-- The target is in the block. -/
def Within (h : BbHeap) (bb : Ptr) (target : BitVec 32) : Prop :=
  h.start bb ≤ target.toNat ∧ (target.toNat : Int) < h.stop bb

/-- The signed comparison of `bb_idx_is_contained` is right for blocks below `2 ^ 31`. -/
theorem contained_iff {h : BbHeap} {bb : Ptr} (target : BitVec 32) (nonneg : 0 ≤ h.start bb)
    (small : h.stop bb < 2 ^ 31) : bbIdxIsContained h bb target.toInt = true ↔ Within h bb target := by
  simp only [bbIdxIsContained, Within, decide_eq_true_eq]
  rw [BitVec.toInt_eq_toNat_cond]
  split <;> omega

theorem asGuint_of_nonneg {value : Int} (nonneg : 0 ≤ value) (small : value < 2 ^ 31) : (asGuint value : Int) = value := by
  rw [asGuint, BitVec.toNat_ofInt]
  omega

/-- The search in the tree finds the block of the target if there is one: the induction is on the tree
below the block it has reached. -/
theorem searchLoop_spec (h : BbHeap) (target : BitVec 32) : ∀ (t : ColourTree Ptr) (fuel : Nat)
    {owner : Option Ptr} {p : Ptr}, t.inorder.length ≤ fuel → t.root = some p → Rep h.links owner t →
      (∀ x ∈ t.inorder, 0 ≤ h.start x ∧ h.start x < h.stop x ∧ h.stop x < 2 ^ 31) →
        t.inorder.Pairwise (fun x y => h.stop x ≤ h.start y) →
          ∃ found, searchLoop h target fuel p = some found ∧ (∀ x, found = some x → x ∈ t.inorder ∧ Within h x target) ∧
            (found = none → ∀ x ∈ t.inorder, ¬ Within h x target)
  | .nil, _, _, _, _, isRoot, _, _, _ => by cases isRoot
  | .node colour left p right, 0, _, _, short, _, _, _, _ => by simp [ColourTree.inorder] at short
  | .node colour left p right, fuel + 1, owner, q, short, isRoot, rep, bounds, apart => by
      cases isRoot
      obtain ⟨_, isLeft, isRight, repLeft, repRight⟩ := rep
      simp only [ColourTree.inorder, length_append, length_cons] at short
      simp only [ColourTree.inorder, pairwise_append, pairwise_cons, mem_cons] at apart
      simp only [ColourTree.inorder, mem_append, mem_cons] at bounds ⊢
      obtain ⟨apartLeft, ⟨p_right, apartRight⟩, left_rest⟩ := apart
      have here := bounds p (Or.inr (Or.inl rfl))
      have contained := contained_iff target here.1 here.2.2
      by_cases within : Within h p target
      · refine ⟨some p, by simp only [searchLoop, if_pos (contained.2 within)], ?_, fun none => by cases none⟩
        rintro x ⟨⟩
        exact ⟨Or.inr (Or.inl rfl), within⟩
      · have unsigned := asGuint_of_nonneg here.1 (by omega)
        rw [searchLoop, if_neg fun isIn => within (contained.1 isIn)]
        simp only [Within, not_and] at within
        by_cases less : asGuint (h.start p) > target.toNat
        · -- The blocks from `p` on start behind the target.
          have notLater : ∀ x, x = p ∨ x ∈ right.inorder → ¬ Within h x target := by
            rintro x (rfl | inRight) ⟨le, _⟩
            · omega
            · have := p_right x inRight
              omega
          rw [searchChild, if_pos less, isLeft]
          cases left with
          | nil =>
            refine ⟨none, rfl, fun x found => (by cases found), fun _ x member => ?_⟩
            rcases member with inLeft | later
            · cases inLeft
            · exact notLater x later
          | node c l child r =>
            obtain ⟨found, run, sound, complete⟩ := searchLoop_spec h target (.node c l child r) fuel
              (by omega) rfl repLeft (fun x member => bounds x (Or.inl member)) apartLeft
            refine ⟨found, run, fun x isFound => ⟨Or.inl (sound x isFound).1, (sound x isFound).2⟩, ?_⟩
            intro isNone x member
            rcases member with inLeft | later
            · exact complete isNone x inLeft
            · exact notLater x later
        · -- The blocks up to `p` end before the target.
          have notEarlier : ∀ x, x ∈ left.inorder ∨ x = p → ¬ Within h x target := by
            rintro x (inLeft | rfl) ⟨_, lt⟩
            · have := left_rest x inLeft p (Or.inl rfl)
              omega
            · exact within (by omega) lt
          rw [searchChild, if_neg less, isRight]
          cases right with
          | nil =>
            refine ⟨none, rfl, fun x found => (by cases found), fun _ x member => ?_⟩
            rcases member with inLeft | rfl | inRight
            · exact notEarlier x (Or.inl inLeft)
            · exact notEarlier x (Or.inr rfl)
            · cases inRight
          | node c l child r =>
            obtain ⟨found, run, sound, complete⟩ := searchLoop_spec h target (.node c l child r) fuel
              (by omega) rfl repRight (fun x member => bounds x (Or.inr (Or.inr member))) apartRight
            refine ⟨found, run,
              fun x isFound => ⟨Or.inr (Or.inr (sound x isFound).1), (sound x isFound).2⟩, ?_⟩
            intro isNone x member
            rcases member with inLeft | rfl | inRight
            · exact notEarlier x (Or.inl inLeft)
            · exact notEarlier x (Or.inr rfl)
            · exact complete isNone x inRight

section Valid

variable {codeSize : Int} {h : BbHeap} {blocks : List Ptr} {t : ColourTree Ptr} {hint : Ptr}
  {target : BitVec 32}

theorem BbValid.bounds (valid : BbValid codeSize h blocks t) (p : Ptr) (allocated : p < h.count) :
    0 ≤ h.start p ∧ h.start p < h.stop p ∧ h.stop p ≤ codeSize :=
  valid.tiles.bounds.2 p ((valid.members p).2 allocated)

theorem BbValid.nodup (valid : BbValid codeSize h blocks t) : blocks.Nodup :=
  valid.inorder ▸ valid.tree.nodup

theorem BbValid.length (valid : BbValid codeSize h blocks t) : blocks.length = h.count := by
  have perm : blocks.Perm (List.range h.count) :=
    (perm_ext_iff_of_nodup valid.nodup nodup_range).2 fun p => by
      rw [valid.members, mem_range]
  rw [perm.length_eq, length_range]

theorem findBb_spec (target : BitVec 32) (valid : BbValid codeSize h blocks t) (small : codeSize < 2 ^ 31)
    (isHint : hint < h.count) : ∃ found, findBb h hint target = some found ∧
      (∀ x, found = some x → x < h.count ∧ Within h x target) ∧ (found = none → codeSize ≤ target.toNat) := by
  have contained : ∀ p < h.count, bbIdxIsContained h p target.toInt = true ↔ Within h p target := by
    intro p allocated
    have := valid.bounds p allocated
    exact contained_iff target this.1 (by omega)
  have length : t.inorder.length = h.count := by rw [valid.inorder, valid.length]
  have search : ∃ found, searchLoop h target (h.count + 1) h.links.root = some found ∧
      (∀ x, found = some x → x < h.count ∧ Within h x target) ∧
      (found = none → codeSize ≤ target.toNat) := by
    obtain ⟨found, run, sound, complete⟩ := searchLoop_spec h target t (h.count + 1)
      (by omega) valid.tree.rep.2 valid.tree.rep.1
      (fun x member => by
        rw [valid.inorder, valid.members] at member
        have := valid.bounds x member
        omega)
      (by rw [valid.inorder]; exact valid.tiles.pairwise)
    rw [valid.inorder] at sound complete
    refine ⟨found, run, fun x isFound => ?_, fun isNone => ?_⟩
    · exact ⟨(valid.members x).1 (sound x isFound).1, (sound x isFound).2⟩
    · by_contra inside
      obtain ⟨x, member, isIn⟩ := valid.tiles.covers target.toNat (by omega) (by omega)
      exact complete isNone x member isIn
  by_cases atHint : Within h hint target
  · refine ⟨some hint, by rw [findBb, if_pos ((contained hint isHint).2 atHint)], ?_,
      fun none => by cases none⟩
    rintro x ⟨⟩
    exact ⟨isHint, atHint⟩
  · rw [findBb, if_neg fun isIn => atHint ((contained hint isHint).1 isIn)]
    cases isNext : h.next hint with
    | none => exact search
    | some next =>
      have allocated : next < h.count :=
        (valid.members next).1 (valid.chained.mem ((valid.members hint).2 isHint) isNext)
      dsimp only
      by_cases atNext : Within h next target
      · refine ⟨some next, by rw [if_pos ((contained next allocated).2 atNext)], ?_,
          fun none => by cases none⟩
        rintro x ⟨⟩
        exact ⟨allocated, atNext⟩
      · rw [if_neg fun isIn => atNext ((contained next allocated).1 isIn)]
        exact search

/-- The heap after the block `first` has been cut at the target, except for the tree. -/
def cutLinked (h : BbHeap) (first : Ptr) (target : BitVec 32) (linkBlocks : Bool) : BbHeap :=
  if linkBlocks then bbLink (cutBb h first target) first h.count else cutBb h first target

theorem cutLinked_eq (h : BbHeap) (first : Ptr) (target : BitVec 32) (linkBlocks : Bool) :
    ∃ outBb, cutLinked h first target linkBlocks = { cutBb h first target with outBb := outBb } := by
  unfold cutLinked bbLink
  split
  · split
    · exact ⟨_, rfl⟩
    · exact ⟨_, rfl⟩
  · exact ⟨_, rfl⟩

/-- What a successful `bb_split` does: it finds the block at the target, or it cuts the block `first`. -/
inductive SplitStep (h : BbHeap) (target : BitVec 32) (linkBlocks : Bool) : BbHeap → Ptr → Prop where
  | found {bb : Ptr} (allocated : bb < h.count) (isStart : h.start bb = target.toNat) :
      SplitStep h target linkBlocks h bb
  | cut {first : Ptr} {links : BbLinks} (allocated : first < h.count)
      (inside : h.start first < target.toNat ∧ (target.toNat : Int) < h.stop first) :
      SplitStep h target linkBlocks { cutLinked h first target linkBlocks with links := links } h.count

theorem cut_valid {first : Ptr} (valid : BbValid codeSize h blocks t) (small : codeSize < 2 ^ 31)
    (allocated : first < h.count) (inside : h.start first < target.toNat ∧ (target.toNat : Int) < h.stop first) :
    ∃ links blocks' t', bbInsert (cutBb h first target).start h.count (cutBb h first target).links h.count = some links ∧
      BbValid codeSize { cutBb h first target with links := links } blocks' t' := by
  have isInt : target.toInt = target.toNat := by
    have bounds := valid.bounds first allocated
    exact BitVec.toInt_eq_toNat_of_lt (by omega)
  obtain ⟨pre, post, isSplit⟩ := append_of_mem ((valid.members first).2 allocated)
  have fresh : h.count ∉ blocks := fun member => Nat.lt_irrefl _ ((valid.members _).1 member)
  have ne_fresh : ∀ x ∈ blocks, x ≠ h.count := fun x member same => fresh (same ▸ member)
  have nodup := valid.nodup
  rw [isSplit] at nodup ne_fresh
  have ne_first : ∀ x ∈ pre ++ post, x ≠ first := by
    intro x member same
    have unique := perm_middle.nodup_iff.1 nodup
    exact (nodup_cons.1 unique).1 (same ▸ member)
  have others : ∀ x ∈ pre ++ post, x ≠ h.count := by
    intro x member
    refine ne_fresh x ?_
    simp only [mem_append, mem_cons] at member ⊢
    tauto
  have first_ne : first ≠ h.count := Nat.ne_of_lt allocated
  -- The new list.
  have tiles' : Tiles (cutBb h first target).start (cutBb h first target).stop 0
      (pre ++ first :: h.count :: post) codeSize := by
    have tiles := valid.tiles
    rw [isSplit] at tiles
    refine Tiles.cut target.toNat inside ?_ ?_ ?_ ?_ tiles fun q member => ⟨?_, ?_⟩
    · exact update_of_ne first_ne _ _
    · exact (update_self _ _ _).trans isInt
    · exact (update_self _ _ _).trans isInt
    · exact (update_of_ne (Ne.symm first_ne) _ _).trans (update_self _ _ _)
    · exact update_of_ne (others q member) _ _
    · exact (update_of_ne (ne_first q member) _ _).trans
        (update_of_ne (others q member) _ _)
  have chained' : Chained (cutBb h first target).next (pre ++ first :: h.count :: post) := by
    have chained := valid.chained
    rw [isSplit] at chained
    refine Chained.cut ?_ ?_ chained fun q member => ?_
    · exact update_self _ _ _
    · exact (update_of_ne (Ne.symm first_ne) _ _).trans (update_self _ _ _)
    · exact (update_of_ne (ne_first q member) _ _).trans
        (update_of_ne (others q member) _ _)
  have members' : ∀ p, p ∈ pre ++ first :: h.count :: post ↔ p < h.count + 1 := by
    intro p
    have old := valid.members p
    rw [isSplit] at old
    simp only [mem_append, mem_cons] at old ⊢
    rw [Nat.lt_succ_iff_lt_or_eq, ← old]
    tauto
  -- The tree does not mention the new block yet.
  have inTree : ∀ x ∈ t.inorder, x ≠ h.count := by
    rw [valid.inorder, isSplit]
    exact ne_fresh
  have keep : ∀ {β : Type} (f : Ptr → β) (value : β), ∀ x ∈ t.inorder,
      Function.update f h.count value x = f x :=
    fun f value x member => update_of_ne (inTree x member) _ _
  have tree : RbTree (cutBb h first target).start (cutBb h first target).links t := by
    refine ⟨⟨valid.tree.rep.1.congr ?_ ?_, valid.tree.rep.2⟩, valid.tree.painted.congr ?_,
      valid.tree.balanced, valid.tree.rootBlack, valid.tree.nodup, ?_⟩
    · intro x member side
      cases side
      · exact keep _ _ x member
      · exact keep _ _ x member
    · exact fun x member => keep _ _ x member
    · exact fun x member => keep _ _ x member
    · refine List.Pairwise.imp_of_mem (fun {x y} inX inY less => ?_) valid.tree.sorted
      have startX : (cutBb h first target).start x = h.start x := keep _ _ x inX
      have startY : (cutBb h first target).start y = h.start y := keep _ _ y inY
      rw [startX, startY]
      exact less
  have length : t.inorder.length = h.count := by rw [valid.inorder, valid.length]
  have fresh' : h.count ∉ t.inorder := fun member => inTree _ member rfl
  -- The starts of the new list increase, so no other block starts at the target.
  have distinct : ∀ x ∈ t.inorder,
      (cutBb h first target).start x ≠ (cutBb h first target).start h.count := by
    intro x member same
    have perm : (pre ++ first :: h.count :: post).Perm (h.count :: t.inorder) := by
      rw [valid.inorder, isSplit]
      refine (List.Perm.append_left pre (List.Perm.swap _ _ _)).trans perm_middle
    have apart : (pre ++ first :: h.count :: post).Pairwise fun p q =>
        (cutBb h first target).start p ≠ (cutBb h first target).start q :=
      tiles'.sorted.imp fun less => by omega
    exact (pairwise_cons.1 (perm.pairwise apart fun ne => Ne.symm ne)).1 x member same.symm
  obtain ⟨links, t', l, r, run, tree', before, inorder'⟩ := bbInsert_spec tree (Nat.le_of_eq length)
    fresh' distinct (update_self _ _ _) (update_self _ _ _)
  have perm : t'.inorder.Perm (pre ++ first :: h.count :: post) := by
    rw [inorder']
    refine perm_middle.trans ?_
    rw [← before, valid.inorder, isSplit]
    exact ((List.Perm.append_left pre (List.Perm.swap _ _ _)).trans perm_middle).symm
  have order : t'.inorder = pre ++ first :: h.count :: post :=
    perm.eq_of_pairwise (fun x y _ _ xy yx => absurd xy (by omega)) tree'.sorted tiles'.sorted
  refine ⟨links, _, t', run, ?_, chained', members', tiles', tree', order⟩
  have isFirst := valid.first
  rw [isSplit] at isFirst
  cases pre <;> exact isFirst

theorem bbSplit_spec (target : BitVec 32) (linkBlocks : Bool) (valid : BbValid codeSize h blocks t)
    (small : codeSize < 2 ^ 31) (isHint : hint < h.count) : (codeSize ≤ target.toNat →
      bbSplit h hint target linkBlocks = some (h, .error (.invalidInstructionTarget target))) ∧
    ((target.toNat : Int) < codeSize → ∃ h' res blocks' t', bbSplit h hint target linkBlocks = some (h', .ok res) ∧
        SplitStep h target linkBlocks h' res ∧ BbValid codeSize h' blocks' t') := by
  obtain ⟨found, run, sound, complete⟩ := findBb_spec target valid small isHint
  refine ⟨fun outside => ?_, fun inside => ?_⟩
  · cases found with
    | none => simp only [bbSplit, run]
    | some first =>
      obtain ⟨allocated, _, lt⟩ := sound first rfl
      have := valid.bounds first allocated
      omega
  · cases found with
    | none =>
      have := complete rfl
      omega
    | some first =>
      obtain ⟨allocated, le, lt⟩ := sound first rfl
      have bounds := valid.bounds first allocated
      have unsigned := asGuint_of_nonneg bounds.1 (by omega)
      by_cases isStart : asGuint (h.start first) = target.toNat
      · refine ⟨h, first, blocks, t, ?_, SplitStep.found allocated (by omega), valid⟩
        simp only [bbSplit, run, if_pos isStart]
      · have within : h.start first < target.toNat ∧ (target.toNat : Int) < h.stop first := by omega
        obtain ⟨links, blocks', t', insert, valid'⟩ := cut_valid valid small allocated within
        obtain ⟨outBb, linked⟩ := cutLinked_eq h first target linkBlocks
        refine ⟨{ cutLinked h first target linkBlocks with links := links }, h.count, blocks', t', ?_,
          SplitStep.cut allocated within, ?_⟩
        · have insert' : bbInsert (cutLinked h first target linkBlocks).start h.count
              (cutLinked h first target linkBlocks).links h.count = some links := by
            rw [linked]
            exact insert
          simp only [cutLinked] at insert' ⊢
          simp only [bbSplit, run, if_neg isStart, insert']
        · rw [linked]
          exact ⟨valid'.first, valid'.chained, valid'.members, valid'.tiles, valid'.tree,
            valid'.inorder⟩

end Valid

/-! ### Sequences of splits -/

/-- The heaps that sequences of `bb_split` calls lead to, from the single block of the whole code. A hint
is any block that exists. -/
inductive BbReachable (codeSize : Int) : BbHeap → Prop where
  | init : BbReachable codeSize (initBb codeSize)
  | split {h h' : BbHeap} {hint : Ptr} {target : BitVec 32} {linkBlocks : Bool}
      {result : Except BbError Ptr} (earlier : BbReachable codeSize h) (isHint : hint < h.count)
      (run : bbSplit h hint target linkBlocks = some (h', result)) : BbReachable codeSize h'

theorem initBb_valid {codeSize : Int} (pos : 0 < codeSize) :
    BbValid codeSize (initBb codeSize) [0] (.node .black .nil 0 .nil) where
  first := rfl
  chained := ⟨rfl, trivial⟩
  members p := by simp [initBb]
  tiles := ⟨rfl, pos, rfl⟩
  tree :=
    { rep := ⟨⟨rfl, rfl, rfl, trivial, trivial⟩, rfl⟩
      painted := ⟨rfl, trivial, trivial⟩
      balanced := ⟨1, IsBalanced.black IsBalanced.nil IsBalanced.nil⟩
      rootBlack := rfl
      nodup := pairwise_singleton _ 0
      sorted := pairwise_singleton _ 0 }
  inorder := rfl

theorem BbReachable.valid {codeSize : Int} {h : BbHeap} (pos : 0 < codeSize) (small : codeSize < 2 ^ 31)
    (reachable : BbReachable codeSize h) : ∃ blocks t, BbValid codeSize h blocks t := by
  induction reachable with
  | init => exact ⟨_, _, initBb_valid pos⟩
  | @split h h' hint target linkBlocks result _ isHint run ih =>
    obtain ⟨blocks, t, valid⟩ := ih
    obtain ⟨fails, succeeds⟩ := bbSplit_spec target linkBlocks valid small isHint
    by_cases inside : (target.toNat : Int) < codeSize
    · obtain ⟨_, _, blocks', t', run', _, valid'⟩ := succeeds inside
      rw [run] at run'
      cases run'
      exact ⟨blocks', t', valid'⟩
    · have run' := fails (by omega)
      rw [run] at run'
      cases run'
      exact ⟨blocks, t, valid⟩

/-- In every heap that splits lead to, the blocks are well-formed, and the next `bb_split` gives `NULL` and
changes nothing exactly when its target is outside the code, and else the block at the target. The size of
the code is the `int` that the field `end` of the first block holds. -/
theorem bbSplit_correct {codeSize : BitVec 32} {h : BbHeap} (pos : 0 < codeSize.toInt)
    (reachable : BbReachable codeSize.toInt h) :
    (∃ blocks t, BbValid codeSize.toInt h blocks t) ∧
    ∀ (hint : Ptr) (target : BitVec 32) (linkBlocks : Bool), hint < h.count →
      (codeSize.toInt ≤ target.toNat →
        bbSplit h hint target linkBlocks = some (h, .error (.invalidInstructionTarget target))) ∧
      ((target.toNat : Int) < codeSize.toInt →
        ∃ h' res, bbSplit h hint target linkBlocks = some (h', .ok res) ∧ res < h'.count ∧
          h'.start res = target.toNat) := by
  have small : codeSize.toInt < 2 ^ 31 := BitVec.toInt_lt
  obtain ⟨blocks, t, valid⟩ := reachable.valid pos small
  refine ⟨⟨blocks, t, valid⟩, fun hint target linkBlocks isHint => ?_⟩
  obtain ⟨fails, succeeds⟩ := bbSplit_spec target linkBlocks valid small isHint
  refine ⟨fails, fun inside => ?_⟩
  obtain ⟨h', res, _, _, run, step, _⟩ := succeeds inside
  refine ⟨h', res, run, ?_⟩
  cases step with
  | found allocated isStart => exact ⟨allocated, isStart⟩
  | @cut first links allocated within =>
      obtain ⟨outBb, linked⟩ := cutLinked_eq h first target linkBlocks
      rw [linked]
      refine ⟨Nat.lt_succ_self _, (update_self _ _ _).trans ?_⟩
      exact BitVec.toInt_eq_toNat_of_lt (by omega)

/-- A method of 16 bytes, split at 8 and then, with the first block as the hint, at 12. -/
theorem bbSplit_correct_twice : ∃ h : BbHeap, h.count = 3 ∧ h.start 1 = 8 ∧ h.start 2 = 12 ∧
    (∃ blocks t, BbValid (16#32).toInt h blocks t) ∧
    bbSplit h 2 16#32 true = some (h, .error (.invalidInstructionTarget 16#32)) := by
  have once : BbReachable (16#32).toInt _ :=
    @BbReachable.split _ _ _ 0 8#32 true _ BbReachable.init (by decide) rfl
  have twice : BbReachable (16#32).toInt _ :=
    @BbReachable.split _ _ _ 0 12#32 false _ once (by decide) rfl
  have correct := bbSplit_correct (by decide) twice
  exact ⟨_, rfl, rfl, rfl, correct.1, (correct.2 2 16#32 true (by decide)).1 (by decide)⟩

end MonoRuntime.BasicBlock
