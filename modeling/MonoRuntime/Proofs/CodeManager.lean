/-
Module: MonoRuntime.Proofs.CodeManager
Purpose: What holds of a code manager after any calls: blocks are aligned, inside of one chunk and disjoint, and
  the fill positions of the chunks are in their bounds. It holds while no sum of the code overflows, and while
  a commit gives back only bytes of the first chunk.
Trusted boundary: none
Main exports: monoCodeManager_safe
-/
import MonoRuntime.Utils.CodeManager
import Mathlib.Data.List.Perm.Basic
import Mathlib.Tactic.IntervalCases

namespace MonoRuntime.CodeManager

open List BitVec

/-! ### Safety -/

/-- The memory of the chunk. -/
def CodeChunk.region (chunk : CodeChunk) : Region :=
  { base := chunk.data, size := chunk.size }

/-- The block is inside of the chunk, behind the room for binding branches. -/
def Block.InChunk (block : Block) (chunk : CodeChunk) : Prop :=
  chunk.data + chunk.bsize ≤ block.ptr ∧ block.ptr + block.currentSize ≤ chunk.data + chunk.size

/-- What the callers of a code manager rely on. -/
structure World.Safe (world : World) : Prop where
  aligned : ∀ block ∈ world.blocks, block.alignment ∣ block.ptr
  inside : ∀ block ∈ world.blocks, ∃ chunk ∈ world.chunks, block.InChunk chunk
  disjoint : world.blocks.Pairwise Block.Apart
  bounds : ∀ chunk ∈ world.chunks,
    0 ≤ chunk.bsize ∧ chunk.bsize ≤ chunk.pos ∧ chunk.pos ≤ chunk.size
  once : (world.chunks.map CodeChunk.region).Perm world.memory.regions ∧
    (world.chunks.map CodeChunk.data).Nodup

/-! ### Harmless calls -/

/-- The sums of the first loop do not overflow, up to the chunk that has room. -/
def ScanFits (size alignment : Int) : List CodeChunk → Prop
  | [] => True
  | chunk :: chunks =>
      chunk.pos + (alignment - 1) < 2 ^ 31 ∧ alignInt chunk.pos alignment + size < 2 ^ 31 ∧
        (chunk.size < alignInt chunk.pos alignment + size → ScanFits size alignment chunks)

/-- No chunk has room. -/
def NoRoom (size alignment : Int) (chunks : List CodeChunk) : Prop :=
  ∀ chunk ∈ chunks, chunk.size < alignInt chunk.pos alignment + size

/-- The sums that round the size of a new chunk to pages do not overflow. -/
def NewChunkFits (platform : Platform) (isDynamic : Bool) (size : Int) : Prop :=
  (isDynamic = false → int32 (platform.pagesize * minPages) ≤ size →
    size + (platform.pagesize - 1) < 2 ^ 31) ∧
  ∀ room, platform.bindRoom = some room →
    chunkSize platform isDynamic size - size < bindSize platform (chunkSize platform isDynamic size) room →
      size + bindSize platform (chunkSize platform isDynamic size) room + (platform.pagesize - 1) < 2 ^ 31

/-- A commit that gives bytes back gives bytes of the first chunk, and not more than there are: a block that
ends where the bytes of the first chunk end also begins in the first chunk. -/
def GivesBackOwn (manager : MonoCodeManager) (block : Block) (newsize : Int) : Prop :=
  ∀ chunk ∈ manager.current.head?, block.size ≠ newsize → block.ptr = chunk.data + chunk.pos - block.size →
    chunk.data ≤ block.ptr ∧ 0 ≤ newsize

/-- The calls that keep the manager safe. -/
def Harmless (platform : Platform) (world : World) : Call → Prop
  | .reserveAlign size alignmentShift =>
      ScanFits size (2 ^ alignmentShift) world.manager.current ∧
        (NoRoom size (2 ^ alignmentShift) world.manager.current →
          NewChunkFits platform world.manager.isDynamic size)
  | .commit place newsize =>
      ∀ block, world.blocks[place]? = some block → GivesBackOwn world.manager block newsize

/-- A step of a harmless call. -/
def HarmlessStep (platform : Platform) (world world' : World) : Prop :=
  ∃ call, Harmless platform world call ∧ Step platform world call world'

/-! ### Machine integers -/

theorem int32_eq {x : Int} (low : -2 ^ 31 ≤ x) (high : x < 2 ^ 31) : int32 x = x := by
  exact Int.bmod_eq_of_le (by omega) (by omega)

theorem and_not_add_and (x mask : BitVec 32) : (x &&& ~~~ mask) + (x &&& mask) = x := by
  rw [add_eq_or_of_and_eq_zero]
  · ext i
    simp only [getElem_or, getElem_and, getElem_not]
    cases x[i] <;> cases mask[i] <;> rfl
  · ext i
    simp only [getElem_and, getElem_not, BitVec.getElem_zero]
    cases x[i] <;> cases mask[i] <;> rfl

theorem alignInt_eq {val : Int} {k : Nat} (nonneg : 0 ≤ val) (fits : val + (2 ^ k - 1) < 2 ^ 31) :
    alignInt val (2 ^ k) = (val + (2 ^ k - 1)) - (val + (2 ^ k - 1)) % 2 ^ k := by
  have pos : 1 ≤ 2 ^ k := Nat.one_le_two_pow
  have cast : (2 ^ k : Int) = (2 ^ k : Nat) := by
    rfl
  rw [cast] at fits ⊢
  obtain ⟨n, sum⟩ := Int.eq_ofNat_of_zero_le (show 0 ≤ val + ((2 ^ k : Nat) - 1) by omega)
  have mask : ((2 ^ k : Nat) - 1 : Int) = (2 ^ k - 1 : Nat) := by omega
  unfold alignInt
  rw [sum, mask]
  have isN : n % 2 ^ 32 = n := Nat.mod_eq_of_lt (by omega)
  have low : (BitVec.ofNat 32 n &&& BitVec.ofNat 32 (2 ^ k - 1)).toNat = n % 2 ^ k := by
    rw [toNat_and, BitVec.toNat_ofNat, BitVec.toNat_ofNat, isN, Nat.mod_eq_of_lt (by omega),
      Nat.and_two_pow_sub_one_eq_mod]
  have whole := congrArg BitVec.toNat
    (and_not_add_and (BitVec.ofNat 32 n) (BitVec.ofNat 32 (2 ^ k - 1)))
  have below : (BitVec.ofNat 32 n &&& ~~~ BitVec.ofNat 32 (2 ^ k - 1)).toNat ≤ n := by
    rw [toNat_and, BitVec.toNat_ofNat, isN]
    exact Nat.and_le_left
  rw [toNat_add, low, BitVec.toNat_ofNat, Nat.mod_eq_of_lt (by omega), isN] at whole
  rw [ofInt_natCast, ofInt_natCast, toInt_eq_toNat_of_lt (by omega),
    ← Int.natCast_emod]
  omega

theorem alignInt_spec {val : Int} {k : Nat} (nonneg : 0 ≤ val) (fits : val + (2 ^ k - 1) < 2 ^ 31) :
    (2 ^ k : Int) ∣ alignInt val (2 ^ k) ∧ val ≤ alignInt val (2 ^ k) ∧ alignInt val (2 ^ k) ≤ val + (2 ^ k - 1) := by
  have pos : (0 : Int) < 2 ^ k := Int.pow_pos (by decide)
  rw [alignInt_eq nonneg fits]
  exact ⟨Int.dvd_self_sub_emod, by omega, by omega⟩

theorem alignInt_of_dvd {val : Int} {k : Nat} (nonneg : 0 ≤ val) (fits : val + (2 ^ k - 1) < 2 ^ 31)
    (aligned : (2 ^ k : Int) ∣ val) : alignInt val (2 ^ k) = val := by
  rw [alignInt_eq nonneg fits, Int.add_emod, Int.emod_eq_zero_of_dvd aligned, Int.zero_add,
    Int.emod_emod, Int.emod_eq_of_lt (by omega) (by omega)]
  omega

/-! ### The invariant -/

/-- What the calls keep, about the chunks in any order. A block that has bytes ends before the fill position
of its chunk; one without may be left behind when the position goes back. -/
structure ChunksInv (platform : Platform) (chunks : List CodeChunk) (memory : Memory) (blocks : List Block) :
    Prop where
  bounds : ∀ chunk ∈ chunks, 0 ≤ chunk.bsize ∧ chunk.bsize ≤ chunk.pos ∧ chunk.pos ≤ chunk.size ∧
    0 < chunk.size ∧ chunk.size < 2 ^ 31
  regions : (chunks.map CodeChunk.region).Perm memory.regions
  sound : memory.Sound platform
  inside : ∀ block ∈ blocks, ∃ chunk ∈ chunks, block.InChunk chunk ∧
    (0 < block.currentSize → block.ptr + block.currentSize ≤ chunk.data + chunk.pos)
  positive : ∀ block ∈ blocks, 0 < block.size
  aligned : ∀ block ∈ blocks, block.alignment ∣ block.ptr
  disjoint : blocks.Pairwise Block.Apart

section Invariant

variable {platform : Platform} {chunks chunks' rest : List CodeChunk} {memory memory' : Memory}
  {blocks : List Block} {chunk : CodeChunk} {block : Block}

variable {a b c d newsize : Int} {place : Nat}

/-- An empty range is apart from all, and so are ranges that follow each other. -/
theorem apart_of_le (apart : b ≤ a ∨ d ≤ c ∨ b ≤ c ∨ d ≤ a) : Apart a b c d := by
  rintro x ⟨left, right⟩
  omega

theorem Apart.symm (apart : Apart a b c d) : Apart c d a b :=
  fun x both => apart x ⟨both.2, both.1⟩

theorem Apart.mono {a' b' c' d' : Int} (apart : Apart a b c d) (left : a ≤ a' ∧ b' ≤ b) (right : c ≤ c' ∧ d' ≤ d) :
    Apart a' b' c' d' := by
  rintro x ⟨inLeft, inRight⟩
  exact apart x ⟨by omega, by omega⟩

theorem ChunksInv.perm (inv : ChunksInv platform chunks memory blocks) (perm : chunks.Perm chunks') :
    ChunksInv platform chunks' memory blocks where
  bounds := fun chunk member => inv.bounds chunk (perm.mem_iff.2 member)
  regions := (perm.map CodeChunk.region).symm.trans inv.regions
  sound := inv.sound
  inside := fun block member => by
    obtain ⟨chunk, isChunk, inChunk⟩ := inv.inside block member
    exact ⟨chunk, perm.mem_iff.1 isChunk, inChunk⟩
  positive := inv.positive
  aligned := inv.aligned
  disjoint := inv.disjoint

theorem ChunksInv.regions_disjoint (inv : ChunksInv platform chunks memory blocks) :
    (chunks.map CodeChunk.region).Pairwise Region.Apart :=
  (inv.regions.pairwise_iff fun apart => Apart.symm apart).2 inv.sound.disjoint

theorem ChunksInv.disjoint_rest (inv : ChunksInv platform (chunk :: rest) memory blocks) :
    ∀ other ∈ rest, chunk.region.Apart other.region := by
  intro other member
  have pairwise := inv.regions_disjoint
  rw [map_cons, pairwise_cons] at pairwise
  exact pairwise.1 _ (mem_map_of_mem member)

theorem ChunksInv.data_aligned (inv : ChunksInv platform (chunk :: rest) memory blocks) : platform.minAlign ∣ chunk.data :=
  inv.sound.aligned chunk.region (inv.regions.mem_iff.1 (mem_map_of_mem mem_cons_self))

theorem ChunksInv.safe {world : World} (inv : ChunksInv platform world.chunks world.memory world.blocks) : world.Safe where
  aligned := inv.aligned
  inside := fun block member => by
    obtain ⟨chunk, isChunk, inChunk, _⟩ := inv.inside block member
    exact ⟨chunk, isChunk, inChunk⟩
  disjoint := inv.disjoint
  bounds := fun chunk member => by
    obtain ⟨nonneg, bindRoom, filled, _⟩ := inv.bounds chunk member
    exact ⟨nonneg, bindRoom, filled⟩
  once := by
    refine ⟨inv.regions, ?_⟩
    -- Two chunks at one address would share it.
    have apart : world.chunks.Pairwise fun one other => one.region.Apart other.region := by
      have pairwise := inv.regions_disjoint
      rwa [pairwise_map] at pairwise
    refine pairwise_map.2 (apart.imp_of_mem fun {one other} isOne isOther disjoint same => ?_)
    have size := inv.bounds one isOne
    have size' := inv.bounds other isOther
    refine disjoint one.data ⟨⟨Int.le_refl _, ?_⟩, ?_, ?_⟩
    · simp only [CodeChunk.region]
      omega
    · simp only [CodeChunk.region]
      omega
    · simp only [CodeChunk.region]
      omega

/-! ### What one operation does to the invariant -/

theorem ChunksInv.newChunk (inv : ChunksInv platform chunks memory blocks)
    (regions : memory'.regions = chunk.region :: memory.regions) (sound : memory'.Sound platform)
    (bounds : 0 ≤ chunk.bsize ∧ chunk.bsize ≤ chunk.pos ∧ chunk.pos ≤ chunk.size ∧
      0 < chunk.size ∧ chunk.size < 2 ^ 31) : ChunksInv platform (chunk :: chunks) memory' blocks where
  bounds := forall_mem_cons.2 ⟨bounds, inv.bounds⟩
  regions := by
    rw [regions]
    exact inv.regions.cons chunk.region
  sound := sound
  inside := fun block member => by
    obtain ⟨other, isChunk, inChunk⟩ := inv.inside block member
    exact ⟨other, mem_cons_of_mem chunk isChunk, inChunk⟩
  positive := inv.positive
  aligned := inv.aligned
  disjoint := inv.disjoint

theorem ChunksInv.reserve {pos size alignment : Int} (inv : ChunksInv platform (chunk :: rest) memory blocks)
    (positive : 0 < size) (behind : chunk.pos ≤ pos) (room : pos + size ≤ chunk.size)
    (aligned : alignment ∣ chunk.data + pos) :
    ChunksInv platform ({ chunk with pos := pos + size } :: rest) memory
      ({ ptr := chunk.data + pos, size := size, alignment := alignment, currentSize := size } :: blocks) where
  bounds := by
    have bounds := inv.bounds chunk mem_cons_self
    refine forall_mem_cons.2 ⟨?_, fun other member => inv.bounds other (mem_cons_of_mem _ member)⟩
    refine ⟨bounds.1, ?_, room, bounds.2.2.2⟩
    show chunk.bsize ≤ pos + size
    omega
  regions := inv.regions
  sound := inv.sound
  inside := by
    have bounds := inv.bounds chunk mem_cons_self
    refine forall_mem_cons.2 ⟨⟨_, mem_cons_self, ⟨?_, ?_⟩, fun _ => ?_⟩, fun block member => ?_⟩
    · show chunk.data + chunk.bsize ≤ chunk.data + pos
      omega
    · show chunk.data + pos + size ≤ chunk.data + chunk.size
      omega
    · show chunk.data + pos + size ≤ chunk.data + (pos + size)
      omega
    · obtain ⟨other, isChunk, inChunk, used⟩ := inv.inside block member
      rcases mem_cons.1 isChunk with rfl | inRest
      · refine ⟨_, mem_cons_self, inChunk, fun nonempty => ?_⟩
        have ends := used nonempty
        show block.ptr + block.currentSize ≤ other.data + (pos + size)
        omega
      · exact ⟨other, mem_cons_of_mem _ inRest, inChunk, used⟩
  positive := forall_mem_cons.2 ⟨positive, inv.positive⟩
  aligned := forall_mem_cons.2 ⟨aligned, inv.aligned⟩
  disjoint := by
    refine pairwise_cons.2 ⟨fun block member => ?_, inv.disjoint⟩
    have bounds := inv.bounds chunk mem_cons_self
    obtain ⟨other, isChunk, ⟨begins, ends⟩, used⟩ := inv.inside block member
    by_cases empty : block.currentSize ≤ 0
    · exact apart_of_le (Or.inr (Or.inl (by omega)))
    · rcases mem_cons.1 isChunk with rfl | inRest
      · have used := used (by omega)
        exact apart_of_le (Or.inr (Or.inr (Or.inr (by show _ ≤ other.data + pos; omega))))
      · -- The block is in another chunk.
        have otherBounds := inv.bounds other (mem_cons_of_mem _ inRest)
        refine (inv.disjoint_rest other inRest).mono ⟨?_, ?_⟩ ⟨?_, ?_⟩
        · show chunk.data ≤ chunk.data + pos
          omega
        · show chunk.data + pos + size ≤ chunk.data + chunk.size
          omega
        · show other.data ≤ block.ptr
          omega
        · exact ends

theorem pairwise_set_smaller (disjoint : blocks.Pairwise Block.Apart) (isBlock : blocks[place]? = some block)
    (smaller : newsize ≤ block.currentSize) :
    (blocks.set place { block with currentSize := newsize }).Pairwise Block.Apart := by
  obtain ⟨inside, rfl⟩ := List.getElem?_eq_some_iff.1 isBlock
  have subset : blocks[place].ptr + newsize ≤ blocks[place].ptr + blocks[place].currentSize := by omega
  rw [pairwise_iff_getElem] at disjoint ⊢
  intro i j iLess jLess less
  rw [length_set] at iLess jLess
  have apart := disjoint i j iLess jLess less
  simp only [getElem_set]
  split
  next isI =>
    subst isI
    rw [if_neg (Nat.ne_of_lt less)]
    exact Apart.mono apart ⟨Int.le_refl _, subset⟩ ⟨Int.le_refl _, Int.le_refl _⟩
  next =>
    split
    next isJ =>
      subst isJ
      exact Apart.mono apart ⟨Int.le_refl _, Int.le_refl _⟩ ⟨Int.le_refl _, subset⟩
    next => exact apart

theorem ChunksInv.shrink (inv : ChunksInv platform chunks memory blocks) (isBlock : blocks[place]? = some block)
    (smaller : newsize ≤ block.currentSize) :
    ChunksInv platform chunks memory (blocks.set place { block with currentSize := newsize }) where
  bounds := inv.bounds
  regions := inv.regions
  sound := inv.sound
  inside := fun other member => by
    rcases mem_or_eq_of_mem_set member with isOther | rfl
    · exact inv.inside other isOther
    · obtain ⟨chunk, isChunk, ⟨begins, ends⟩, used⟩ := inv.inside block (mem_of_getElem? isBlock)
      refine ⟨chunk, isChunk, ⟨begins, ?_⟩, fun nonempty => ?_⟩
      · show block.ptr + newsize ≤ _
        omega
      · have nonempty : 0 < newsize := nonempty
        show block.ptr + newsize ≤ _
        omega
  positive := fun other member => by
    rcases mem_or_eq_of_mem_set member with isOther | rfl
    · exact inv.positive other isOther
    · exact inv.positive block (mem_of_getElem? isBlock)
  aligned := fun other member => by
    rcases mem_or_eq_of_mem_set member with isOther | rfl
    · exact inv.aligned other isOther
    · exact inv.aligned block (mem_of_getElem? isBlock)
  disjoint := pairwise_set_smaller inv.disjoint isBlock smaller

/-- A commit that gives bytes of the first chunk back: what is used of the chunk by other blocks ends before
the block. -/
theorem ChunksInv.giveBack (inv : ChunksInv platform (chunk :: rest) memory blocks)
    (isBlock : blocks[place]? = some block) (reserved : block.currentSize = block.size)
    (smaller : newsize ≤ block.size) (nonneg : 0 ≤ newsize) (isLast : block.ptr = chunk.data + chunk.pos - block.size)
    (own : chunk.data ≤ block.ptr) :
    ChunksInv platform ({ chunk with pos := chunk.pos - (block.size - newsize) } :: rest) memory
      (blocks.set place { block with currentSize := newsize }) := by
  have member := mem_of_getElem? isBlock
  have positive := inv.positive block member
  have bounds := inv.bounds chunk mem_cons_self
  have begins : chunk.data + chunk.bsize ≤ block.ptr := by
    obtain ⟨other, isChunk, ⟨begins, ends⟩, _⟩ := inv.inside block member
    rcases mem_cons.1 isChunk with rfl | inRest
    · exact begins
    · -- The first byte of the block is in the first chunk.
      have otherBounds := inv.bounds other (mem_cons_of_mem _ inRest)
      refine absurd ⟨⟨own, ?_⟩, ?_, ?_⟩ (inv.disjoint_rest other inRest block.ptr)
      · show block.ptr < chunk.data + chunk.size
        omega
      · show other.data ≤ block.ptr
        omega
      · show block.ptr < other.data + other.size
        omega
  refine ⟨?_, inv.regions, inv.sound, fun other member' => ?_, ?_, ?_, ?_⟩
  · refine forall_mem_cons.2 ⟨?_, fun other isRest => inv.bounds other (mem_cons_of_mem _ isRest)⟩
    refine ⟨bounds.1, ?_, ?_, bounds.2.2.2⟩
    · show chunk.bsize ≤ chunk.pos - (block.size - newsize)
      omega
    · show chunk.pos - (block.size - newsize) ≤ chunk.size
      omega
  · obtain ⟨j, isOther⟩ := mem_iff_getElem?.1 member'
    rw [getElem?_set] at isOther
    split at isOther
    next =>
      split at isOther
      next =>
        cases isOther
        refine ⟨_, mem_cons_self, ⟨begins, ?_⟩, fun _ => ?_⟩
        · show block.ptr + newsize ≤ chunk.data + chunk.size
          omega
        · show block.ptr + newsize ≤ chunk.data + (chunk.pos - (block.size - newsize))
          omega
      next => cases isOther
    next otherPlace =>
      obtain ⟨c, isChunk, inChunk, used⟩ := inv.inside other (mem_of_getElem? isOther)
      rcases mem_cons.1 isChunk with rfl | inRest
      · refine ⟨_, mem_cons_self, inChunk, fun nonempty => ?_⟩
        show other.ptr + other.currentSize ≤ c.data + (c.pos - (block.size - newsize))
        -- The last byte of the other block is not one of the block.
        by_contra behind
        have apart : other.Apart block := by
          obtain ⟨jLess, rfl⟩ := List.getElem?_eq_some_iff.1 isOther
          obtain ⟨placeLess, rfl⟩ := List.getElem?_eq_some_iff.1 isBlock
          have pairwise := pairwise_iff_getElem.1 inv.disjoint
          rcases Nat.lt_or_gt_of_ne otherPlace with less | more
          · exact Apart.symm (pairwise place j placeLess jLess less)
          · exact pairwise j place jLess placeLess more
        exact apart (other.ptr + other.currentSize - 1) ⟨⟨by omega, by omega⟩, by omega, by omega⟩
      · exact ⟨c, mem_cons_of_mem _ inRest, inChunk, used⟩
  · exact (inv.shrink isBlock (reserved ▸ smaller)).positive
  · exact (inv.shrink isBlock (reserved ▸ smaller)).aligned
  · exact (inv.shrink isBlock (reserved ▸ smaller)).disjoint

end Invariant

/-! ### The functions -/

section Functions

variable {platform : Platform} {memory memory' : Memory} {blocks : List Block}

theorem Platform.minAlign_bounds (platform : Platform) : 8 ≤ platform.minAlign ∧ platform.minAlign ≤ 16 := by
  unfold Platform.minAlign
  rcases platform.isMinAlign with shift | shift
  · rw [shift]
    decide
  · rw [shift]
    decide

variable {k : Nat} {chunk : CodeChunk} {size : Int} {isDynamic : Bool} {cman cman' : MonoCodeManager}
  {result : Option Int}

theorem alignment_dvd (le : (2 ^ k : Int) ≤ platform.minAlign) : k ≤ 4 ∧ (2 ^ k : Int) ∣ platform.minAlign := by
  have less : k ≤ platform.minAlignShift := by
    by_contra more
    have grows : (2 : Int) ^ platform.minAlignShift < 2 ^ k := Int.pow_lt_pow_of_lt (by decide) (by omega)
    exact absurd le (Int.not_le.2 grows)
  refine ⟨?_, pow_dvd_pow 2 less⟩
  rcases platform.isMinAlign with shift | shift <;> omega

theorem hasRoom_iff (positive : 0 < size) (nonneg : 0 ≤ chunk.pos)
    (aligns : chunk.pos + (2 ^ k - 1) < 2 ^ 31) (fits : alignInt chunk.pos (2 ^ k) + size < 2 ^ 31) :
    int32 (alignInt chunk.pos (2 ^ k) + size) = alignInt chunk.pos (2 ^ k) + size := by
  have spec := alignInt_spec nonneg aligns
  exact int32_eq (by omega) fits

theorem findRoom_some {ptr : Int} (small : k ≤ 4) (positive : 0 < size) : ∀ {chunks found : List CodeChunk},
      ScanFits size (2 ^ k) chunks → (∀ chunk ∈ chunks, 0 ≤ chunk.pos) →
        findRoom size (2 ^ k) chunks = some (ptr, found) → ∃ before chunk after, chunks = before ++ chunk :: after ∧
            found = before ++ { chunk with pos := alignInt chunk.pos (2 ^ k) + size } :: after ∧
            ptr = chunk.data + alignInt chunk.pos (2 ^ k) ∧ chunk.pos + (2 ^ k - 1) < 2 ^ 31 ∧
            alignInt chunk.pos (2 ^ k) + size ≤ chunk.size
  | [], _, _, _, run => by cases run
  | chunk :: chunks, found, fits, nonneg, run => by
      obtain ⟨aligns, fits, more⟩ := fits
      have same := hasRoom_iff positive (nonneg chunk mem_cons_self) aligns fits
      rw [findRoom, same] at run
      split at run
      next room =>
        simp only [CodeChunk.take, Option.some.injEq, Prod.mk.injEq] at run
        rw [same] at run
        exact ⟨[], chunk, chunks, rfl, run.2.symm, run.1.symm, aligns, room⟩
      next noRoom =>
        rw [Option.map_eq_some_iff] at run
        obtain ⟨⟨ptr', found'⟩, run', same'⟩ := run
        cases same'
        obtain ⟨before, other, after, rfl, rfl, isPtr, spec⟩ := findRoom_some small positive
          (more (Int.not_le.1 noRoom)) (fun other member => nonneg other (mem_cons_of_mem chunk member)) run'
        exact ⟨chunk :: before, other, after, rfl, rfl, isPtr, spec⟩

theorem findRoom_none (small : k ≤ 4) (positive : 0 < size) : ∀ {chunks : List CodeChunk},
      ScanFits size (2 ^ k) chunks → (∀ chunk ∈ chunks, 0 ≤ chunk.pos) →
        findRoom size (2 ^ k) chunks = none → NoRoom size (2 ^ k) chunks
  | [], _, _, _ => by
      intro chunk member
      cases member
  | chunk :: chunks, fits, nonneg, run => by
      obtain ⟨aligns, fits, more⟩ := fits
      have same := hasRoom_iff positive (nonneg chunk mem_cons_self) aligns fits
      rw [findRoom, same] at run
      split at run
      next => cases run
      next noRoom =>
        rw [Option.map_eq_none_iff] at run
        exact forall_mem_cons.2 ⟨Int.not_le.1 noRoom, findRoom_none small positive
          (more (Int.not_le.1 noRoom)) (fun other member => nonneg other (mem_cons_of_mem chunk member)) run⟩

theorem moveFilled_perm (platform : Platform) (full : List CodeChunk) : ∀ chunks : List CodeChunk,
    (chunks ++ full).Perm ((moveFilled platform full chunks).1 ++ (moveFilled platform full chunks).2)
  | [] => List.Perm.refl full
  | chunk :: chunks => by
      rw [moveFilled]
      split
      next => exact (moveFilled_perm platform full chunks).cons chunk
      next => exact perm_middle.symm

theorem newChunkSizes_spec (positive : 0 < size) (isInt : size < 2 ^ 31)
    (fits : NewChunkFits platform isDynamic size) : 0 ≤ (newChunkSizes platform isDynamic size).2 ∧
      platform.minAlign ∣ (newChunkSizes platform isDynamic size).2 ∧
      (newChunkSizes platform isDynamic size).2 + size ≤ (newChunkSizes platform isDynamic size).1 ∧
      (newChunkSizes platform isDynamic size).1 < 2 ^ 31 := by
  obtain ⟨pages, binds⟩ := fits
  have pagePos : (0 : Int) < platform.pagesize := Int.pow_pos (by decide)
  have pageLe : platform.pagesize ≤ 2 ^ 26 := pow_le_pow_right₀ (by decide) platform.isPage.2
  have minsize : int32 (platform.pagesize * minPages) = platform.pagesize * 16 :=
    int32_eq (by rw [minPages]; omega) (by rw [minPages]; omega)
  have round : ∀ n : Int, 0 ≤ n → n + (platform.pagesize - 1) < 2 ^ 31 →
      n ≤ alignInt n platform.pagesize ∧ alignInt n platform.pagesize < 2 ^ 31 := by
    intro n nonneg less
    have spec := alignInt_spec (k := platform.pageShift) nonneg less
    exact ⟨spec.2.1, Int.lt_of_le_of_lt spec.2.2 less⟩
  have chunk : size ≤ chunkSize platform isDynamic size ∧ chunkSize platform isDynamic size < 2 ^ 31 := by
    unfold chunkSize
    split
    next => exact ⟨Int.le_refl _, isInt⟩
    next static =>
      rw [minsize]
      rw [minsize] at pages
      simp only
      split
      next small => exact ⟨Int.le_of_lt small, by omega⟩
      next large => exact round size (Int.le_of_lt positive) (pages (by simpa using static) (Int.not_lt.1 large))
  unfold newChunkSizes
  split
  next => exact ⟨Int.le_refl _, Int.dvd_zero _, by simpa using chunk.1, chunk.2⟩
  next room isRoom =>
    have bind : 0 ≤ bindSize platform (chunkSize platform isDynamic size) room ∧
        platform.minAlign ∣ bindSize platform (chunkSize platform isDynamic size) room := by
      have divided : 0 ≤ (chunkSize platform isDynamic size).tdiv room ∧
          (chunkSize platform isDynamic size).tdiv room ≤ 2 ^ 29 := by
        rcases platform.isBindRoom with isNone | isFour | isEight
        · rw [isRoom] at isNone
          cases isNone
        · rw [isRoom, Option.some.injEq] at isFour
          subst isFour
          rw [Int.tdiv_eq_ediv_of_nonneg (by omega)]
          omega
        · rw [isRoom, Option.some.injEq] at isEight
          subst isEight
          rw [Int.tdiv_eq_ediv_of_nonneg (by omega)]
          omega
      have align := platform.minAlign_bounds
      have spec : ∀ n : Int, 0 ≤ n → n ≤ 2 ^ 29 →
          0 ≤ alignInt n platform.minAlign ∧ platform.minAlign ∣ alignInt n platform.minAlign := by
        intro n nonneg le
        have shift : platform.minAlignShift ≤ 4 := by
          rcases platform.isMinAlign with shift | shift <;> omega
        have spec := alignInt_spec (k := platform.minAlignShift) nonneg
          (show n + (platform.minAlign - 1) < 2 ^ 31 by omega)
        exact ⟨Int.le_trans nonneg spec.2.1, spec.1⟩
      unfold bindSize
      simp only
      split
      next => exact spec minBsize (by decide) (by decide)
      next => exact spec _ divided.1 divided.2
    have excess : int32 (chunkSize platform isDynamic size - size) = chunkSize platform isDynamic size - size :=
      int32_eq (by omega) (by omega)
    simp only [excess]
    split
    next short =>
      have total := binds room isRoom short
      rw [int32_eq (by omega) (by omega)]
      have rounded := round (size + bindSize platform (chunkSize platform isDynamic size) room) (by omega) total
      exact ⟨bind.1, bind.2, by simp only; omega, rounded.2⟩
    next enough => exact ⟨bind.1, bind.2, by simp only; omega, chunk.2⟩

theorem allocate_spec (memory : Memory) (size : Int) : (∃ ptr, (memory.allocate size).1 = some ptr ∧
      (memory.allocate size).2.regions = ⟨ptr, size⟩ :: memory.regions) ∨
    ((memory.allocate size).1 = none ∧ (memory.allocate size).2.regions = memory.regions) := by
  unfold Memory.allocate
  split
  · exact Or.inr ⟨rfl, rfl⟩
  · exact Or.inr ⟨rfl, rfl⟩
  · exact Or.inl ⟨_, rfl, rfl⟩

theorem newCodechunk_spec (platform : Platform) (isDynamic : Bool) (size : Int) (memory : Memory) :
    (∃ chunk, (newCodechunk platform isDynamic size memory).1 = some chunk ∧
      (newCodechunk platform isDynamic size memory).2.regions = chunk.region :: memory.regions ∧
      chunk.pos = (newChunkSizes platform isDynamic size).2 ∧
      chunk.size = (newChunkSizes platform isDynamic size).1 ∧ chunk.bsize = chunk.pos % 2 ^ 24) ∨
    ((newCodechunk platform isDynamic size memory).1 = none ∧
      (newCodechunk platform isDynamic size memory).2.regions = memory.regions) := by
  unfold newCodechunk
  rcases allocate_spec memory (newChunkSizes platform isDynamic size).1 with
    ⟨ptr, isPtr, regions⟩ | ⟨isNone, regions⟩
  · refine Or.inl ⟨_, by simp only [isPtr]; rfl, by simp only [regions]; rfl, rfl, rfl, rfl⟩
  · refine Or.inr ⟨by simp only [isNone]; rfl, by simp only [regions]⟩

theorem sound_of_newCodechunk (sound : (newCodechunk platform isDynamic size memory).2.Sound platform) :
    memory.Sound platform := by
  obtain ⟨disjoint, aligned⟩ := sound
  rcases newCodechunk_spec platform isDynamic size memory with ⟨chunk, _, regions, _⟩ | ⟨_, regions⟩
  · rw [regions] at disjoint aligned
    exact ⟨disjoint.of_cons, fun region member => aligned region (mem_cons_of_mem _ member)⟩
  · rw [regions] at disjoint aligned
    exact ⟨disjoint, aligned⟩

/-- A new chunk keeps the invariant, and has room behind its room for branches. -/
theorem ChunksInv.newCodechunk {chunks : List CodeChunk} (inv : ChunksInv platform chunks memory blocks)
    (positive : 0 < size) (isInt : size < 2 ^ 31) (fits : NewChunkFits platform isDynamic size)
    (isChunk : (newCodechunk platform isDynamic size memory).1 = some chunk)
    (sound : (newCodechunk platform isDynamic size memory).2.Sound platform) :
    ChunksInv platform (chunk :: chunks) (CodeManager.newCodechunk platform isDynamic size memory).2 blocks ∧
      0 ≤ chunk.pos ∧ platform.minAlign ∣ chunk.pos ∧ chunk.pos + size ≤ chunk.size ∧ chunk.size < 2 ^ 31 := by
  obtain ⟨nonneg, aligned, room, less⟩ := newChunkSizes_spec positive isInt fits
  rcases newCodechunk_spec platform isDynamic size memory with
    ⟨chunk', isChunk', regions, isPos, isSize, isBsize⟩ | ⟨isNone, _⟩
  · rw [isChunk] at isChunk'
    cases isChunk'
    rw [← isPos] at nonneg aligned room
    rw [← isSize] at room less
    refine ⟨inv.newChunk regions sound ?_, nonneg, aligned, room, less⟩
    omega
  · rw [isChunk] at isNone
    cases isNone

theorem ChunksInv.take {before after : List CodeChunk}
    (inv : ChunksInv platform (before ++ chunk :: after) memory blocks) (positive : 0 < size)
    (le : (2 ^ k : Int) ≤ platform.minAlign) (aligns : chunk.pos + (2 ^ k - 1) < 2 ^ 31)
    (room : alignInt chunk.pos (2 ^ k) + size ≤ chunk.size) :
    ChunksInv platform (before ++ { chunk with pos := alignInt chunk.pos (2 ^ k) + size } :: after) memory
      ({ ptr := chunk.data + alignInt chunk.pos (2 ^ k), size := size, alignment := 2 ^ k,
         currentSize := size } :: blocks) := by
  have first := inv.perm perm_middle
  have bounds := first.bounds chunk mem_cons_self
  obtain ⟨small, divides⟩ := alignment_dvd le
  obtain ⟨aligned, behind, _⟩ := alignInt_spec (by omega) aligns
  exact (first.reserve positive behind room
    (Int.dvd_add (Int.dvd_trans divides first.data_aligned) aligned)).perm perm_middle.symm

theorem ChunksInv.reserveInCurrent (inv : ChunksInv platform (cman.current ++ cman.full) memory blocks)
    (positive : 0 < size) (isInt : size < 2 ^ 31) (le : (2 ^ k : Int) ≤ platform.minAlign)
    (scan : ScanFits size (2 ^ k) cman.current)
    (fits : NoRoom size (2 ^ k) cman.current → NewChunkFits platform cman.isDynamic size)
    (run : reserveInCurrent platform cman memory size (2 ^ k) = (result, cman', memory'))
    (sound : memory'.Sound platform) :
    ChunksInv platform (cman'.current ++ cman'.full) memory' (addBlock result size (2 ^ k) blocks) := by
  obtain ⟨small, divides⟩ := alignment_dvd le
  have nonneg : ∀ chunk ∈ cman.current, 0 ≤ chunk.pos := by
    intro chunk member
    have bounds := inv.bounds chunk (mem_append_left _ member)
    omega
  unfold CodeManager.reserveInCurrent at run
  split at run
  next ptr current found =>
    cases run
    obtain ⟨before, chunk, after, isCurrent, rfl, rfl, aligns, room⟩ := findRoom_some small positive scan nonneg found
    rw [isCurrent, List.append_assoc] at inv
    have taken := inv.take positive le aligns room
    rw [List.append_assoc]
    exact taken
  next noRoom =>
    have fits := fits (findRoom_none small positive scan nonneg noRoom)
    have moved := inv.perm (moveFilled_perm platform cman.full cman.current)
    simp only at run
    split at run
    next memory'' new =>
      cases run
      rcases newCodechunk_spec platform cman.isDynamic size memory with ⟨chunk, isChunk, _⟩ | ⟨_, regions⟩
      · rw [new] at isChunk
        cases isChunk
      · rw [new] at regions
        exact { moved with regions := by rw [regions]; exact moved.regions, sound := sound }
    next chunk memory'' new =>
      cases run
      obtain ⟨inv', posNonneg, aligned, room, less⟩ := moved.newCodechunk positive isInt fits
        (show _ = some chunk by rw [new]) (by rw [new]; exact sound)
      rw [new] at inv'
      -- The position of a new chunk is aligned, so that it is taken as it is.
      have below : (2 ^ k : Int) ≤ 2 ^ 31 - chunk.pos := Int.le_of_dvd (by omega)
        (Int.dvd_sub (pow_dvd_pow 2 (by omega)) (Int.dvd_trans divides aligned))
      have aligns : chunk.pos + (2 ^ k - 1) < 2 ^ 31 := by omega
      have stays := alignInt_of_dvd posNonneg aligns (Int.dvd_trans divides aligned)
      have taken := (show ChunksInv platform ([] ++ chunk :: _) _ blocks from inv').take
        positive le aligns (by rw [stays]; exact room)
      have same : int32 (alignInt chunk.pos (2 ^ k) + size) = alignInt chunk.pos (2 ^ k) + size :=
        int32_eq (by omega) (by omega)
      simp only [CodeChunk.take, same]
      exact taken

theorem sound_of_reserveInCurrent {alignment : Int}
    (run : reserveInCurrent platform cman memory size alignment = (result, cman', memory'))
    (sound : memory'.Sound platform) : memory.Sound platform := by
  unfold reserveInCurrent at run
  split at run
  next =>
    cases run
    exact sound
  next =>
    simp only at run
    split at run
    next new =>
      cases run
      exact sound_of_newCodechunk (by rw [new]; exact sound)
    next new =>
      cases run
      exact sound_of_newCodechunk (by rw [new]; exact sound)

theorem ChunksInv.reserveAlign (inv : ChunksInv platform (cman.current ++ cman.full) memory blocks)
    (positive : 0 < size) (isInt : size < 2 ^ 31) (scan : ScanFits size (2 ^ k) cman.current)
    (fits : NoRoom size (2 ^ k) cman.current → NewChunkFits platform cman.isDynamic size)
    (run : monoCodeManagerReserveAlign platform cman memory size (2 ^ k) = some (result, cman', memory'))
    (sound : memory'.Sound platform) :
    ChunksInv platform (cman'.current ++ cman'.full) memory' (addBlock result size (2 ^ k) blocks) := by
  unfold monoCodeManagerReserveAlign at run
  split at run
  next => cases run
  next =>
    split at run
    next le =>
      split at run
      next isNil =>
        have fits := fits (by
          rw [isNil]
          intro chunk member
          cases member)
        rw [isNil, nil_append] at inv
        split at run
        next memory'' new =>
          cases run
          rcases newCodechunk_spec platform cman.isDynamic size memory with ⟨chunk, isChunk, _⟩ | ⟨_, regions⟩
          · rw [new] at isChunk
            cases isChunk
          · rw [new] at regions
            rw [isNil, nil_append]
            exact { inv with regions := by rw [regions]; exact inv.regions, sound := sound }
        next chunk memory'' new =>
          rw [Option.some.injEq] at run
          have sound'' := sound_of_reserveInCurrent run sound
          obtain ⟨inv', posNonneg, aligned, room, less⟩ := inv.newCodechunk positive isInt fits
            (show _ = some chunk by rw [new]) (by rw [new]; exact sound'')
          rw [new] at inv'
          -- The new chunk has the room that is looked for.
          obtain ⟨small, divides⟩ := alignment_dvd le
          have below : (2 ^ k : Int) ≤ 2 ^ 31 - chunk.pos := Int.le_of_dvd (by omega)
            (Int.dvd_sub (pow_dvd_pow 2 (by omega)) (Int.dvd_trans divides aligned))
          have aligns : chunk.pos + (2 ^ k - 1) < 2 ^ 31 := by omega
          have stays := alignInt_of_dvd posNonneg aligns (Int.dvd_trans divides aligned)
          refine ChunksInv.reserveInCurrent ?_ positive isInt le ?_ ?_ run sound
          · exact inv'
          · exact ⟨aligns, by omega, fun _ => trivial⟩
          · exact fun _ => fits
      next =>
        rw [Option.some.injEq] at run
        exact inv.reserveInCurrent positive isInt le scan fits run sound
    next => cases run

theorem ChunksInv.commit {block : Block} {place : Nat} {newsize : Int}
    (inv : ChunksInv platform (cman.current ++ cman.full) memory blocks) (isBlock : blocks[place]? = some block)
    (reserved : block.currentSize = block.size) (own : GivesBackOwn cman block newsize)
    (run : monoCodeManagerCommit cman block.ptr block.size newsize = some cman') :
    ChunksInv platform (cman'.current ++ cman'.full) memory
      (blocks.set place { block with currentSize := newsize }) := by
  unfold monoCodeManagerCommit at run
  split at run
  next smaller =>
    have shrunk := inv.shrink isBlock (reserved ▸ smaller)
    split at run
    next =>
      cases run
      exact shrunk
    next chunk chunks isCurrent =>
      split at run
      next gives =>
        obtain ⟨begins, nonneg⟩ := own chunk (by rw [isCurrent]; rfl) gives.1 gives.2
        have bounds := inv.bounds chunk (by rw [isCurrent]; exact mem_cons_self)
        have back : int32 (chunk.pos - int32 (block.size - newsize)) = chunk.pos - (block.size - newsize) := by
          have excess : int32 (block.size - newsize) = block.size - newsize := int32_eq (by omega) (by omega)
          rw [excess]
          exact int32_eq (by omega) (by omega)
        cases run
        rw [back]
        rw [isCurrent] at inv
        exact inv.giveBack isBlock reserved smaller nonneg gives.2 begins
      next =>
        cases run
        exact shrunk
  next => cases run

end Functions

/-! ### Runs -/

theorem ChunksInv.step {platform : Platform} {world world' : World}
    (inv : ChunksInv platform world.chunks world.memory world.blocks) (step : HarmlessStep platform world world') :
    ChunksInv platform world'.chunks world'.memory world'.blocks := by
  obtain ⟨call, harmless, step⟩ := step
  cases step with
  | reserveAlign positive isInt run sound =>
    exact inv.reserveAlign positive isInt harmless.1 harmless.2 run sound
  | commit isBlock reserved isInt run =>
    exact inv.commit isBlock reserved (harmless _ isBlock) run

theorem chunksInv_start (platform : Platform) (isDynamic : Bool) (answers : List (Option Int)) :
    ChunksInv platform (World.start isDynamic answers).chunks (World.start isDynamic answers).memory
      (World.start isDynamic answers).blocks where
  bounds := fun _ member => by cases member
  regions := List.Perm.refl []
  sound := ⟨List.Pairwise.nil, fun _ member => by cases member⟩
  inside := fun _ member => by cases member
  positive := fun _ member => by cases member
  aligned := fun _ member => by cases member
  disjoint := List.Pairwise.nil

/-- After any harmless calls on a new manager, on every platform and with every memory: the blocks are aligned,
inside of a chunk behind its room for branches and disjoint, the fill positions are in their bounds, and every
chunk is in one of the lists once. -/
theorem monoCodeManager_safe {platform : Platform} {isDynamic : Bool} {answers : List (Option Int)}
    {world : World}
    (run : Relation.ReflTransGen (HarmlessStep platform) (World.start isDynamic answers) world) :
    world.Safe := by
  suffices inv : ChunksInv platform world.chunks world.memory world.blocks from inv.safe
  induction run with
  | refl => exact chunksInv_start platform isDynamic answers
  | tail _ step inv => exact inv.step step

/-- The build for x86-64. -/
def x86 : Platform where
  minAlignShift := 4
  bindRoom := none
  forceMalloc := false
  pageShift := 12
  isMinAlign := Or.inr rfl
  isBindRoom := Or.inl rfl
  isPage := ⟨by decide, by decide⟩

/-- A static chunk of 16 pages. -/
def chunkAt (data pos : Int) : CodeChunk :=
  { data := data, pos := pos, size := 65536, flags := .mmap, bsize := 0 }

/-- A block of aligned memory. -/
def blockAt (ptr size currentSize : Int) : Block :=
  { ptr := ptr, size := size, alignment := 16, currentSize := currentSize }

/-- A manager whose only chunk is one block. -/
def oneChunk : World where
  manager := { isDynamic := false, readOnly := false, current := [chunkAt 65536 65536], full := [] }
  memory := { answers := [some 131072], regions := [⟨65536, 65536⟩] }
  blocks := [blockAt 65536 65536 65536]

/-- The same manager with a second chunk, which begins in memory where the first ends. -/
def twoChunks (pos : Int) (blocks : List Block) : World where
  manager := { isDynamic := false, readOnly := false, current := [chunkAt 131072 pos],
               full := [chunkAt 65536 65536] }
  memory := { answers := [], regions := [⟨131072, 65536⟩, ⟨65536, 65536⟩] }
  blocks := blocks

theorem step_oneChunk : Step x86 (World.start false [some 65536, some 131072]) (.reserveAlign 65536 4) oneChunk :=
  @Step.reserveAlign x86 (World.start false [some 65536, some 131072]) 65536 4 (some 65536) oneChunk.manager
    oneChunk.memory (by decide) (by decide) (by decide +kernel) ⟨pairwise_singleton _ _, by decide⟩

theorem step_twoChunks : Step x86 oneChunk (.reserveAlign 100 4)
      (twoChunks 100 [blockAt 131072 100 100, blockAt 65536 65536 65536]) :=
  @Step.reserveAlign x86 oneChunk 100 4 (some 131072) (twoChunks 100 []).manager (twoChunks 100 []).memory
    (by decide) (by decide) (by decide +kernel)
    ⟨pairwise_pair.2 (apart_of_le (Or.inr (Or.inr (Or.inr (by decide))))), by decide⟩

theorem step_commitNothing : Step x86 (twoChunks 100 [blockAt 131072 100 100, blockAt 65536 65536 65536]) (.commit 0 0)
      (twoChunks 0 [blockAt 131072 100 0, blockAt 65536 65536 65536]) :=
  @Step.commit x86 _ 0 0 (blockAt 131072 100 100) (twoChunks 0 []).manager rfl rfl (by decide) (by decide)

theorem step_commitAdjacent : Step x86 (twoChunks 0 [blockAt 131072 100 0, blockAt 65536 65536 65536]) (.commit 1 100)
      (twoChunks (-65436) [blockAt 131072 100 0, blockAt 65536 65536 100]) :=
  @Step.commit x86 _ 1 100 (blockAt 65536 65536 65536) (twoChunks (-65436) []).manager rfl rfl (by decide)
    (by decide)

/-- A block is reserved and given back. -/
theorem monoCodeManager_safe_twoChunks :
    (twoChunks 0 [blockAt 131072 100 0, blockAt 65536 65536 65536]).Safe := by
  have first : Harmless x86 (World.start false [some 65536, some 131072]) (.reserveAlign 65536 4) :=
    ⟨trivial, fun _ => ⟨fun _ _ => by decide, fun _ isRoom => by cases isRoom⟩⟩
  have second : Harmless x86 oneChunk (.reserveAlign 100 4) :=
    ⟨⟨by decide, by decide, fun _ => trivial⟩,
      fun _ => ⟨fun _ _ => by decide, fun _ isRoom => by cases isRoom⟩⟩
  have third : Harmless x86 (twoChunks 100 [blockAt 131072 100 100, blockAt 65536 65536 65536])
      (.commit 0 0) := by
    intro block isBlock chunk isChunk _ _
    cases isBlock
    cases isChunk
    decide
  exact monoCodeManager_safe (((Relation.ReflTransGen.refl.tail ⟨_, first, step_oneChunk⟩).tail
    ⟨_, second, step_twoChunks⟩).tail ⟨_, third, step_commitNothing⟩)

/-- The block of the full chunk ends where the first chunk begins, and where nothing of the first chunk is in
use this is its fill position: the commit takes the bytes from the wrong chunk, whose position becomes
negative. -/
theorem monoCodeManagerCommit_leavesChunk :
    ¬ ∀ (platform : Platform) (isDynamic : Bool) (answers : List (Option Int)) (world : World),
      Relation.ReflTransGen (fun world world' => ∃ call, Step platform world call world')
        (World.start isDynamic answers) world → world.Safe := by
  intro claim
  have safe := claim x86 false _ _
    ((((Relation.ReflTransGen.refl.tail ⟨_, step_oneChunk⟩).tail ⟨_, step_twoChunks⟩).tail
      ⟨_, step_commitNothing⟩).tail ⟨_, step_commitAdjacent⟩)
  exact absurd (safe.bounds (chunkAt 131072 (-65436)) mem_cons_self).2.1 (by decide)

end MonoRuntime.CodeManager
