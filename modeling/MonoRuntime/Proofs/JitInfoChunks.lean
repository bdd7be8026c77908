/-
Module: MonoRuntime.Proofs.JitInfoChunks
Purpose: What the changes to the chunks of a table of compiled methods preserve: an insertion, a tombstone, and the
  three ways to make room (a new table, the two halves of a chunk, a chunk without its tombstones) keep the chunks
  sorted, and each has the live entries it should have.
Trusted boundary: none
Main exports: insertElement_spec
-/
import MonoRuntime.Proofs.JitInfoSearch

namespace MonoRuntime.JitInfoTable

open List

/-! ### Putting chunks in the place of another -/

theorem liveElements_append (before after : List MonoJitInfoTableChunk) :
    liveElements (before ++ after) = liveElements before ++ liveElements after := by
  rw [liveElements, flatMap_append, filter_append]
  rfl

theorem liveElements_cons (chunk : MonoJitInfoTableChunk) (after : List MonoJitInfoTableChunk) :
    liveElements (chunk :: after) = (chunk.data.filter fun ji => !isJitInfoTombstone ji) ++ liveElements after := by
  rw [liveElements, flatMap_cons, filter_append]
  rfl

variable {before after : List MonoJitInfoTableChunk} {chunk : MonoJitInfoTableChunk} {ji : MonoJitInfo} {n : Nat}

/-- Chunks may take the place of one when they follow what is before it and precede what is behind it. -/
theorem Sorted.splice {new : List MonoJitInfoTableChunk} (sorted : Sorted (before ++ chunk :: after))
    (sortedNew : Sorted new) (low : ∀ first ∈ before, ∀ other ∈ new, Follows first other)
    (high : ∀ other ∈ new, ∀ last ∈ after, Follows other last) : Sorted (before ++ new ++ after) := by
  obtain ⟨orderBefore, orderRest, across⟩ := pairwise_append.mp sorted.order
  constructor
  · intro other member
    rcases mem_append.mp member with member | member
    · rcases mem_append.mp member with member | member
      · exact sorted.chunk other (mem_append_left _ member)
      · exact sortedNew.chunk other member
    · exact sorted.chunk other (mem_append_right before (mem_cons_of_mem chunk member))
  · rw [pairwise_append, pairwise_append]
    refine ⟨⟨orderBefore, sortedNew.order, low⟩, (pairwise_cons.mp orderRest).2, ?_⟩
    intro other member last inAfter
    rcases mem_append.mp member with member | member
    · exact across other member last (mem_cons_of_mem chunk inAfter)
    · exact high other member last inAfter

/-- A chunk whose elements end within the bounds of another. -/
structure Within (chunk new : MonoJitInfoTableChunk) : Prop where
  data : ∀ ji ∈ new.data, ∃ other ∈ chunk.data, other.codeEnd ≤ ji.codeEnd
  low : new.lastCodeEnd = chunk.lastCodeEnd ∨ ∃ other ∈ chunk.data, other.codeEnd ≤ new.lastCodeEnd
  high : new.lastCodeEnd ≤ chunk.lastCodeEnd

theorem Sorted.replace {new : List MonoJitInfoTableChunk} (sorted : Sorted (before ++ chunk :: after))
    (sortedNew : Sorted new) (within : ∀ other ∈ new, Within chunk other) : Sorted (before ++ new ++ after) := by
  obtain ⟨_, orderRest, across⟩ := pairwise_append.mp sorted.order
  apply sorted.splice sortedNew
  · intro first inBefore other inNew
    have follows := across first inBefore chunk mem_cons_self
    constructor
    · rcases (within other inNew).low with same | ⟨ji, inside, ends⟩
      · exact same ▸ follows.last
      · exact Nat.le_trans (follows.data ji inside) ends
    · intro ji inside
      obtain ⟨old, inside, ends⟩ := (within other inNew).data ji inside
      exact Nat.le_trans (follows.data old inside) ends
  · intro other inNew last inAfter
    have high := (within other inNew).high
    have follows := (pairwise_cons.mp orderRest).1 last inAfter
    exact ⟨Nat.le_trans high follows.last, fun ji inside => Nat.le_trans high (follows.data ji inside)⟩

/-! ### Chunks made from lists of elements -/

/-- A chunk made from elements has them, and it ends where the last of them does. -/
theorem chunkOf_spec {data : List MonoJitInfo} (made : chunkOf data = some chunk) :
    chunk.data = data ∧ ∃ ji ∈ data, chunk.lastCodeEnd = ji.codeEnd := by
  rw [chunkOf, Option.map_eq_some_iff] at made
  obtain ⟨ji, last, rfl⟩ := made
  exact ⟨rfl, ji, mem_of_getLast? last, rfl⟩

theorem chunkOf_of_ne_nil {data : List MonoJitInfo} (filled : data ≠ []) :
    ∃ chunk, chunkOf data = some chunk ∧ chunk.data = data := by
  cases made : chunkOf data with
  | none =>
    rw [chunkOf, Option.map_eq_none_iff, getLast?_eq_none_iff] at made
    exact absurd made filled
  | some chunk => exact ⟨chunk, rfl, (chunkOf_spec made).1⟩

theorem mapM_chunkOf {lists : List (List MonoJitInfo)} (filled : ∀ data ∈ lists, data ≠ []) :
    ∃ chunks, lists.mapM chunkOf = some chunks ∧ chunks.map MonoJitInfoTableChunk.data = lists ∧
      ∀ chunk ∈ chunks, chunkOf chunk.data = some chunk := by
  induction lists with
  | nil => exact ⟨[], rfl, rfl, fun _ member => absurd member not_mem_nil⟩
  | cons data lists ih =>
    obtain ⟨chunks, makes, same, made⟩ := ih fun other member => filled other (mem_cons_of_mem data member)
    obtain ⟨chunk, first, same'⟩ := chunkOf_of_ne_nil (filled data mem_cons_self)
    refine ⟨chunk :: chunks, by simp [first, makes], by rw [map_cons, same', same], ?_⟩
    intro other member
    rcases mem_cons.mp member with rfl | member
    · rw [same', first]
    · exact made other member

theorem chunkOf_last (made : chunkOf chunk.data = some chunk) : ∃ ji ∈ chunk.data, chunk.lastCodeEnd = ji.codeEnd :=
  (chunkOf_spec made).2

/-- The last code end of a chunk that was made from sorted elements bounds them. -/
theorem chunkOf_bounds (made : chunkOf chunk.data = some chunk)
    (sorted : chunk.data.Pairwise fun a b => a.codeEnd ≤ b.codeEnd) :
    ∀ ji ∈ chunk.data, ji.codeEnd ≤ chunk.lastCodeEnd := by
  rw [chunkOf, Option.map_eq_some_iff] at made
  obtain ⟨last, isLast, same⟩ := made
  have ends : chunk.lastCodeEnd = last.codeEnd := congrArg MonoJitInfoTableChunk.lastCodeEnd same.symm
  obtain ⟨front, cut⟩ := getLast?_eq_some_iff.mp isLast
  rw [cut] at sorted ⊢
  intro ji member
  rw [ends]
  rcases mem_append.mp member with member | member
  · exact (pairwise_append.mp sorted).2.2 ji member last mem_cons_self
  · exact Nat.le_of_eq (congrArg MonoJitInfo.codeEnd (mem_singleton.mp member))

theorem sorted_made {chunks : List MonoJitInfoTableChunk} (made : ∀ chunk ∈ chunks, chunkOf chunk.data = some chunk)
    (few : ∀ chunk ∈ chunks, chunk.data.length ≤ chunkSize)
    (flat : (chunks.flatMap MonoJitInfoTableChunk.data).Pairwise fun a b => a.codeEnd ≤ b.codeEnd) :
    Sorted chunks := by
  rw [flatMap_def, pairwise_flatten] at flat
  obtain ⟨inside, across⟩ := flat
  have ok : ∀ chunk ∈ chunks, chunk.data.Pairwise fun a b => a.codeEnd ≤ b.codeEnd := fun chunk member =>
    inside chunk.data (mem_map_of_mem member)
  constructor
  · exact fun chunk member =>
      ⟨ok chunk member, chunkOf_bounds (made chunk member) (ok chunk member), few chunk member⟩
  · rw [pairwise_map] at across
    apply across.imp_of_mem
    intro first second inFirst inSecond order
    obtain ⟨ji, member, ends⟩ := chunkOf_last (made first inFirst)
    obtain ⟨other, member', ends'⟩ := chunkOf_last (made second inSecond)
    constructor
    · rw [ends, ends']
      exact order ji member other member'
    · intro later inside
      rw [ends]
      exact order ji member later inside

/-! ### Inserting an element -/

/-- The elements behind a position move up by one; the induction is on their number, the last one moves first. -/
theorem shiftUp_spec (front : List MonoJitInfo) : ∀ (count : Nat) (back : List MonoJitInfo) (top : MonoJitInfo)
    (rest : List MonoJitInfo), back.length = count →
    ∃ hole, shiftUp front.length count (front ++ back ++ top :: rest) = front ++ hole :: back ++ rest := by
  intro count
  induction count with
  | zero =>
    intro back top rest none
    rw [length_eq_zero_iff.mp none]
    exact ⟨top, by simp [shiftUp]⟩
  | succ count ih =>
    intro back top rest length
    rcases eq_nil_or_concat back with none | ⟨back, last, rfl⟩
    · rw [none] at length
      exact absurd length (Nat.succ_ne_zero count).symm
    · have length' : back.length = count := by simpa using length
      obtain ⟨hole, moved⟩ := ih back last (last :: rest) length'
      refine ⟨hole, ?_⟩
      rw [concat_eq_append]
      have read : (front ++ (back ++ [last]) ++ top :: rest)[front.length + count]? = some last := by
        rw [← length', append_assoc, getElem?_append_right (Nat.le_add_right _ _),
          Nat.add_sub_cancel_left, append_assoc, getElem?_append_right (Nat.le_refl _), Nat.sub_self]
        rfl
      have wrote : (front ++ (back ++ [last]) ++ top :: rest).set (front.length + count + 1) last =
          front ++ back ++ last :: last :: rest := by
        have whole : (front ++ (back ++ [last])).length = front.length + back.length + 1 := by
          rw [length_append, length_append, length_singleton, Nat.add_assoc]
        rw [← length', set_append_right _ _ (Nat.le_of_eq whole), whole, Nat.sub_self]
        simp only [set_cons_zero, append_assoc, cons_append, nil_append]
      rw [shiftUp, read]
      simp only [wrote, moved]
      simp

theorem insertElement_data {pos : Nat} (top : pos ≤ chunk.data.length) (last : MonoJitInfo) :
    (shiftUp pos ((chunk.data ++ [last]).length - 1 - pos) (chunk.data ++ [last])).set pos ji =
      chunk.data.take pos ++ ji :: chunk.data.drop pos := by
  have count : (chunk.data ++ [last]).length - 1 - pos = (chunk.data.drop pos).length := by simp
  have front : (chunk.data.take pos).length = pos := by rw [length_take, Nat.min_eq_left top]
  obtain ⟨hole, moved⟩ := shiftUp_spec (chunk.data.take pos) _ (chunk.data.drop pos) last [] rfl
  rw [take_append_drop, front, append_nil] at moved
  rw [count, moved, set_append_right _ _ (Nat.le_of_eq front), front, Nat.sub_self]
  rfl

theorem insertElement_spec (sorted : Sorted (before ++ chunk :: after))
    (found : ChunkAt (before ++ chunk :: after) ji.codeEnd before chunk after) (room : chunk.data.length < chunkSize) :
    ∃ chunk', insertElement chunk ji = some chunk' ∧ Sorted (before ++ chunk' :: after) ∧
      chunk'.data.Perm (ji :: chunk.data) := by
  have ok := sorted.chunk chunk (mem_append_right before mem_cons_self)
  obtain ⟨top, low, high⟩ := jitInfoTableChunkIndex_spec ok.sorted ji.codeEnd
  unfold insertElement
  simp only [insertElement_data top]
  generalize jitInfoTableChunkIndex chunk ji.codeEnd = pos at top low high
  have filled : chunk.data.take pos ++ ji :: chunk.data.drop pos ≠ [] :=
    append_ne_nil_of_right_ne_nil _ (cons_ne_nil _ _)
  obtain ⟨chunk', makes, same⟩ := chunkOf_of_ne_nil filled
  obtain ⟨last, inside, ends⟩ := (chunkOf_spec makes).2
  have perm : chunk'.data.Perm (ji :: chunk.data) := by
    rw [same]
    have middle : (chunk.data.take pos ++ ji :: chunk.data.drop pos).Perm
        (ji :: (chunk.data.take pos ++ chunk.data.drop pos)) := perm_middle
    rwa [take_append_drop] at middle
  have members : ∀ other ∈ chunk'.data, other = ji ∨ other ∈ chunk.data := fun other member =>
    mem_cons.mp (perm.mem_iff.mp member)
  have order : chunk'.data.Pairwise fun a b => a.codeEnd ≤ b.codeEnd := by
    have sorted' := ok.sorted
    rw [← take_append_drop pos chunk.data, pairwise_append] at sorted'
    obtain ⟨front, back, across⟩ := sorted'
    rw [same, pairwise_append, pairwise_cons]
    refine ⟨front, ⟨fun other member => Nat.le_of_lt (high other member), back⟩, ?_⟩
    intro first inFront second member
    rcases mem_cons.mp member with rfl | member
    · exact low first inFront
    · exact across first inFront second member
  obtain ⟨_, orderRest, across⟩ := pairwise_append.mp sorted.order
  refine ⟨chunk', makes, ?_, perm⟩
  have made : Sorted [chunk'] := by
    apply sorted_made
    · intro other member
      rw [mem_singleton.mp member, same, makes]
    · intro other member
      rw [mem_singleton.mp member, perm.length_eq]
      exact room
    · rwa [flatMap_singleton]
  have spliced := sorted.splice made
  rw [append_assoc] at spliced
  apply spliced
  · intro first inBefore other member
    rw [mem_singleton.mp member]
    have follows := across first inBefore chunk mem_cons_self
    have data : ∀ other ∈ chunk'.data, first.lastCodeEnd ≤ other.codeEnd := by
      intro other member
      rcases members other member with rfl | member
      · exact found.before first inBefore
      · exact follows.data other member
    exact ⟨ends ▸ data last (same ▸ inside), data⟩
  · intro other member next inAfter
    rw [mem_singleton.mp member]
    have follows := (pairwise_cons.mp orderRest).1 next inAfter
    have bound : chunk'.lastCodeEnd ≤ chunk.lastCodeEnd := by
      rw [ends]
      rcases members last (same ▸ inside) with rfl | member
      · rcases found.beyond with beyond | none
        · exact Nat.le_of_lt beyond
        · rw [none] at inAfter
          exact absurd inAfter not_mem_nil
      · exact ok.last last member
    exact ⟨Nat.le_trans bound follows.last, fun ji inside => Nat.le_trans bound (follows.data ji inside)⟩

/-! ### The number of live entries -/

theorem foldl_numElements (data : List MonoJitInfo) (n : Nat) :
    data.foldl (fun n ji => if isJitInfoTombstone ji then n else n + 1) n =
      n + (data.filter fun ji => !isJitInfoTombstone ji).length := by
  induction data generalizing n with
  | nil => rfl
  | cons ji data ih =>
    rw [foldl_cons, ih]
    cases dead : isJitInfoTombstone ji with
    | true => rw [if_pos rfl, filter_cons_of_neg (by simp [dead])]
    | false =>
      rw [if_neg Bool.false_ne_true, filter_cons_of_pos (by simp [dead]), length_cons]
      omega

theorem jitInfoTableNumElements_eq (chunks : List MonoJitInfoTableChunk) :
    jitInfoTableNumElements chunks = (liveElements chunks).length := by
  have loop : ∀ n, chunks.foldl (fun n chunk =>
      chunk.data.foldl (fun n ji => if isJitInfoTombstone ji then n else n + 1) n) n =
        n + (liveElements chunks).length := by
    induction chunks with
    | nil => exact fun _ => rfl
    | cons chunk chunks ih =>
      intro n
      rw [foldl_cons, ih, foldl_numElements, liveElements_cons, length_append]
      omega
  rw [jitInfoTableNumElements, loop, Nat.zero_add]

/-! ### A new table -/

theorem reallocNumChunks_room {full elements : Nat}
    (less : full * filledNumElements + elements < n) : full < reallocNumChunks n := by
  simp only [filledNumElements, chunkSize, reallocNumChunks] at less ⊢
  omega

/-- The elements are put into the chunks in their order, the tombstones left out. -/
theorem fillElements_spec : ∀ (elements : List MonoJitInfo) (f : Filling),
    (∀ data ∈ f.full, data.length = filledNumElements) → f.elements.length < filledNumElements →
    f.full.length * filledNumElements + f.elements.length +
      (elements.filter fun ji => !isJitInfoTombstone ji).length ≤ n →
    ∃ f', elements.foldlM (fillElement (reallocNumChunks n)) f = some f' ∧
      (∀ data ∈ f'.full, data.length = filledNumElements) ∧ f'.elements.length < filledNumElements ∧
      f'.full.flatten ++ f'.elements =
        f.full.flatten ++ f.elements ++ elements.filter fun ji => !isJitInfoTombstone ji := by
  intro elements
  induction elements with
  | nil =>
    intro f full few _
    exact ⟨f, rfl, full, few, by simp⟩
  | cons ji elements ih =>
    intro f full few bound
    rw [foldlM_cons, fillElement]
    cases dead : isJitInfoTombstone ji with
    | true =>
      rw [filter_cons_of_neg (by simp [dead])] at bound ⊢
      exact ih f full few bound
    | false =>
      rw [filter_cons_of_pos (by simp [dead]), length_cons] at bound
      have room : f.full.length * filledNumElements + f.elements.length < n := by omega
      rw [filter_cons_of_pos (by simp [dead]), if_neg Bool.false_ne_true,
        if_pos (reallocNumChunks_room room)]
      by_cases last : f.elements.length + 1 ≥ filledNumElements
      · rw [if_pos last]
        have exact_ : f.elements.length + 1 = filledNumElements := Nat.le_antisymm few last
        obtain ⟨f', fills, full', few', same⟩ := ih ⟨f.full ++ [f.elements ++ [ji]], []⟩
          (by
            intro data member
            rcases mem_append.mp member with member | member
            · exact full data member
            · rw [mem_singleton.mp member, length_append, length_singleton, exact_])
          (show 0 < filledNumElements by decide)
          (by
            simp only [length_append, length_singleton, length_nil, Nat.add_mul, Nat.one_mul]
            omega)
        exact ⟨f', fills, full', few', by rw [same]; simp⟩
      · rw [if_neg last]
        obtain ⟨f', fills, full', few', same⟩ := ih ⟨f.full, f.elements ++ [ji]⟩ full
          (by simp only [length_append, length_singleton]; omega)
          (by simp only [length_append, length_singleton]; omega)
        exact ⟨f', fills, full', few', by rw [same]; simp⟩

theorem length_flatten_of_eq {α : Type} {lists : List (List α)} (same : ∀ data ∈ lists, data.length = n) :
    lists.flatten.length = lists.length * n := by
  induction lists with
  | nil => simp
  | cons data lists ih =>
    rw [flatten_cons, length_append, same data mem_cons_self,
      ih fun other member => same other (mem_cons_of_mem data member), length_cons, Nat.add_mul]
    omega

/-- A new table has the live entries of the old one, in chunks with room, and no chunk when there is no live
entry. -/
theorem jitInfoTableRealloc_spec {old : List MonoJitInfoTableChunk} (sorted : Sorted old) :
    ∃ new, jitInfoTableRealloc old = some new ∧ Sorted new ∧ new.flatMap MonoJitInfoTableChunk.data = liveElements old ∧
      (∀ chunk ∈ new, chunk.data.length < chunkSize) ∧ (new = [] ↔ liveElements old = []) := by
  obtain ⟨f, fills, full, few, same⟩ := fillElements_spec (old.flatMap MonoJitInfoTableChunk.data) ⟨[], []⟩
    (fun _ member => absurd member not_mem_nil) (by decide)
    (Nat.le_of_eq (by simp [liveElements] : _ = (liveElements old).length))
  have same' : f.full.flatten ++ f.elements = liveElements old := by rw [same]; rfl
  have count : f.full.length * filledNumElements + f.elements.length = (liveElements old).length := by
    rw [← length_flatten_of_eq full, ← length_append, same']
  have finish : ∃ lists, finishFilling (reallocNumChunks (liveElements old).length) f = some lists ∧
      lists.flatten = liveElements old ∧ ∀ data ∈ lists, data ≠ [] ∧ data.length < chunkSize := by
    have size : filledNumElements < chunkSize := by decide
    have fulls : ∀ data ∈ f.full, data ≠ [] ∧ data.length < chunkSize := by
      intro data member
      have length := full data member
      refine ⟨?_, by omega⟩
      rintro rfl
      exact absurd length (by decide)
    unfold finishFilling
    split
    next open_ =>
        have last : f.full.length = reallocNumChunks (liveElements old).length - 1 ∧ 0 < f.elements.length := by
          simp only [filledNumElements, chunkSize, reallocNumChunks] at count few open_ ⊢
          omega
        refine ⟨f.full ++ [f.elements], if_pos last, by simpa using same', ?_⟩
        intro data member
        rcases mem_append.mp member with member | member
        · exact fulls data member
        · rw [mem_singleton.mp member]
          exact ⟨ne_nil_of_length_pos last.2, Nat.lt_trans few size⟩
    next closed =>
        have none : f.elements = [] := by
          apply eq_nil_of_length_eq_zero
          simp only [filledNumElements, chunkSize, reallocNumChunks] at count few closed ⊢
          omega
        rw [none, append_nil] at same'
        exact ⟨f.full, rfl, same', fulls⟩
  obtain ⟨lists, finishes, flat, filled⟩ := finish
  obtain ⟨new, makes, data, made⟩ := mapM_chunkOf fun data member => (filled data member).1
  have room : ∀ chunk ∈ new, chunk.data.length < chunkSize := fun chunk member =>
    (filled chunk.data (data ▸ mem_map_of_mem member)).2
  have elements : new.flatMap MonoJitInfoTableChunk.data = liveElements old := by
    rw [flatMap_def, data, flat]
  refine ⟨new, ?_, ?_, elements, room, ?_⟩
  · simp only [jitInfoTableRealloc, jitInfoTableNumElements_eq, fills, finishes, makes, Option.bind_eq_bind,
      Option.bind_some]
  · apply sorted_made made fun chunk member => Nat.le_of_lt (room chunk member)
    rw [elements]
    exact sorted.flat.filter _
  · constructor
    · rintro rfl
      exact elements.symm
    · intro none
      rw [none] at elements
      cases new with
      | nil => rfl
      | cons chunk new =>
        have empty := flatMap_eq_nil_iff.mp elements chunk mem_cons_self
        exact absurd empty (filled chunk.data (data ▸ mem_cons_self)).1

/-! ### One chunk alone -/

theorem within_made {new : MonoJitInfoTableChunk} (ok : ChunkOk chunk) (made : chunkOf new.data = some new)
    (subset : ∀ ji ∈ new.data, ji ∈ chunk.data) : Within chunk new := by
  obtain ⟨last, member, ends⟩ := chunkOf_last made
  constructor
  · exact fun ji inside => ⟨ji, subset ji inside, Nat.le_refl _⟩
  · exact .inr ⟨last, subset last member, Nat.le_of_eq ends.symm⟩
  · exact ends ▸ ok.last last (subset last member)

theorem jitInfoTableSplitChunk_spec (ok : ChunkOk chunk) (full : chunk.data.length = chunkSize) :
    ∃ new, jitInfoTableSplitChunk chunk = some new ∧ new.length = 2 ∧ Sorted new ∧
      (∀ other ∈ new, Within chunk other ∧ other.data.length < chunkSize) ∧
      new.flatMap MonoJitInfoTableChunk.data = chunk.data := by
  have lengths : (chunk.data.take (chunkSize / 2)).length = 32 ∧ (chunk.data.drop (chunkSize / 2)).length = 32 := by
    simp only [length_take, length_drop, full]
    decide
  have filled : ∀ data ∈ [chunk.data.take (chunkSize / 2), chunk.data.drop (chunkSize / 2)],
      data ≠ [] ∧ data.length < chunkSize := by
    have less : 32 < chunkSize := by decide
    intro data member
    rw [mem_cons, mem_singleton] at member
    rcases member with rfl | rfl
    · exact ⟨ne_nil_of_length_pos (by omega), by omega⟩
    · exact ⟨ne_nil_of_length_pos (by omega), by omega⟩
  obtain ⟨new, makes, data, made⟩ := mapM_chunkOf fun data member => (filled data member).1
  have elements : new.flatMap MonoJitInfoTableChunk.data = chunk.data := by
    rw [flatMap_def, data, flatten_cons, flatten_singleton, take_append_drop]
  have room : ∀ other ∈ new, other.data.length < chunkSize := fun other member =>
    (filled other.data (data ▸ mem_map_of_mem member)).2
  refine ⟨new, ?_, ?_, ?_, ?_, elements⟩
  · rw [jitInfoTableSplitChunk, if_pos full, makes]
  · rw [← length_map MonoJitInfoTableChunk.data, data]
    rfl
  · apply sorted_made made fun other member => Nat.le_of_lt (room other member)
    rw [elements]
    exact ok.sorted
  · intro other member
    refine ⟨within_made ok (made other member) ?_, room other member⟩
    intro ji inside
    rw [← elements]
    exact mem_flatMap.mpr ⟨other, member, inside⟩

theorem jitInfoTablePurifyChunk_spec (ok : ChunkOk chunk) :
    (jitInfoTablePurifyChunk chunk).data = (chunk.data.filter fun ji => !isJitInfoTombstone ji) ∧
      ChunkOk (jitInfoTablePurifyChunk chunk) ∧ Within chunk (jitInfoTablePurifyChunk chunk) := by
  have few : (chunk.data.filter fun ji => !isJitInfoTombstone ji).length ≤ chunkSize :=
    Nat.le_trans (length_filter_le _ _) ok.few
  have order := ok.sorted.filter fun ji => !isJitInfoTombstone ji
  have subset : ∀ ji ∈ (chunk.data.filter fun ji => !isJitInfoTombstone ji), ji ∈ chunk.data := fun ji member =>
    (mem_filter.mp member).1
  unfold jitInfoTablePurifyChunk
  generalize (chunk.data.filter fun ji => !isJitInfoTombstone ji) = data at few order subset
  simp only
  cases made : chunkOf data with
  | none =>
    rw [chunkOf, Option.map_eq_none_iff, getLast?_eq_none_iff] at made
    subst made
    exact ⟨rfl, ChunkOk.empty _, fun _ member => absurd member not_mem_nil, .inl rfl, Nat.le_refl _⟩
  | some new =>
    have same := (chunkOf_spec made).1
    rw [← same] at few order subset
    have made : chunkOf new.data = some new := same.symm ▸ made
    exact ⟨same, ⟨order, chunkOf_bounds made order, few⟩, within_made ok made subset⟩

/-- A tombstone in the place of an entry that ends at the same address keeps the chunk as it is for the searches. -/
theorem ChunkOk.tombstone {first second : List MonoJitInfo} {tombstone : MonoJitInfo} (ok : ChunkOk chunk)
    (data : chunk.data = first ++ ji :: second) (ends : tombstone.codeEnd = ji.codeEnd) :
    ChunkOk { chunk with data := first ++ tombstone :: second } := by
  obtain ⟨sorted, last, few⟩ := ok
  rw [data] at sorted last few
  constructor
  · rw [pairwise_append, pairwise_cons] at sorted ⊢
    refine ⟨sorted.1, ⟨fun other member => ends ▸ sorted.2.1.1 other member, sorted.2.1.2⟩, ?_⟩
    intro other inFirst later member
    rcases mem_cons.mp member with rfl | member
    · exact ends ▸ sorted.2.2 other inFirst ji mem_cons_self
    · exact sorted.2.2 other inFirst later (mem_cons_of_mem ji member)
  · intro other member
    rcases mem_append.mp member with member | member
    · exact last other (mem_append_left _ member)
    · rcases mem_cons.mp member with rfl | member
      · exact ends ▸ last ji (mem_append_right first mem_cons_self)
      · exact last other (mem_append_right first (mem_cons_of_mem ji member))
  · simpa using few

end MonoRuntime.JitInfoTable
