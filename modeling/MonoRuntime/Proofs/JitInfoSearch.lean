/-
Module: MonoRuntime.Proofs.JitInfoSearch
Purpose: The searches through a table of compiled methods: over chunks that are sorted by the ends of the code, and
  with live entries that are apart, the search for an address finds the entry that covers it, and the search of a
  remove passes tombstones only until it finds its entry.
Trusted boundary: none
Main exports: Sorted
-/
import MonoRuntime.Metadata.JitInfoTable
import Mathlib.Data.List.Pairwise

namespace MonoRuntime.JitInfoTable

open List Option

/-! ### What the chunks of a table satisfy -/

/-- The elements of a chunk are sorted by their ends, and none ends behind the last code end. -/
structure ChunkOk (chunk : MonoJitInfoTableChunk) : Prop where
  sorted : chunk.data.Pairwise fun a b => a.codeEnd ≤ b.codeEnd
  last : ∀ ji ∈ chunk.data, ji.codeEnd ≤ chunk.lastCodeEnd
  few : chunk.data.length ≤ chunkSize

/-- Everything in the second chunk ends no earlier than the first chunk does. -/
structure Follows (first second : MonoJitInfoTableChunk) : Prop where
  last : first.lastCodeEnd ≤ second.lastCodeEnd
  data : ∀ ji ∈ second.data, first.lastCodeEnd ≤ ji.codeEnd

/-- The chunks of a table, as the binary searches need them. -/
structure Sorted (chunks : List MonoJitInfoTableChunk) : Prop where
  chunk : ∀ chunk ∈ chunks, ChunkOk chunk
  order : chunks.Pairwise Follows

/-- The entries of a table that are no tombstones. -/
def liveElements (chunks : List MonoJitInfoTableChunk) : List MonoJitInfo :=
  (chunks.flatMap MonoJitInfoTableChunk.data).filter fun ji => !isJitInfoTombstone ji

/-- The code of the two entries does not overlap. -/
def Apart (a b : MonoJitInfo) : Prop := a.codeEnd ≤ b.codeStart ∨ b.codeEnd ≤ a.codeStart

instance : Std.Symm Apart := ⟨fun _ _ => Or.symm⟩

/-- Live methods: their code is not empty and does not overlap. -/
structure LiveOk (live : List MonoJitInfo) : Prop where
  size : ∀ ji ∈ live, 0 < ji.codeSize
  method : ∀ ji ∈ live, isJitInfoTombstone ji = false
  apart : live.Pairwise Apart

theorem LiveOk.perm {live live' : List MonoJitInfo} (ok : LiveOk live) (perm : live.Perm live') : LiveOk live' where
  size := fun ji member => ok.size ji (perm.mem_iff.mpr member)
  method := fun ji member => ok.method ji (perm.mem_iff.mpr member)
  apart := ok.apart.perm perm (fun apart => apart.symm)

theorem LiveOk.eq_or_apart {live : List MonoJitInfo} (ok : LiveOk live) {a b : MonoJitInfo}
    (left : a ∈ live) (right : b ∈ live) : a = b ∨ Apart a b := by
  by_cases same : a = b
  · exact .inl same
  · exact .inr (ok.apart.forall left right same)

variable {chunks : List MonoJitInfoTableChunk} {ji : MonoJitInfo} {chunk : MonoJitInfoTableChunk}
  {elements : List MonoJitInfo} {pos found : Nat}

theorem mem_liveElements : ji ∈ liveElements chunks ↔
      (∃ chunk ∈ chunks, ji ∈ chunk.data) ∧ isJitInfoTombstone ji = false := by
  simp [liveElements]

theorem ChunkOk.empty (lastCodeEnd : Nat) : ChunkOk ⟨lastCodeEnd, []⟩ :=
  ⟨List.Pairwise.nil, fun _ member => absurd member not_mem_nil, Nat.zero_le _⟩

theorem Sorted.flat (sorted : Sorted chunks) :
    (chunks.flatMap MonoJitInfoTableChunk.data).Pairwise fun a b => a.codeEnd ≤ b.codeEnd := by
  rw [flatMap_def, pairwise_flatten]
  constructor
  · intro data member
    obtain ⟨chunk, inTable, rfl⟩ := List.mem_map.mp member
    exact (sorted.chunk chunk inTable).sorted
  · rw [pairwise_map]
    apply sorted.order.imp_of_mem
    intro first second inTable _ follows a inFirst b inSecond
    exact Nat.le_trans ((sorted.chunk first inTable).last a inFirst) (follows.data b inSecond)

/-! ### The binary searches -/

/-- The chunk that an address belongs to: those before it end no later than the address, and it ends later unless
it is the last one. -/
structure ChunkAt (chunks : List MonoJitInfoTableChunk) (addr : Nat) (before : List MonoJitInfoTableChunk)
    (chunk : MonoJitInfoTableChunk) (after : List MonoJitInfoTableChunk) : Prop where
  split : chunks = before ++ chunk :: after
  before : ∀ other ∈ before, other.lastCodeEnd ≤ addr
  beyond : addr < chunk.lastCodeEnd ∨ after = []

theorem split_of_lt {α : Type} {l : List α} {i : Nat} (inside : i < l.length) :
    l = l.take i ++ l[i] :: l.drop (i + 1) := by
  rw [getElem_cons_drop, take_append_drop]

theorem jitInfoTableIndex_spec (sorted : Sorted chunks) (nonempty : chunks ≠ []) (addr : Nat) :
    ∃ before chunk after, ChunkAt chunks addr before chunk after ∧ jitInfoTableIndex chunks addr = some before.length := by
  have some_ : 0 < chunks.length := length_pos_iff.mpr nonempty
  have later : ∀ i j, i ≤ j → j < chunks.length →
      (chunks[i]?.any fun chunk => decide (addr < chunk.lastCodeEnd)) = true →
      (chunks[j]?.any fun chunk => decide (addr < chunk.lastCodeEnd)) = true := by
    intro i j order inside beyond
    rcases Nat.eq_or_lt_of_le order with rfl | less
    · exact beyond
    · have inside' : i < chunks.length := Nat.lt_trans less inside
      have follows := pairwise_iff_getElem.mp sorted.order i j inside' inside less
      simp only [getElem?_eq_getElem inside, getElem?_eq_getElem inside', any_some,
        decide_eq_true_eq] at beyond ⊢
      exact Nat.lt_of_lt_of_le beyond follows.last
  obtain ⟨top, before, behind⟩ := firstBeyond_spec later
  simp only [jitInfoTableIndex, if_pos some_]
  generalize firstBeyond (fun pos => chunks[pos]?.any fun chunk => decide (addr < chunk.lastCodeEnd))
    chunks.length = left at top before behind
  have ends : ∀ i < left, ∀ inside : i < chunks.length, chunks[i].lastCodeEnd ≤ addr := by
    intro i below inside
    have known := before i below
    rw [getElem?_eq_getElem inside, any_some, decide_eq_false_iff_not] at known
    exact Nat.le_of_not_lt known
  have taken : ∀ i ≤ left, ∀ other ∈ chunks.take i, other.lastCodeEnd ≤ addr := by
    intro i below other member
    obtain ⟨j, inside, rfl⟩ := getElem_of_mem member
    rw [length_take] at inside
    rw [getElem_take]
    exact ends j (by omega) (by omega)
  split
  next all =>
      have inside : chunks.length - 1 < chunks.length := Nat.sub_lt some_ Nat.one_pos
      refine ⟨chunks.take (chunks.length - 1), chunks[chunks.length - 1], [],
        ⟨?_, taken _ (by omega), .inr rfl⟩, ?_⟩
      · have cut := split_of_lt inside
        rwa [Nat.sub_add_cancel some_, drop_length] at cut
      · rw [length_take, Nat.min_eq_left (Nat.le_of_lt inside)]
  next some' =>
      have inside : left < chunks.length := Nat.lt_of_not_ge some'
      refine ⟨chunks.take left, chunks[left], chunks.drop (left + 1),
        ⟨split_of_lt inside, taken left (Nat.le_refl _), .inl ?_⟩, ?_⟩
      · have known := behind left (Nat.le_refl _) inside
        rwa [getElem?_eq_getElem inside, any_some, decide_eq_true_eq] at known
      · rw [length_take, Nat.min_eq_left top]

/-- The search in a chunk separates the elements that end no later than the address from the others. -/
theorem jitInfoTableChunkIndex_spec (sorted : chunk.data.Pairwise fun a b => a.codeEnd ≤ b.codeEnd) (addr : Nat) :
    jitInfoTableChunkIndex chunk addr ≤ chunk.data.length ∧
      (∀ ji ∈ chunk.data.take (jitInfoTableChunkIndex chunk addr), ji.codeEnd ≤ addr) ∧
      (∀ ji ∈ chunk.data.drop (jitInfoTableChunkIndex chunk addr), addr < ji.codeEnd) := by
  have later : ∀ i j, i ≤ j → j < chunk.data.length →
      (chunk.data[i]?.any fun ji => decide (addr < ji.codeEnd)) = true →
      (chunk.data[j]?.any fun ji => decide (addr < ji.codeEnd)) = true := by
    intro i j order inside beyond
    rcases Nat.eq_or_lt_of_le order with rfl | less
    · exact beyond
    · have inside' : i < chunk.data.length := Nat.lt_trans less inside
      have ends := pairwise_iff_getElem.mp sorted i j inside' inside less
      simp only [getElem?_eq_getElem inside, getElem?_eq_getElem inside', any_some,
        decide_eq_true_eq] at beyond ⊢
      exact Nat.lt_of_lt_of_le beyond ends
  obtain ⟨top, before, behind⟩ := firstBeyond_spec later
  refine ⟨top, ?_, ?_⟩
  · intro ji member
    obtain ⟨i, inside, rfl⟩ := getElem_of_mem member
    rw [length_take] at inside
    have known := before i (Nat.lt_of_lt_of_le inside (Nat.min_le_left _ _))
    rw [getElem?_eq_getElem (Nat.lt_of_lt_of_le inside (Nat.min_le_right _ _)), any_some,
      decide_eq_false_iff_not] at known
    rw [getElem_take]
    exact Nat.le_of_not_lt known
  · intro ji member
    obtain ⟨i, inside, rfl⟩ := getElem_of_mem member
    rw [length_drop] at inside
    have known := behind (jitInfoTableChunkIndex chunk addr + i) (Nat.le_add_right _ _) (by omega)
    rw [getElem?_eq_getElem (by omega), any_some, decide_eq_true_eq] at known
    rwa [getElem_drop]

/-! ### Finding the method of an address -/

/-- The entry that a scan ends with. -/
def Scan.entry : Scan → Option MonoJitInfo
  | .found ji => some ji
  | .notFound => none
  | .next => none

theorem scanChunk_append (addr : Nat) (a b : List MonoJitInfo) : scanChunk addr (a ++ b) =
      match scanChunk addr a with
      | .next => scanChunk addr b
      | done => done := by
  induction a with
  | nil => rfl
  | cons ji a ih =>
    rw [cons_append, scanChunk, scanChunk]
    split
    · exact ih
    · split
      · rfl
      · split
        · rfl
        · exact ih

theorem scanChunks_eq (addr pos : Nat) (chunk : MonoJitInfoTableChunk) (rest : List MonoJitInfoTableChunk) :
    scanChunks addr pos (chunk :: rest) =
      (scanChunk addr (chunk.data.drop pos ++ rest.flatMap MonoJitInfoTableChunk.data)).entry := by
  induction rest generalizing pos chunk with
  | nil =>
    rw [scanChunks, flatMap_nil, append_nil]
    cases scanChunk addr (chunk.data.drop pos) <;> rfl
  | cons next rest ih =>
    rw [scanChunks, ih, flatMap_cons, drop_zero, scanChunk_append addr (chunk.data.drop pos)]
    cases scanChunk addr (chunk.data.drop pos) <;> rfl

/-- Over elements that are sorted by their ends and all end beyond the address, the scan finds the live one that
covers the address: an element that starts beyond the address leaves no room for one. -/
theorem scanChunk_spec {addr : Nat} (sorted : elements.Pairwise fun a b => a.codeEnd ≤ b.codeEnd)
    (beyond : ∀ ji ∈ elements, addr < ji.codeEnd)
    (live : LiveOk (elements.filter fun ji => !isJitInfoTombstone ji)) (ji : MonoJitInfo) :
    (scanChunk addr elements).entry = some ji ↔ ji ∈ elements ∧ isJitInfoTombstone ji = false ∧ ji.Covers addr := by
  induction elements with
  | nil => simp [scanChunk, Scan.entry]
  | cons head rest ih =>
    obtain ⟨ends, sorted⟩ := pairwise_cons.mp sorted
    have beyond' : ∀ other ∈ rest, addr < other.codeEnd := fun other member =>
      beyond other (mem_cons_of_mem head member)
    rw [scanChunk]
    split
    next dead =>
        rw [filter_cons_of_neg (by simp [dead])] at live
        rw [ih sorted beyond' live, mem_cons]
        constructor
        · exact fun found => ⟨.inr found.1, found.2⟩
        · intro found
          refine ⟨found.1.resolve_left ?_, found.2⟩
          intro same
          rw [same, dead] at found
          exact Bool.noConfusion found.2.1
    next alive =>
        rw [filter_cons_of_pos (by simp [alive])] at live
        have others : ∀ other ∈ rest, isJitInfoTombstone other = false → Apart head other :=
          fun other member alive' => (pairwise_cons.mp live.apart).1 other
            (mem_filter.mpr ⟨member, by simp [alive']⟩)
        have size := live.size head mem_cons_self
        split
        next covers =>
            constructor
            · intro found
              cases found
              exact ⟨mem_cons_self, Bool.eq_false_iff.mpr alive, covers⟩
            · intro ⟨member, alive', covers'⟩
              rcases mem_cons.mp member with rfl | member
              · rfl
              · have apart := others ji member alive'
                simp only [Apart, MonoJitInfo.Covers] at apart covers covers'
                omega
        next missed =>
            split
            next early =>
                constructor
                · intro found
                  cases found
                · intro ⟨member, alive', covers'⟩
                  rcases mem_cons.mp member with rfl | member
                  · exact absurd covers' missed
                  · have apart := others ji member alive'
                    have order := ends ji member
                    simp only [Apart, MonoJitInfo.Covers, MonoJitInfo.codeEnd] at apart covers' order early size
                    omega
            next late =>
                have here := beyond head mem_cons_self
                exact absurd ⟨Nat.le_of_not_lt late, here⟩ missed

theorem monoJitInfoTableFind_spec (sorted : Sorted chunks)
    (nonempty : chunks ≠ []) (live : LiveOk (liveElements chunks)) (addr : Nat) :
    ∃ result, monoJitInfoTableFind chunks addr = some result ∧
      ∀ ji, result = some ji ↔ ji ∈ liveElements chunks ∧ ji.Covers addr := by
  obtain ⟨before, chunk, after, found, index⟩ := jitInfoTableIndex_spec sorted nonempty addr
  have split := found.split
  have at_ : chunks[before.length]? = some chunk := by
    rw [split, getElem?_append_right (Nat.le_refl _), Nat.sub_self]
    rfl
  have rest : chunks.drop before.length = chunk :: after := by
    rw [split, drop_left]
  refine ⟨_, by rw [monoJitInfoTableFind, index]; simp only [bind_eq_bind, bind_some, at_]; rfl, ?_⟩
  intro ji
  have ok := sorted.chunk chunk (split ▸ mem_append_right before mem_cons_self)
  obtain ⟨_, passed, ahead⟩ := jitInfoTableChunkIndex_spec ok.sorted addr
  generalize jitInfoTableChunkIndex chunk addr = pos at passed ahead
  have order := sorted.order
  have flat := sorted.flat
  rw [split] at order
  have elements : chunks.flatMap MonoJitInfoTableChunk.data =
      before.flatMap MonoJitInfoTableChunk.data ++
        (chunk.data.take pos ++ (chunk.data.drop pos ++ after.flatMap MonoJitInfoTableChunk.data)) := by
    rw [split, flatMap_append, flatMap_cons, ← append_assoc (chunk.data.take pos),
      take_append_drop]
  have behind : ∀ other ∈ chunk.data.drop pos ++ after.flatMap MonoJitInfoTableChunk.data,
      addr < other.codeEnd := by
    intro other member
    rcases mem_append.mp member with member | member
    · exact ahead other member
    · obtain ⟨next, inAfter, member⟩ := mem_flatMap.mp member
      rcases found.beyond with beyond | none
      · have follows := (pairwise_cons.mp (pairwise_append.mp order).2.1).1 next inAfter
        exact Nat.lt_of_lt_of_le beyond (follows.data other member)
      · rw [none] at inAfter
        exact absurd inAfter not_mem_nil
  have early : ∀ other ∈ before.flatMap MonoJitInfoTableChunk.data ++ chunk.data.take pos,
      other.codeEnd ≤ addr := by
    intro other member
    rcases mem_append.mp member with member | member
    · obtain ⟨first, inBefore, member⟩ := mem_flatMap.mp member
      have ok := sorted.chunk first (split ▸ mem_append_left _ inBefore)
      exact Nat.le_trans (ok.last other member) (found.before first inBefore)
    · exact passed other member
  rw [rest, scanChunks_eq]
  unfold liveElements at live ⊢
  rw [elements, ← append_assoc] at flat live ⊢
  rw [filter_append] at live
  have live' : LiveOk ((chunk.data.drop pos ++ after.flatMap MonoJitInfoTableChunk.data).filter
      fun ji => !isJitInfoTombstone ji) :=
    ⟨fun other member => live.size other (mem_append_right _ member),
      fun other member => live.method other (mem_append_right _ member),
      (pairwise_append.mp live.apart).2.1⟩
  rw [scanChunk_spec (pairwise_append.mp flat).2.1 behind live', mem_filter]
  constructor
  · intro ⟨member, alive, covers⟩
    exact ⟨⟨mem_append_right _ member, by simp [alive]⟩, covers⟩
  · intro ⟨⟨member, alive⟩, covers⟩
    refine ⟨(mem_append.mp member).resolve_left ?_, by simpa using alive, covers⟩
    intro inFront
    exact absurd (Nat.lt_of_lt_of_le covers.2 (early ji inFront)) (Nat.lt_irrefl _)

/-! ### Finding the entry that is removed -/

/-- The elements before the entry are tombstones that end no later. -/
def Passed (ji : MonoJitInfo) (elements : List MonoJitInfo) : Prop :=
  ∀ other ∈ elements, other ≠ ji ∧ isJitInfoTombstone other = true ∧ other.codeEnd ≤ ji.codeEnd

theorem removeScan_append {front : List MonoJitInfo} (passed : Passed ji front) (back : List MonoJitInfo) (pos : Nat) :
    removeScan ji (front ++ back) pos = removeScan ji back (pos + front.length) := by
  induction front generalizing pos with
  | nil => rfl
  | cons other front ih =>
    obtain ⟨other', dead, ends⟩ := passed other mem_cons_self
    rw [cons_append, removeScan, if_neg other', if_pos ⟨dead, ends⟩,
      ih fun next member => passed next (mem_cons_of_mem other member), length_cons]
    congr 1
    omega

theorem removeScan_passed (passed : Passed ji elements) (pos : Nat) : removeScan ji elements pos = some none := by
  rw [← append_nil elements, removeScan_append passed]
  rfl

/-- The loops over chunks end at one of these chunks, at a place of the entry. -/
def EndsAt (ji : MonoJitInfo) (chunks : List MonoJitInfoTableChunk) (chunkPos pos : Nat) : Prop :=
  ∃ before chunk after first second, chunks = before ++ chunk :: after ∧
    chunk.data = first ++ ji :: second ∧
    removeScanChunks ji chunks chunkPos pos = some (some (chunkPos + before.length, first.length))

theorem endsAt_here {front more : List MonoJitInfo} (passed : Passed ji front) (inside : pos ≤ chunk.data.length)
    (cut : chunk.data.drop pos = front ++ ji :: more) (chunks : List MonoJitInfoTableChunk) (chunkPos : Nat) :
    EndsAt ji (chunk :: chunks) chunkPos pos := by
  refine ⟨[], chunk, chunks, chunk.data.take pos ++ front, more, rfl, ?_, ?_⟩
  · rw [append_assoc, ← cut, take_append_drop]
  · rw [removeScanChunks, cut, removeScan_append passed, removeScan, if_pos rfl, length_append,
      length_take, Nat.min_eq_left inside]
    rfl

theorem EndsAt.later {chunkPos : Nat} (next : EndsAt ji chunks (chunkPos + 1) 0)
    (passed : Passed ji (chunk.data.drop pos)) : EndsAt ji (chunk :: chunks) chunkPos pos := by
  obtain ⟨before, chunk', after, first, second, split, data, found⟩ := next
  refine ⟨chunk :: before, chunk', after, first, second, by rw [split]; rfl, data, ?_⟩
  rw [removeScanChunks, removeScan_passed passed]
  simp only [found, length_cons]
  congr 3
  omega

/-- The loops end at the first place of the entry; the induction is on the chunks, and the elements that are left
are cut where the entry is. -/
theorem removeScanChunks_spec {back : List MonoJitInfo} :
    ∀ {front : List MonoJitInfo} {chunk : MonoJitInfoTableChunk} {chunkPos pos : Nat}, Passed ji front →
      pos ≤ chunk.data.length → chunk.data.drop pos ++ chunks.flatMap MonoJitInfoTableChunk.data = front ++ ji :: back →
      EndsAt ji (chunk :: chunks) chunkPos pos := by
  induction chunks with
  | nil =>
    intro front chunk chunkPos pos passed inside elements
    rw [flatMap_nil, append_nil] at elements
    exact endsAt_here passed inside elements [] chunkPos
  | cons next chunks ih =>
    intro front chunk chunkPos pos passed inside elements
    rcases append_eq_append_iff.mp elements with ⟨more, cut, rest⟩ | ⟨more, cut, rest⟩
    · have passed' : Passed ji (chunk.data.drop pos) := fun other member =>
        passed other (cut ▸ mem_append_left more member)
      have passedMore : Passed ji more := fun other member => passed other (cut ▸ mem_append_right _ member)
      exact EndsAt.later (ih passedMore (Nat.zero_le _) rest) passed'
    · cases more with
      | nil =>
        rw [append_nil] at cut
        have nothing : Passed ji [] := fun other member => absurd member not_mem_nil
        exact EndsAt.later (ih nothing (Nat.zero_le _) rest.symm) (cut ▸ passed)
      | cons first more =>
        obtain ⟨same, _⟩ := cons_eq_cons.mp rest
        subst same
        exact endsAt_here passed inside cut (next :: chunks) chunkPos

theorem removeScan_sound (scan : removeScan ji elements pos = some (some found)) :
    pos ≤ found ∧ elements[found - pos]? = some ji := by
  induction elements generalizing pos with
  | nil => cases scan
  | cons other rest ih =>
    rw [removeScan] at scan
    split at scan
    next same =>
        cases scan
        exact ⟨Nat.le_refl _, by rw [Nat.sub_self, same]; rfl⟩
    next =>
        split at scan
        next =>
            obtain ⟨above, here⟩ := ih scan
            have place : found - pos = (found - (pos + 1)) + 1 := by omega
            exact ⟨Nat.le_of_succ_le above, by rw [place, getElem?_cons_succ, here]⟩
        next => cases scan

theorem removeScanChunks_sound {chunkPos chunkFound : Nat}
    (scan : removeScanChunks ji chunks chunkPos pos = some (some (chunkFound, found))) :
    chunkPos ≤ chunkFound ∧ ∃ chunk, chunks[chunkFound - chunkPos]? = some chunk ∧ chunk.data[found]? = some ji := by
  induction chunks generalizing chunkPos pos with
  | nil => cases scan
  | cons chunk rest ih =>
    rw [removeScanChunks] at scan
    split at scan
    next => cases scan
    next here =>
        cases scan
        obtain ⟨above, inside⟩ := removeScan_sound here
        rw [getElem?_drop, Nat.add_sub_cancel' above] at inside
        exact ⟨Nat.le_refl _, chunk, by rw [Nat.sub_self]; rfl, inside⟩
    next =>
        obtain ⟨above, other, at_, inside⟩ := ih scan
        have place : chunkFound - chunkPos = (chunkFound - (chunkPos + 1)) + 1 := by omega
        exact ⟨Nat.le_of_succ_le above, other, by rw [place, getElem?_cons_succ, at_], inside⟩

/-- The search of a remove ends at a place of the entry, whatever the code ranges are. -/
theorem removeSearch_sound {chunkFound : Nat} (search : removeSearch chunks ji = some (chunkFound, found)) :
    ∃ chunk, chunks[chunkFound]? = some chunk ∧ chunk.data[found]? = some ji := by
  simp only [removeSearch, bind_eq_bind, bind_eq_some_iff] at search
  obtain ⟨chunkPos, _, chunk, _, result, scan, ends⟩ := search
  cases result with
  | some place =>
    cases ends
    obtain ⟨above, other, at_, inside⟩ := removeScanChunks_sound scan
    rw [getElem?_drop, Nat.add_sub_cancel' above] at at_
    exact ⟨other, at_, inside⟩
  | none =>
    by_cases first : ∃ last, chunks.getLast? = some last ∧ last.data[0]? = some ji
    · rw [if_pos first] at ends
      cases ends
      obtain ⟨last, isLast, inside⟩ := first
      exact ⟨last, by rw [← getLast?_eq_getElem?, isLast], inside⟩
    · rw [if_neg first] at ends
      cases ends

/-- `mono_jit_info_table_remove` finds a live entry: an element that it passes ends behind the start of the entry
and no later than the entry, so its code overlaps and it is no live one. -/
theorem removeSearch_spec (sorted : Sorted chunks)
    (live : LiveOk (liveElements chunks)) (member : ji ∈ liveElements chunks) :
    ∃ before chunk after first second, chunks = before ++ chunk :: after ∧
      chunk.data = first ++ ji :: second ∧ removeSearch chunks ji = some (before.length, first.length) := by
  have nonempty : chunks ≠ [] := by
    rintro rfl
    exact absurd member not_mem_nil
  obtain ⟨early, chunk, late, found, index⟩ := jitInfoTableIndex_spec sorted nonempty ji.codeStart
  have split := found.split
  have at_ : chunks[early.length]? = some chunk := by
    rw [split, getElem?_append_right (Nat.le_refl _), Nat.sub_self]
    rfl
  have rest : chunks.drop early.length = chunk :: late := by
    rw [split, drop_left]
  have ok := sorted.chunk chunk (split ▸ mem_append_right early mem_cons_self)
  obtain ⟨top, before, behind⟩ := jitInfoTableChunkIndex_spec ok.sorted ji.codeStart
  generalize place : jitInfoTableChunkIndex chunk ji.codeStart = pos at top before behind
  have size := live.size ji member
  have flat := sorted.flat
  have order := sorted.order
  rw [split] at order
  have elements : chunks.flatMap MonoJitInfoTableChunk.data =
      early.flatMap MonoJitInfoTableChunk.data ++ chunk.data.take pos ++
        (chunk.data.drop pos ++ late.flatMap MonoJitInfoTableChunk.data) := by
    rw [split, flatMap_append, flatMap_cons, append_assoc, ← append_assoc (chunk.data.take pos),
      take_append_drop]
  rw [elements] at flat
  have inRest : ji ∈ chunk.data.drop pos ++ late.flatMap MonoJitInfoTableChunk.data := by
    have somewhere : ji ∈ chunks.flatMap MonoJitInfoTableChunk.data := (mem_filter.mp member).1
    rw [elements] at somewhere
    refine (mem_append.mp somewhere).resolve_left ?_
    intro inFront
    have ends : ji.codeEnd ≤ ji.codeStart := by
      rcases mem_append.mp inFront with inside | inside
      · obtain ⟨first, inEarly, inside⟩ := mem_flatMap.mp inside
        exact Nat.le_trans ((sorted.chunk first (split ▸ mem_append_left _ inEarly)).last ji inside)
          (found.before first inEarly)
      · exact before ji inside
    simp only [MonoJitInfo.codeEnd] at ends
    omega
  have beyond : ∀ other ∈ chunk.data.drop pos ++ late.flatMap MonoJitInfoTableChunk.data,
      ji.codeStart < other.codeEnd := by
    intro other inside
    rcases mem_append.mp inside with inside | inside
    · exact behind other inside
    · obtain ⟨next, inLate, inside⟩ := mem_flatMap.mp inside
      rcases found.beyond with beyond | none
      · have follows := (pairwise_cons.mp (pairwise_append.mp order).2.1).1 next inLate
        exact Nat.lt_of_lt_of_le beyond (follows.data other inside)
      · rw [none] at inLate
        exact absurd inLate not_mem_nil
  obtain ⟨front, back, cut, first⟩ := eq_append_cons_of_mem inRest
  have passed : Passed ji front := by
    intro other inside
    have inElements : other ∈ chunk.data.drop pos ++ late.flatMap MonoJitInfoTableChunk.data :=
      cut ▸ mem_append_left _ inside
    have different : other ≠ ji := fun same => first (same ▸ inside)
    have sorted' := (pairwise_append.mp flat).2.1
    rw [cut] at sorted'
    have ends := (pairwise_append.mp sorted').2.2 other inside ji mem_cons_self
    refine ⟨different, ?_, ends⟩
    cases dead : isJitInfoTombstone other with
    | true => rfl
    | false =>
      have alive : other ∈ liveElements chunks := by
        rw [liveElements, elements]
        exact mem_filter.mpr ⟨mem_append_right _ inElements, by simp [dead]⟩
      have starts := beyond other inElements
      rcases live.eq_or_apart alive member with same | apart
      · exact absurd same different
      · have size' := live.size other alive
        simp only [Apart, MonoJitInfo.codeEnd] at apart ends starts
        omega
  have ends : EndsAt ji (chunk :: late) early.length pos := removeScanChunks_spec passed top cut
  obtain ⟨before', chunk', after, first', second, split', data, search⟩ := ends
  refine ⟨early ++ before', chunk', after, first', second, ?_, data, ?_⟩
  · rw [split, split', append_assoc]
  · rw [removeSearch, index]
    simp only [bind_eq_bind, bind_some, at_, rest, place, search, length_append]

end MonoRuntime.JitInfoTable
