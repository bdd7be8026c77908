/-
Module: MonoRuntime.Proofs.JitInfoTable
Purpose: Sequences of adds and removes on the table of compiled methods: what each call does to the chunks of the
  current table, and that in every sequence the search finds exactly the live methods, up to an add that meets a
  full chunk in a table without live methods.
Trusted boundary: none
Main exports: monoJitInfoTable_works_iff
-/
import MonoRuntime.Proofs.JitInfoChunks

namespace MonoRuntime.JitInfoTable

open List Option Function

/-! ### New tables -/

/-- The chunks of a new table: some of the old ones, each with one more reference, and new ones in between. -/
structure NewTable (s s' : MonoDomain) (before : List Nat) (new : List MonoJitInfoTableChunk) (after refs : List Nat) :
    Prop where
  refs : refs = before ++ List.range' s.nextChunk new.length ++ after
  next : s'.nextChunk = s.nextChunk + new.length
  old : ∀ c < s.nextChunk, s'.chunk c = s.chunk c
  fresh : (List.range' s.nextChunk new.length).map s'.chunk = new
  count : ∀ c < s.nextChunk, s'.refcount c = s.refcount c + if c ∈ before ++ after then 1 else 0
  countFresh : ∀ c, s.nextChunk ≤ c → c < s'.nextChunk → s'.refcount c = 1
  rest : s' = { s with chunk := s'.chunk, refcount := s'.refcount, nextChunk := s'.nextChunk }

theorem newChunks_spec (new : List MonoJitInfoTableChunk) (s : MonoDomain) :
    NewTable s (s.newChunks new).1 [] new [] (s.newChunks new).2 := by
  induction new generalizing s with
  | nil =>
    refine ⟨rfl, rfl, fun _ _ => rfl, rfl, fun c _ => ?_, fun c low high => absurd high (Nat.not_lt.mpr low), rfl⟩
    simp [MonoDomain.newChunks]
  | cons chunk new ih =>
    obtain ⟨refs, next, old, fresh, count, countFresh, rest⟩ := ih (s.newChunk chunk)
    have here : (s.newChunk chunk).nextChunk = s.nextChunk + 1 := rfl
    rw [here] at refs next old fresh count countFresh
    have first : ((s.newChunk chunk).newChunks new).1.chunk s.nextChunk = chunk := by
      rw [old s.nextChunk (Nat.lt_succ_self _)]
      exact update_self ..
    refine ⟨?_, ?_, ?_, ?_, ?_, ?_, ?_⟩
    · simp only [MonoDomain.newChunks, refs, nil_append, append_nil, length_cons, range'_succ]
    · simp only [MonoDomain.newChunks, next, length_cons]
      omega
    · intro c below
      rw [MonoDomain.newChunks, old c (Nat.lt_succ_of_lt below)]
      exact update_of_ne (Nat.ne_of_lt below) ..
    · simp only [MonoDomain.newChunks, length_cons, range'_succ, map_cons, fresh, first]
    · intro c below
      rw [MonoDomain.newChunks, count c (Nat.lt_succ_of_lt below)]
      have same : (s.newChunk chunk).refcount c = s.refcount c := update_of_ne (Nat.ne_of_lt below) ..
      rw [same]
    · intro c low high
      rcases Nat.eq_or_lt_of_le low with rfl | above
      · rw [MonoDomain.newChunks, count s.nextChunk (Nat.lt_succ_self _)]
        have one : (s.newChunk chunk).refcount s.nextChunk = 1 := update_self ..
        rw [one]
        simp
      · exact countFresh c above high
    · exact rest

theorem foldl_refChunk (cs : List Nat) (s : MonoDomain) (nodup : cs.Nodup) :
    (∀ c, (cs.foldl MonoDomain.refChunk s).refcount c = s.refcount c + if c ∈ cs then 1 else 0) ∧
      cs.foldl MonoDomain.refChunk s = { s with refcount := (cs.foldl MonoDomain.refChunk s).refcount } := by
  induction cs generalizing s with
  | nil => exact ⟨fun c => by simp, rfl⟩
  | cons first cs ih =>
    obtain ⟨fresh, nodup⟩ := nodup_cons.mp nodup
    obtain ⟨count, rest⟩ := ih (s.refChunk first) nodup
    rw [foldl_cons]
    refine ⟨?_, rest⟩
    intro c
    rw [count c, MonoDomain.refChunk]
    by_cases same : c = first
    · subst same
      simp [fresh]
    · simp [same]

variable {chunk c : Nat} {s s' : MonoDomain} {before after refs : List Nat} {new : List MonoJitInfoTableChunk}
  {ji : MonoJitInfo} {m : Methods}

theorem copyChunks_append (new : List MonoJitInfoTableChunk) (before : List Nat)
    (apart : chunk ∉ before) (s : MonoDomain) (rest : List Nat) : s.copyChunks chunk new (before ++ rest) =
      (((before.foldl MonoDomain.refChunk s).copyChunks chunk new rest).1,
        before ++ ((before.foldl MonoDomain.refChunk s).copyChunks chunk new rest).2) := by
  induction before generalizing s with
  | nil => rfl
  | cons first before ih =>
    have other : first ≠ chunk := fun same => apart (same ▸ mem_cons_self)
    have apart' : chunk ∉ before := fun member => apart (mem_cons_of_mem first member)
    rw [cons_append, MonoDomain.copyChunks, if_neg other, ih apart', foldl_cons]
    rfl

theorem copyChunks_spec (new : List MonoJitInfoTableChunk) (nodup : (before ++ chunk :: after).Nodup)
    (below : ∀ c ∈ before ++ chunk :: after, c < s.nextChunk) :
    NewTable s (s.copyChunks chunk new (before ++ chunk :: after)).1 before new after
      (s.copyChunks chunk new (before ++ chunk :: after)).2 := by
  obtain ⟨nodupBefore, nodupRest, apart⟩ := nodup_append.mp nodup
  obtain ⟨notAfter, nodupAfter⟩ := nodup_cons.mp nodupRest
  have notBefore : chunk ∉ before := fun member => apart chunk member chunk mem_cons_self rfl
  obtain ⟨countBefore, restBefore⟩ := foldl_refChunk before s nodupBefore
  obtain ⟨refs, next, old, fresh, count, countFresh, rest⟩ := newChunks_spec new (before.foldl MonoDomain.refChunk s)
  obtain ⟨countAfter, restAfter⟩ :=
    foldl_refChunk after ((before.foldl MonoDomain.refChunk s).newChunks new).1 nodupAfter
  have shared := copyChunks_append new after notAfter
    ((before.foldl MonoDomain.refChunk s).newChunks new).1 []
  rw [append_nil] at shared
  rw [copyChunks_append new before notBefore, MonoDomain.copyChunks, if_pos rfl]
  simp only [shared, MonoDomain.copyChunks, append_nil]
  generalize before.foldl MonoDomain.refChunk s = s1 at *
  generalize (s1.newChunks new).1 = s2 at *
  generalize (s1.newChunks new).2 = refs' at *
  generalize after.foldl MonoDomain.refChunk s2 = s3 at *
  have nextBefore : s1.nextChunk = s.nextChunk := by rw [restBefore]
  have nextAfter : s3.nextChunk = s2.nextChunk := by rw [restAfter]
  have chunkBefore : s1.chunk = s.chunk := by rw [restBefore]
  have chunkAfter : s3.chunk = s2.chunk := by rw [restAfter]
  rw [nextBefore] at refs next old fresh count countFresh
  rw [chunkBefore] at old
  refine ⟨?_, ?_, ?_, ?_, ?_, ?_, ?_⟩
  · rw [refs, nil_append, append_nil, append_assoc]
  · rw [nextAfter, next]
  · exact fun c inside => by rw [chunkAfter, old c inside]
  · rw [chunkAfter, fresh]
  · intro c inside
    rw [countAfter, count c inside, countBefore]
    have either : c ∈ before → c ∉ after := fun member member' =>
      apart c member c (mem_cons_of_mem chunk member') rfl
    by_cases inBefore : c ∈ before
    · simp [inBefore, either inBefore]
    · simp [inBefore]
  · intro c low high
    rw [nextAfter] at high
    have outside : c ∉ after := fun member =>
      absurd (below c (mem_append_right before (mem_cons_of_mem chunk member))) (Nat.not_lt.mpr low)
    rw [countAfter, countFresh c low high, if_neg outside, Int.add_zero]
  · rw [restAfter, rest, restBefore]

theorem NewTable.chunks (made : NewTable s s' before new after refs) (below : ∀ c ∈ before ++ after, c < s.nextChunk) :
    refs.map s'.chunk = before.map s.chunk ++ new ++ after.map s.chunk := by
  have same : ∀ cs : List Nat, (∀ c ∈ cs, c < s.nextChunk) → cs.map s'.chunk = cs.map s.chunk := fun cs inside =>
    map_congr_left fun c member => made.old c (inside c member)
  rw [made.refs, map_append, map_append, made.fresh,
    same before fun c member => below c (mem_append_left _ member),
    same after fun c member => below c (mem_append_right _ member)]

theorem NewTable.nodup (made : NewTable s s' before new after refs) (nodup : (before ++ after).Nodup)
    (below : ∀ c ∈ before ++ after, c < s.nextChunk) : refs.Nodup ∧ ∀ c ∈ refs, c < s'.nextChunk := by
  obtain ⟨nodupBefore, nodupAfter, apart⟩ := nodup_append.mp nodup
  have bound : ∀ c ∈ List.range' s.nextChunk new.length, s.nextChunk ≤ c ∧ c < s'.nextChunk := by
    intro c member
    have inside := mem_range'_1.mp member
    exact ⟨inside.1, made.next ▸ inside.2⟩
  have low : s.nextChunk ≤ s'.nextChunk := made.next ▸ Nat.le_add_right _ _
  rw [made.refs]
  constructor
  · rw [nodup_append, nodup_append]
    refine ⟨⟨nodupBefore, nodup_range', ?_⟩, nodupAfter, ?_⟩
    · intro a inBefore b member
      exact Nat.ne_of_lt (Nat.lt_of_lt_of_le (below a (mem_append_left _ inBefore)) (bound b member).1)
    · intro a member b inAfter
      rcases mem_append.mp member with member | member
      · exact apart a member b inAfter
      · exact (Nat.ne_of_lt (Nat.lt_of_lt_of_le (below b (mem_append_right _ inAfter)) (bound a member).1)).symm
  · intro c member
    rcases mem_append.mp member with member | member
    · rcases mem_append.mp member with member | member
      · exact Nat.lt_of_lt_of_le (below c (mem_append_left _ member)) low
      · exact (bound c member).2
    · exact Nat.lt_of_lt_of_le (below c (mem_append_right _ member)) low

/-! ### Making room -/

/-- The chunks that have no room. -/
def fullChunks (chunks : List MonoJitInfoTableChunk) : Nat :=
  chunks.countP fun chunk => decide (chunkSize ≤ chunk.data.length)

theorem fullChunks_eq_zero {chunks : List MonoJitInfoTableChunk} (room : ∀ chunk ∈ chunks, chunk.data.length < chunkSize) :
    fullChunks chunks = 0 := by
  rw [fullChunks, countP_eq_zero]
  intro chunk member
  simpa using room chunk member

/-- What a full chunk makes of a table: the chunks that are replaced give way to chunks with room, made from the
live entries. -/
structure MakesRoom (s : MonoDomain) (before after : List Nat) (chunk : Nat) (before' : List Nat)
    (new : List MonoJitInfoTableChunk) (after' : List Nat) : Prop where
  sorted : Sorted (before'.map s.chunk ++ new ++ after'.map s.chunk)
  live : liveElements (before'.map s.chunk ++ new ++ after'.map s.chunk) =
    liveElements ((before ++ chunk :: after).map s.chunk)
  room : ∀ other ∈ new, other.data.length < chunkSize
  kept : before' = before ∧ after' = after ∨ before' = [] ∧ after' = []
  made : ∀ other ∈ new, ∀ ji ∈ other.data, ji ∈ liveElements ((before ++ chunk :: after).map s.chunk)
  empty : before' ++ after' = [] ∧ new = [] ↔ liveElements ((before ++ chunk :: after).map s.chunk) = []

/-- `jit_info_table_chunk_overflow` makes a table with room in the place of one with a full chunk. -/
theorem jitInfoTableChunkOverflow_spec (nodup : (before ++ chunk :: after).Nodup)
    (below : ∀ c ∈ before ++ chunk :: after, c < s.nextChunk)
    (sorted : Sorted ((before ++ chunk :: after).map s.chunk)) (full : (s.chunk chunk).data.length = chunkSize) :
    ∃ s' refs before' new after', jitInfoTableChunkOverflow s (before ++ chunk :: after) chunk = some (s', refs) ∧
      NewTable s s' before' new after' refs ∧ MakesRoom s before after chunk before' new after' := by
  have ok := sorted.chunk (s.chunk chunk) (List.mem_map_of_mem (mem_append_right before mem_cons_self))
  have copied := fun new => copyChunks_spec new nodup below
  have split : (before ++ chunk :: after).map s.chunk = before.map s.chunk ++ s.chunk chunk :: after.map s.chunk := by
    rw [map_append, map_cons]
  have lives : liveElements ((before ++ chunk :: after).map s.chunk) = liveElements (before.map s.chunk) ++
      ((s.chunk chunk).data.filter fun ji => !isJitInfoTombstone ji) ++ liveElements (after.map s.chunk) := by
    rw [split, liveElements_append, liveElements_cons, append_assoc]
  -- a copied table lists the new chunks for the full one
  have refsLength : ∀ new, (s.copyChunks chunk new (before ++ chunk :: after)).2.length =
      before.length + new.length + after.length := by
    intro new
    rw [(copied new).refs, length_append, length_append, length_range']
  simp only [jitInfoTableChunkOverflow, jitInfoTableNumElements_eq]
  by_cases water : (liveElements ((before ++ chunk :: after).map s.chunk)).length <
        lowWatermark ((before ++ chunk :: after).length * chunkSize) ∨
      (liveElements ((before ++ chunk :: after).map s.chunk)).length >
        highWatermark ((before ++ chunk :: after).length * chunkSize)
  · rw [if_pos water]
    obtain ⟨new, makes, sortedNew, elements, room, empty⟩ := jitInfoTableRealloc_spec sorted
    refine ⟨_, _, [], new, [], by rw [makes]; rfl, newChunks_spec new s, ?_⟩
    have live : liveElements new = liveElements ((before ++ chunk :: after).map s.chunk) := by
      rw [liveElements, elements, liveElements, List.filter_filter]
      simp only [Bool.and_self]
    constructor
    · simpa using sortedNew
    · simpa using live
    · exact room
    · exact .inr ⟨rfl, rfl⟩
    · exact fun other member ji inside => elements ▸ mem_flatMap.mpr ⟨other, member, inside⟩
    · simpa using empty
  · rw [if_neg water]
    have nonempty : liveElements ((before ++ chunk :: after).map s.chunk) ≠ [] := by
      intro none
      rw [none] at water
      simp only [lowWatermark, chunkSize, length_append, length_cons, length_nil] at water
      omega
    rw [split] at sorted
    by_cases whole : (liveElements [s.chunk chunk]).length = chunkSize
    · rw [if_pos whole]
      obtain ⟨new, makes, two, sortedNew, within, elements⟩ := jitInfoTableSplitChunk_spec ok full
      have allLive : ((s.chunk chunk).data.filter fun ji => !isJitInfoTombstone ji) = (s.chunk chunk).data := by
        apply filter_sublist.eq_of_length
        rw [full, ← whole, liveElements_cons]
        simp [liveElements]
      have live : liveElements new = (s.chunk chunk).data := by
        rw [liveElements, elements, allLive]
      refine ⟨_, _, before, new, after, ?_, copied new, ?_⟩
      · simp only [jitInfoTableCopyAndSplitChunk, makes, bind_eq_bind, bind_some, MonoDomain.copyTable,
          refsLength, two]
        rw [if_pos (by simp only [length_append, length_cons]; omega)]
      · constructor
        · exact sorted.replace sortedNew fun other member => (within other member).1
        · rw [liveElements_append, liveElements_append, live, lives, allLive]
        · exact fun other member => (within other member).2
        · exact .inl ⟨rfl, rfl⟩
        · intro other member ji inside
          rw [lives, allLive, ← elements]
          exact mem_append_left _ (mem_append_right _ (mem_flatMap.mpr ⟨other, member, inside⟩))
        · refine ⟨fun none => ?_, fun none => absurd none nonempty⟩
          rw [none.2] at two
          exact absurd two (by decide)
    · rw [if_neg whole]
      obtain ⟨data, okNew, within⟩ := jitInfoTablePurifyChunk_spec ok
      have room : (jitInfoTablePurifyChunk (s.chunk chunk)).data.length < chunkSize := by
        rw [data]
        apply Nat.lt_of_le_of_ne (full ▸ length_filter_le _ _)
        simpa [liveElements] using whole
      have live : liveElements [jitInfoTablePurifyChunk (s.chunk chunk)] =
          (s.chunk chunk).data.filter fun ji => !isJitInfoTombstone ji := by
        rw [liveElements, flatMap_singleton, data, List.filter_filter]
        simp only [Bool.and_self]
      refine ⟨_, _, before, [jitInfoTablePurifyChunk (s.chunk chunk)], after, ?_, copied _, ?_⟩
      · simp only [jitInfoTableCopyAndPurifyChunk, MonoDomain.copyTable, refsLength]
        rw [if_pos (by simp only [length_append, length_cons, length_nil]; omega)]
      · constructor
        · apply sorted.replace
          · exact ⟨fun other member => mem_singleton.mp member ▸ okNew, pairwise_singleton _ _⟩
          · exact fun other member => mem_singleton.mp member ▸ within
        · rw [liveElements_append, liveElements_append, live, lives]
        · exact fun other member => mem_singleton.mp member ▸ room
        · exact .inl ⟨rfl, rfl⟩
        · intro other member ji inside
          rw [mem_singleton.mp member, data] at inside
          rw [lives]
          exact mem_append_left _ (mem_append_right _ inside)
        · exact ⟨fun none => absurd none.2 (cons_ne_nil _ _), fun none => absurd none nonempty⟩

/-! ### The current table -/

/-- The current table lists allocated chunks, none of them twice, and they are sorted. -/
structure TableOk (s : MonoDomain) : Prop where
  nodup : (s.table s.jitInfoTable).Nodup
  below : ∀ c ∈ s.table s.jitInfoTable, c < s.nextChunk
  sorted : Sorted s.chunks

theorem map_update (chunk : Nat → MonoJitInfoTableChunk) (new : MonoJitInfoTableChunk)
    (nodup : (before ++ c :: after).Nodup) :
    (before ++ c :: after).map (Function.update chunk c new) = before.map chunk ++ new :: after.map chunk := by
  obtain ⟨_, nodupRest, apart⟩ := nodup_append.mp nodup
  have others : ∀ cs : List Nat, c ∉ cs → cs.map (Function.update chunk c new) = cs.map chunk := by
    intro cs outside
    apply map_congr_left
    intro other member
    apply update_of_ne
    rintro rfl
    exact outside member
  rw [map_append, map_cons, update_self,
    others before fun member => apart c member c mem_cons_self rfl,
    others after (nodup_cons.mp nodupRest).1]

theorem table_split {before after : List MonoJitInfoTableChunk} {chunk : MonoJitInfoTableChunk}
    (split : s.chunks = before ++ chunk :: after) :
    ∃ front c back, s.table s.jitInfoTable = front ++ c :: back ∧ front.map s.chunk = before ∧
      s.chunk c = chunk ∧ back.map s.chunk = after ∧ (s.table s.jitInfoTable)[before.length]? = some c := by
  obtain ⟨front, rest, cut, inFront, inRest⟩ := map_eq_append_iff.mp split
  obtain ⟨c, back, cut', here, inBack⟩ := map_eq_cons_iff.mp inRest
  refine ⟨front, c, back, by rw [cut, cut'], inFront, here, inBack, ?_⟩
  rw [cut, cut', ← inFront, length_map, getElem?_append_right (Nat.le_refl _), Nat.sub_self]
  rfl

/-! ### Adding -/

theorem addAttempt_room (ok : TableOk s) (nonempty : s.chunks ≠ []) (room : ¬ ChunkFull s.chunks ji.codeEnd) :
    ∃ c chunk, addAttempt s ji = some ({ s with chunk := Function.update s.chunk c chunk }, true) ∧
      c ∈ s.table s.jitInfoTable ∧
      chunk.data.Perm (ji :: (s.chunk c).data) ∧
      TableOk { s with chunk := Function.update s.chunk c chunk } ∧
      (liveElements { s with chunk := Function.update s.chunk c chunk }.chunks).Perm
        (([ji].filter fun ji => !isJitInfoTombstone ji) ++ liveElements s.chunks) := by
  obtain ⟨before, chunk, after, found, index⟩ := jitInfoTableIndex_spec ok.sorted nonempty ji.codeEnd
  obtain ⟨front, c, back, cut, inFront, here, inBack, at_⟩ := table_split found.split
  have few : chunk.data.length < chunkSize := by
    apply Nat.lt_of_not_le
    intro full
    refine room ⟨before.length, chunk, index, ?_, full⟩
    rw [found.split, getElem?_append_right (Nat.le_refl _), Nat.sub_self]
    rfl
  have sorted := ok.sorted
  have found' := found
  rw [found.split] at sorted found'
  obtain ⟨chunk', inserts, sorted', perm⟩ := insertElement_spec sorted found' few
  have nodup := ok.nodup
  rw [cut] at nodup
  have chunks' : { s with chunk := Function.update s.chunk c chunk' }.chunks = before ++ chunk' :: after := by
    change (s.table s.jitInfoTable).map (Function.update s.chunk c chunk') = _
    rw [cut, map_update s.chunk chunk' nodup, inFront, inBack]
  refine ⟨c, chunk', ?_, ?_, ?_, ⟨ok.nodup, ok.below, chunks' ▸ sorted'⟩, ?_⟩
  · simp only [addAttempt, index, at_, here, bind_eq_bind, bind_some, ge_iff_le, Nat.not_le.mpr few,
      if_false, inserts]
  · rw [cut]
    exact mem_append_right front mem_cons_self
  · rw [here]
    exact perm
  · rw [chunks', found.split, liveElements_append, liveElements_append, liveElements_cons, liveElements_cons]
    have lives := perm.filter fun ji => !isJitInfoTombstone ji
    rw [show ji :: chunk.data = [ji] ++ chunk.data from rfl, filter_append] at lives
    refine ((lives.append_right _).append_left _).trans ?_
    rw [append_assoc]
    exact perm_append_comm_assoc _ _ _

theorem addAttempt_full (ok : TableOk s) (full : ChunkFull s.chunks ji.codeEnd) :
    ∃ s' refs before chunk after before' new after', addAttempt s ji = some (s'.publish refs, false) ∧
      s.table s.jitInfoTable = before ++ chunk :: after ∧
      NewTable s s' before' new after' refs ∧ MakesRoom s before after chunk before' new after' ∧
      chunkSize ≤ (s.chunk chunk).data.length := by
  obtain ⟨chunkPos, chunk, index, inside, full⟩ := full
  have nonempty : s.chunks ≠ [] := by
    intro none
    rw [none] at inside
    exact absurd inside.symm (some_ne_none _)
  obtain ⟨before, chunk', after, found, index'⟩ := jitInfoTableIndex_spec ok.sorted nonempty ji.codeEnd
  obtain ⟨front, c, back, cut, inFront, here, inBack, at_⟩ := table_split found.split
  have place : chunkPos = before.length := Option.some.inj (index.symm.trans index')
  have same : chunk' = chunk := by
    rw [found.split, place, getElem?_append_right (Nat.le_refl _), Nat.sub_self] at inside
    exact Option.some.inj inside
  have nodup := ok.nodup
  have below := ok.below
  have sorted := ok.sorted
  rw [MonoDomain.chunks] at sorted
  rw [cut] at nodup below sorted
  have okChunk := sorted.chunk (s.chunk c) (List.mem_map_of_mem (mem_append_right front mem_cons_self))
  have full' : chunkSize ≤ (s.chunk c).data.length := by rw [here, same]; exact full
  obtain ⟨s', refs, before', new, after', overflow, made, room⟩ :=
    jitInfoTableChunkOverflow_spec nodup below sorted (Nat.le_antisymm okChunk.few full')
  refine ⟨s', refs, front, c, back, before', new, after', ?_, cut, made, room, full'⟩
  rw [← cut] at overflow
  simp only [addAttempt, index', at_, bind_eq_bind, bind_some, ge_iff_le, full', if_true, overflow]

theorem chunks_publish (s : MonoDomain) (refs : List Nat) : (s.publish refs).chunks = refs.map s.chunk := by
  simp [MonoDomain.publish, MonoDomain.chunks]

theorem publish_spec {before' after' : List Nat} (ok : TableOk s)
    (cut : s.table s.jitInfoTable = before ++ chunk :: after) (made : NewTable s s' before' new after' refs)
    (room : MakesRoom s before after chunk before' new after') (full : chunkSize ≤ (s.chunk chunk).data.length) :
    TableOk (s'.publish refs) ∧ liveElements (s'.publish refs).chunks = liveElements s.chunks ∧
      ((s'.publish refs).chunks = [] ↔ liveElements s.chunks = []) ∧
      fullChunks (s'.publish refs).chunks < fullChunks s.chunks := by
  have nodup := ok.nodup
  have below := ok.below
  rw [cut] at nodup below
  have kept : (before' ++ after').Nodup ∧ ∀ c ∈ before' ++ after', c < s.nextChunk := by
    rcases room.kept with ⟨rfl, rfl⟩ | ⟨rfl, rfl⟩
    · have sublist : (before' ++ after').Sublist (before' ++ chunk :: after') :=
        (List.Sublist.refl _).append (sublist_cons_self _ _)
      exact ⟨nodup.sublist sublist, fun c member => below c (sublist.subset member)⟩
    · exact ⟨nodup_nil, fun _ member => absurd member not_mem_nil⟩
  have chunks := made.chunks kept.2
  obtain ⟨nodup', below'⟩ := made.nodup kept.1 kept.2
  have old : s.chunks = (before ++ chunk :: after).map s.chunk := by rw [MonoDomain.chunks, cut]
  have table : (s'.publish refs).table (s'.publish refs).jitInfoTable = refs := update_self ..
  rw [chunks_publish, chunks, old]
  refine ⟨⟨by rw [table]; exact nodup', by rw [table]; exact below', ?_⟩, room.live, ?_, ?_⟩
  · rw [chunks_publish, chunks]
    exact room.sorted
  · rw [← room.empty]
    simp only [append_eq_nil_iff, map_eq_nil_iff]
    exact and_right_comm
  · have zero := fullChunks_eq_zero room.room
    unfold fullChunks at zero ⊢
    rw [countP_append, countP_append, zero, map_append, map_cons, countP_append,
      countP_cons_of_pos (by simpa using full)]
    rcases room.kept with ⟨rfl, rfl⟩ | ⟨rfl, rfl⟩
    · omega
    · simp only [map_nil, countP_nil]
      omega

/-! ### Freeing leaves the current table alone -/

/-- Two states with the same tables and chunks. -/
structure SameTables (s s' : MonoDomain) : Prop where
  chunk : s'.chunk = s.chunk
  table : s'.table = s.table
  current : s'.jitInfoTable = s.jitInfoTable
  next : s'.nextChunk = s.nextChunk

theorem SameTables.refl (s : MonoDomain) : SameTables s s := ⟨rfl, rfl, rfl, rfl⟩

theorem SameTables.trans {s'' : MonoDomain} (first : SameTables s s') (second : SameTables s' s'') : SameTables s s'' :=
  ⟨second.chunk.trans first.chunk, second.table.trans first.table, second.current.trans first.current,
    second.next.trans first.next⟩

theorem SameTables.foldl {α : Type} {f : MonoDomain → α → MonoDomain} (step : ∀ s a, SameTables s (f s a))
    (items : List α) (s : MonoDomain) : SameTables s (items.foldl f s) := by
  induction items generalizing s with
  | nil => exact .refl s
  | cons a items ih => exact (step s a).trans (ih (f s a))

theorem SameTables.chunks (same : SameTables s s') : s'.chunks = s.chunks := by
  rw [MonoDomain.chunks, MonoDomain.chunks, same.chunk, same.table, same.current]

theorem SameTables.ok (same : SameTables s s') (ok : TableOk s) : TableOk s' := by
  constructor
  · rw [same.table, same.current]
    exact ok.nodup
  · rw [same.table, same.current, same.next]
    exact ok.below
  · rw [same.chunks]
    exact ok.sorted

theorem sameTables_freeElement (s : MonoDomain) (ji : MonoJitInfo) : SameTables s (s.freeElement ji) := by
  unfold MonoDomain.freeElement
  split <;> split <;> exact ⟨rfl, rfl, rfl, rfl⟩

theorem sameTables_unrefChunk (s : MonoDomain) (c : Nat) : SameTables s (s.unrefChunk c) := by
  unfold MonoDomain.unrefChunk
  simp only
  split
  · exact ⟨rfl, rfl, rfl, rfl⟩
  · have loop := SameTables.foldl sameTables_freeElement (s.chunk c).data
      { s with refcount := Function.update s.refcount c (s.refcount c - 1) }
    exact ⟨loop.chunk, loop.table, loop.current, loop.next⟩

theorem sameTables_drainQueue (s : MonoDomain) : SameTables s s.drainQueue := by
  unfold MonoDomain.drainQueue
  simp only
  split <;> exact ⟨rfl, rfl, rfl, rfl⟩

theorem sameTables_jitInfoTableFree (s : MonoDomain) (table : Nat) : SameTables s (jitInfoTableFree s table) := by
  have loop := (sameTables_drainQueue s).trans
    (SameTables.foldl sameTables_unrefChunk (s.table table) s.drainQueue)
  exact ⟨loop.chunk, loop.table, loop.current, loop.next⟩

theorem sameTables_release (s : MonoDomain) (hazard : Hazard) : SameTables s (release s hazard) := by
  unfold release
  split
  · cases hazard with
    | table table =>
      have freed := sameTables_jitInfoTableFree { s with hazardous := s.hazardous.erase (.table table) } table
      exact ⟨freed.chunk, freed.table, freed.current, freed.next⟩
    | info ji => exact ⟨rfl, rfl, rfl, rfl⟩
  · exact .refl s

/-! ### A whole add -/

theorem filter_alive (alive : isJitInfoTombstone ji = false) (rest : List MonoJitInfo) :
    ([ji].filter fun ji => !isJitInfoTombstone ji) ++ rest = ji :: rest := by
  simp [alive]

/-- The passes of an add end with the entry in the table: each pass that finds a full chunk leaves fewer of
them. -/
theorem addLoop_spec (alive : isJitInfoTombstone ji = false) :
    ∀ (fuel : Nat) (released : List (List Hazard)) (s : MonoDomain), TableOk s → s.chunks ≠ [] →
      fullChunks s.chunks < fuel → (ChunkFull s.chunks ji.codeEnd → liveElements s.chunks ≠ []) →
      ∃ s', addLoop ji fuel released s = some s' ∧ TableOk s' ∧ s'.chunks ≠ [] ∧
        (liveElements s'.chunks).Perm (ji :: liveElements s.chunks)
  | 0, _, _, _, _, short, _ => absurd short (Nat.not_lt_zero _)
  | fuel + 1, released, s, ok, nonempty, short, room => by
      rw [addLoop]
      by_cases full : ChunkFull s.chunks ji.codeEnd
      · obtain ⟨s', refs, before, chunk, after, before', new, after', attempt, cut, made, makes, isFull⟩ :=
          addAttempt_full ok full
        obtain ⟨ok', live, empty, fewer⟩ := publish_spec ok cut made makes isFull
        have same := SameTables.foldl sameTables_release (released.headD []) (s'.publish refs)
        have rest := addLoop_spec alive fuel released.tail _ (same.ok ok')
          (by rw [same.chunks]; exact mt empty.mp (room full)) (by rw [same.chunks]; omega)
          (by rw [same.chunks, live]; exact fun _ => room full)
        rw [same.chunks, live] at rest
        simpa only [attempt, bind_eq_bind, bind_some, Bool.false_eq_true, if_false] using rest
      · obtain ⟨c, chunk, attempt, _, _, ok', live⟩ := addAttempt_room ok nonempty full
        refine ⟨_, by simp only [attempt, bind_eq_bind, bind_some, if_true], ok', ?_, ?_⟩
        · intro none
          rw [none, filter_alive alive] at live
          exact absurd live (not_perm_nil_cons _ _)
        · rwa [filter_alive alive] at live

/-- `mono_jit_info_table_add` adds the entry unless its chunk is full and no entry is live: there are no more passes
than chunks. -/
theorem monoJitInfoTableAdd_spec (ji : MonoJitInfo) (alive : isJitInfoTombstone ji = false) (ok : TableOk s)
    (nonempty : s.chunks ≠ []) (room : ChunkFull s.chunks ji.codeEnd → liveElements s.chunks ≠ [])
    (released : List (List Hazard)) : ∃ s', monoJitInfoTableAdd s ji released = some s' ∧ TableOk s' ∧ s'.chunks ≠ [] ∧
      (liveElements s'.chunks).Perm (ji :: liveElements s.chunks) :=
  addLoop_spec alive _ released s ok nonempty (Nat.lt_succ_of_le countP_le_length) room

/-- Without a live entry a full chunk gives way to a table without chunks, and the next pass fails. -/
theorem monoJitInfoTableAdd_fails (ji : MonoJitInfo) (ok : TableOk s) (full : ChunkFull s.chunks ji.codeEnd)
    (dead : liveElements s.chunks = []) (released : List (List Hazard)) : monoJitInfoTableAdd s ji released = none := by
  obtain ⟨s', refs, before, chunk, after, before', new, after', attempt, cut, made, makes, isFull⟩ :=
    addAttempt_full ok full
  obtain ⟨_, _, empty, _⟩ := publish_spec ok cut made makes isFull
  have same := SameTables.foldl sameTables_release (released.headD []) (s'.publish refs)
  have gone := same.chunks.trans (empty.mpr dead)
  rw [monoJitInfoTableAdd, addLoop]
  simp only [attempt, bind_eq_bind, bind_some, Bool.false_eq_true, if_false]
  cases s.chunks.length with
  | zero => rfl
  | succ fuel =>
    rw [addLoop, addAttempt, gone]
    rfl

/-! ### Removing -/

/-- A tombstone in a chunk of the table keeps it in order, and it has one live entry less. -/
theorem tombstone_spec {tombstone : MonoJitInfo} {front back : List Nat} {first second : List MonoJitInfo}
    (ok : TableOk s) (cut : s.table s.jitInfoTable = front ++ c :: back)
    (data : (s.chunk c).data = first ++ ji :: second) (ends : tombstone.codeEnd = ji.codeEnd)
    (alive : isJitInfoTombstone ji = false) (dead : isJitInfoTombstone tombstone = true) :
    Sorted (front.map s.chunk ++ { s.chunk c with data := first ++ tombstone :: second } :: back.map s.chunk) ∧
      (ji :: liveElements
        (front.map s.chunk ++ { s.chunk c with data := first ++ tombstone :: second } :: back.map s.chunk)).Perm
          (liveElements s.chunks) := by
  have split : s.chunks = front.map s.chunk ++ s.chunk c :: back.map s.chunk := by
    rw [MonoDomain.chunks, cut, map_append, map_cons]
  have sorted := ok.sorted
  rw [split] at sorted
  have okNew := (sorted.chunk (s.chunk c) (mem_append_right _ mem_cons_self)).tombstone data ends
  have within : Within (s.chunk c) { s.chunk c with data := first ++ tombstone :: second } := by
    refine ⟨?_, .inl rfl, Nat.le_refl _⟩
    intro other inside
    rw [data]
    rcases mem_append.mp inside with inside | inside
    · exact ⟨other, mem_append_left _ inside, Nat.le_refl _⟩
    · rcases mem_cons.mp inside with rfl | inside
      · exact ⟨ji, mem_append_right first mem_cons_self, Nat.le_of_eq ends.symm⟩
      · exact ⟨other, mem_append_right first (mem_cons_of_mem ji inside), Nat.le_refl _⟩
  constructor
  · have replaced : Sorted
        (front.map s.chunk ++ [{ s.chunk c with data := first ++ tombstone :: second }] ++ back.map s.chunk) :=
      sorted.replace
        ⟨fun other inside => mem_singleton.mp inside ▸ okNew, pairwise_singleton _ _⟩
        (fun other inside => mem_singleton.mp inside ▸ within)
    rwa [append_assoc] at replaced
  · rw [split, liveElements_append, liveElements_append, liveElements_cons, liveElements_cons]
    simp only [data, filter_append, filter_cons, alive, dead, Bool.not_true, Bool.not_false, if_true,
      Bool.false_eq_true, if_false, append_assoc, cons_append]
    exact perm_middle.symm.trans (perm_middle.symm.append_left _)

/-- `mono_jit_info_table_remove` puts a tombstone in the place of the entry that its search finds. -/
theorem monoJitInfoTableRemove_at {front back : List Nat} {first second : List MonoJitInfo} (ok : TableOk s)
    (cut : s.table s.jitInfoTable = front ++ c :: back) (data : (s.chunk c).data = first ++ ji :: second)
    (found : removeSearch s.chunks ji = some (front.length, first.length)) :
    monoJitInfoTableRemove s ji = some (monoJitInfoFreeOrQueue
        { (monoJitInfoMakeTombstone s ji).1 with
          chunk := Function.update s.chunk c
            { s.chunk c with data := first ++ (monoJitInfoMakeTombstone s ji).2 :: second } } ji) ∧
      (s.table s.jitInfoTable).map (Function.update s.chunk c
          { s.chunk c with data := first ++ (monoJitInfoMakeTombstone s ji).2 :: second }) =
        front.map s.chunk ++ { s.chunk c with data := first ++ (monoJitInfoMakeTombstone s ji).2 :: second } ::
          back.map s.chunk := by
  have at_ : (s.table s.jitInfoTable)[front.length]? = some c := by
    rw [cut, getElem?_append_right (Nat.le_refl _), Nat.sub_self]
    rfl
  have wrote : ∀ tombstone, (s.chunk c).data.set first.length tombstone = first ++ tombstone :: second := by
    intro tombstone
    rw [data, set_append_right _ _ (Nat.le_refl _), Nat.sub_self]
    rfl
  constructor
  · have same : (monoJitInfoMakeTombstone s ji).1.chunk = s.chunk := rfl
    simp only [monoJitInfoTableRemove, found, at_, bind_eq_bind, bind_some, same, wrote]
  · have nodup := ok.nodup
    rw [cut] at nodup
    rw [cut, map_update s.chunk _ nodup]

theorem sameTables_monoJitInfoFreeOrQueue (s : MonoDomain) (ji : MonoJitInfo) :
    SameTables s (monoJitInfoFreeOrQueue s ji) := by
  unfold monoJitInfoFreeOrQueue
  split <;> exact ⟨rfl, rfl, rfl, rfl⟩

theorem monoJitInfoTableRemove_spec (ok : TableOk s) (live : LiveOk (liveElements s.chunks))
    (member : ji ∈ liveElements s.chunks) : ∃ s', monoJitInfoTableRemove s ji = some s' ∧ TableOk s' ∧ s'.chunks ≠ [] ∧
      (ji :: liveElements s'.chunks).Perm (liveElements s.chunks) := by
  obtain ⟨before, chunk, after, first, second, split, data, found⟩ := removeSearch_spec ok.sorted live member
  obtain ⟨front, c, back, cut, inFront, here, _, _⟩ := table_split split
  rw [← here] at data
  rw [← inFront, length_map] at found
  obtain ⟨removes, chunks⟩ := monoJitInfoTableRemove_at ok cut data found
  obtain ⟨sorted, perm⟩ := tombstone_spec ok cut data
    (show (monoJitInfoMakeTombstone s ji).2.codeEnd = ji.codeEnd from rfl) (live.method ji member) rfl
  have same := sameTables_monoJitInfoFreeOrQueue
    { (monoJitInfoMakeTombstone s ji).1 with
      chunk := Function.update s.chunk c
        { s.chunk c with data := first ++ (monoJitInfoMakeTombstone s ji).2 :: second } } ji
  have now := same.chunks.trans chunks
  refine ⟨_, removes, same.ok ⟨ok.nodup, ok.below, (congrArg Sorted chunks).mpr sorted⟩, ?_, ?_⟩
  · rw [now]
    exact append_ne_nil_of_right_ne_nil _ (cons_ne_nil _ _)
  · rw [now]
    exact perm

/-! ### Sequences of calls -/

/-- The table is in order, and its live entries are the live methods. -/
structure MethodsOk (m : Methods) : Prop where
  table : TableOk m.domain
  nonempty : m.domain.chunks ≠ []
  live : (liveElements m.domain.chunks).Perm m.live
  apart : LiveOk m.live

theorem MethodsOk.create : MethodsOk .create where
  table := by
    refine ⟨by decide, by decide, ?_⟩
    exact ⟨fun chunk member => mem_singleton.mp member ▸ ChunkOk.empty 0, pairwise_singleton _ _⟩
  nonempty := by decide
  live := List.Perm.refl _
  apart := ⟨fun _ member => absurd member not_mem_nil, fun _ member => absurd member not_mem_nil,
    List.Pairwise.nil⟩

theorem MethodsOk.findsLive (ok : MethodsOk m) : m.FindsLive where
  chunks := length_pos_iff.mpr ok.nonempty
  finds := by
    intro addr
    obtain ⟨result, finds, exact_⟩ :=
      monoJitInfoTableFind_spec ok.table.sorted ok.nonempty (ok.apart.perm ok.live.symm) addr
    refine ⟨result, finds, fun ji => ?_⟩
    rw [exact_ ji, ok.live.mem_iff]

/-- A call that the callers may make succeeds exactly when it has room, and keeps the table in order. -/
theorem MethodsOk.call (ok : MethodsOk m) (call : JitInfoCall) (allowed : m.Allows call) :
    (m.HasRoom call → ∃ m', m.call call = some m' ∧ MethodsOk m') ∧ (¬ m.HasRoom call → m.call call = none) := by
  cases call with
  | add codeStart codeSize method released =>
    obtain ⟨size, apart⟩ := allowed
    have same : SameTables m.domain (m.domain.newJitInfo codeStart codeSize method).1 := ⟨rfl, rfl, rfl, rfl⟩
    have none_iff : liveElements m.domain.chunks = [] ↔ m.live = [] := by
      rw [← length_eq_zero_iff, ok.live.length_eq, length_eq_zero_iff]
    constructor
    · intro room
      obtain ⟨s', adds, ok', nonempty, live⟩ := monoJitInfoTableAdd_spec
        (m.domain.newJitInfo codeStart codeSize method).2 rfl (same.ok ok.table)
        (by rw [same.chunks]; exact ok.nonempty)
        (by rw [same.chunks]; exact fun full => mt none_iff.mp (room full)) released
      refine ⟨⟨s', _⟩, by simp only [Methods.call, adds, bind_eq_bind, bind_some], ok', nonempty,
        live.trans (ok.live.cons _), ?_⟩
      constructor
      · intro ji member
        rcases mem_cons.mp member with rfl | member
        · exact size
        · exact ok.apart.size ji member
      · intro ji member
        rcases mem_cons.mp member with rfl | member
        · rfl
        · exact ok.apart.method ji member
      · exact pairwise_cons.mpr ⟨apart, ok.apart.apart⟩
    · intro noRoom
      simp only [Methods.HasRoom, Classical.not_imp, not_not] at noRoom
      have fails := monoJitInfoTableAdd_fails (m.domain.newJitInfo codeStart codeSize method).2
        (same.ok ok.table) (by rw [same.chunks]; exact noRoom.1)
        (by rw [same.chunks]; exact none_iff.mpr noRoom.2) released
      simp only [Methods.call, fails, bind_eq_bind, bind_none]
  | remove ji =>
    refine ⟨fun _ => ?_, fun noRoom => absurd trivial noRoom⟩
    obtain ⟨s', removes, ok', nonempty, live⟩ := monoJitInfoTableRemove_spec ok.table
      (ok.apart.perm ok.live.symm) (ok.live.mem_iff.mpr allowed)
    have perm := (cons_perm_iff_perm_erase.mp (live.trans ok.live)).2
    have subset : ∀ other ∈ m.live.erase ji, other ∈ m.live := fun other member => mem_of_mem_erase member
    exact ⟨⟨s', _⟩, by simp only [Methods.call, removes, bind_eq_bind, bind_some], ok', nonempty,
      perm, fun other member => ok.apart.size other (subset other member),
      fun other member => ok.apart.method other (subset other member), ok.apart.apart.sublist erase_sublist⟩
  | release hazard =>
    refine ⟨fun _ => ?_, fun noRoom => absurd trivial noRoom⟩
    have same := sameTables_release m.domain hazard
    exact ⟨_, rfl, same.ok ok.table, by rw [same.chunks]; exact ok.nonempty,
      by rw [same.chunks]; exact ok.live, ok.apart⟩

/-- From a state in order the calls work exactly when each add has room; the induction is on the calls. -/
theorem MethodsOk.works_iff (ok : MethodsOk m) (calls : List JitInfoCall)
    (respects : m.Respects calls) : m.Works calls ↔ m.KeepsRoom calls := by
  induction calls generalizing m with
  | nil => exact ⟨fun _ => trivial, fun _ => ok.findsLive⟩
  | cons call calls ih =>
    obtain ⟨allowed, respects⟩ := respects
    obtain ⟨succeeds, fails⟩ := ok.call call allowed
    constructor
    · intro ⟨_, m', calls_, works⟩
      have room : m.HasRoom call := by
        by_contra noRoom
        rw [fails noRoom] at calls_
        exact absurd calls_.symm (some_ne_none _)
      obtain ⟨m'', calls', ok'⟩ := succeeds room
      have same : m'' = m' := Option.some.inj (calls'.symm.trans calls_)
      subst same
      refine ⟨room, fun next calls'' => ?_⟩
      have same : m'' = next := Option.some.inj (calls'.symm.trans calls'')
      subst same
      exact (ih ok' (respects m'' calls')).mp works
    · intro ⟨room, keeps⟩
      obtain ⟨m', calls', ok'⟩ := succeeds room
      exact ⟨ok.findsLive, m', calls', (ih ok' (respects m' calls')).mpr (keeps m' calls')⟩

/-- In every sequence of calls on a new domain no call fails, the table has a chunk and each search finds the live
method at its address, exactly when no add meets a full chunk while no method is live. -/
theorem monoJitInfoTable_works_iff (calls : List JitInfoCall) (respects : Methods.create.Respects calls) :
    Methods.create.Works calls ↔ Methods.create.KeepsRoom calls :=
  MethodsOk.create.works_iff calls respects

/-- Code that is compiled, thrown away, and compiled at an address that overlaps it. -/
def sampleCalls : List JitInfoCall :=
  [.add 0 16 0 [], .add 32 16 1 [], .remove ⟨0, 0, 16, some 0⟩, .add 8 16 2 [], .release (.info ⟨0, 0, 16, some 0⟩)]

theorem monoJitInfoTable_works_sample :
    Methods.create.Respects sampleCalls ∧
      (Methods.create.Works sampleCalls ↔ Methods.create.KeepsRoom sampleCalls) :=
  have respects : Methods.create.Respects sampleCalls := by decide
  ⟨respects, monoJitInfoTable_works_iff sampleCalls respects⟩

/-- The first chunk is filled, all its methods are removed, and one more is added. -/
def deadTableCalls : List JitInfoCall :=
  (List.range 64).map (fun n => .add (16 * n) 16 n []) ++
    (List.range 64).map (fun n => .remove ⟨n, 16 * n, 16, some n⟩) ++ [.add 0 16 64 []]

theorem Methods.Works.runs {calls : List JitInfoCall} (works : m.Works calls) :
    ∃ m', calls.foldlM Methods.call m = some m' := by
  induction calls generalizing m with
  | nil => exact ⟨m, rfl⟩
  | cons call calls ih =>
    obtain ⟨_, m', result, works⟩ := works
    obtain ⟨m'', runs⟩ := ih works
    exact ⟨m'', by rw [foldlM_cons, result]; exact runs⟩

/-- The table without chunks that takes the place of a table of tombstones makes the add fail. -/
theorem monoJitInfoTable_fails :
    ¬ ∀ calls, Methods.create.Respects calls → Methods.create.Works calls := by
  intro always
  have respects : Methods.create.Respects deadTableCalls := by decide +kernel
  obtain ⟨m', runs⟩ := (always deadTableCalls respects).runs
  have fails : (deadTableCalls.foldlM Methods.call Methods.create).isSome = false := by decide +kernel
  rw [runs] at fails
  exact Bool.noConfusion fails

end MonoRuntime.JitInfoTable
