/-
Module: MonoRuntime.Metadata.JitInfoTable
Purpose: The table of compiled methods of a domain (`domain.c`): the chunks sorted by the end of the code, the
  search for the method at an address, what an add does when the chunk it needs is full, the tombstones, and the
  memory behind it all: tables that share chunks through reference counts, and the two queues of what is freed
  later.
Trusted boundary: addresses and counts are natural numbers; a `MonoJitInfo` never changes once it is allocated, so
  it is modelled by its contents with its address; `num_elements` is the length of the list `data`; locks, memory
  barriers, statistics and the hazard pointers of readers are left out, and the AOT modules that a search falls
  back on too. Freeing marks an identity as freed and leaves its contents readable.
Main exports: MonoDomain
-/
import MonoRuntime.Lib.BinarySearch

namespace MonoRuntime.JitInfoTable

/-! ### Entries and chunks -/

/-- `MonoJitInfo` and the address it is allocated at; a tombstone has no method. -/
structure MonoJitInfo where
  address : Nat
  codeStart : Nat
  codeSize : Nat
  method : Option Nat
deriving DecidableEq, Repr

/-- The first address behind the code. -/
def MonoJitInfo.codeEnd (ji : MonoJitInfo) : Nat := ji.codeStart + ji.codeSize

/-- `IS_JIT_INFO_TOMBSTONE` -/
def isJitInfoTombstone (ji : MonoJitInfo) : Bool := ji.method.isNone

/-- The code of the entry contains an address. -/
def MonoJitInfo.Covers (ji : MonoJitInfo) (addr : Nat) : Prop :=
  ji.codeStart ≤ addr ∧ addr < ji.codeEnd

instance (ji : MonoJitInfo) (addr : Nat) : Decidable (ji.Covers addr) :=
  inferInstanceAs (Decidable (_ ∧ _))

/-- `MonoJitInfoTableChunk` without its reference count. -/
structure MonoJitInfoTableChunk where
  lastCodeEnd : Nat
  data : List MonoJitInfo
deriving DecidableEq, Repr

/-- `MONO_JIT_INFO_TABLE_CHUNK_SIZE` -/
def chunkSize : Nat := 64

/-- `JIT_INFO_TABLE_FILLED_NUM_ELEMENTS` -/
def filledNumElements : Nat := chunkSize * 3 / 4

/-- `JIT_INFO_TABLE_LOW_WATERMARK` -/
def lowWatermark (n : Nat) : Nat := n / 2

/-- `JIT_INFO_TABLE_HIGH_WATERMARK` -/
def highWatermark (n : Nat) : Nat := n * 5 / 6

/-- A chunk with these elements, its `last_code_end` read from the last of them: there is one. -/
def chunkOf (data : List MonoJitInfo) : Option MonoJitInfoTableChunk :=
  data.getLast?.map fun ji => ⟨ji.codeEnd, data⟩

/-- `jit_info_table_num_elements`: the elements that are no tombstones. -/
def jitInfoTableNumElements (chunks : List MonoJitInfoTableChunk) : Nat :=
  chunks.foldl
    (fun n chunk => chunk.data.foldl (fun n ji => if isJitInfoTombstone ji then n else n + 1) n) 0

/-! ### Searching -/

/-- `jit_info_table_index`: the first chunk whose last code ends beyond the address, or the last chunk. The
assertion at its start fails on a table without chunks. -/
def jitInfoTableIndex (chunks : List MonoJitInfoTableChunk) (addr : Nat) : Option Nat :=
  if 0 < chunks.length then
    let left := firstBeyond (fun pos => chunks[pos]?.any fun chunk => decide (addr < chunk.lastCodeEnd)) chunks.length
    if left ≥ chunks.length then some (chunks.length - 1) else some left
  else none

/-- `jit_info_table_chunk_index`: the first element that ends beyond the address. -/
def jitInfoTableChunkIndex (chunk : MonoJitInfoTableChunk) (addr : Nat) : Nat :=
  firstBeyond (fun pos => chunk.data[pos]?.any fun ji => decide (addr < ji.codeEnd)) chunk.data.length

/-- How the search through one chunk ends. -/
inductive Scan where
  | found (ji : MonoJitInfo)
  | notFound
  | next

/-- The elements of a chunk from a position on: tombstones are passed, and an element that starts beyond the
address ends the search. -/
def scanChunk (addr : Nat) : List MonoJitInfo → Scan
  | [] => .next
  | ji :: rest =>
      if isJitInfoTombstone ji then scanChunk addr rest
      else if ji.Covers addr then .found ji
      else if addr < ji.codeStart then .notFound
      else scanChunk addr rest

/-- The chunks from one on, the first of them from a position on. -/
def scanChunks (addr : Nat) : (pos : Nat) → List MonoJitInfoTableChunk → Option MonoJitInfo
  | _, [] => none
  | pos, chunk :: rest =>
      match scanChunk addr (chunk.data.drop pos) with
      | .found ji => some ji
      | .notFound => none
      | .next => scanChunks addr 0 rest

/-- `mono_jit_info_table_find` over the chunks of the current table; the outer `none` is a failed assertion. -/
def monoJitInfoTableFind (chunks : List MonoJitInfoTableChunk) (addr : Nat) : Option (Option MonoJitInfo) := do
  let chunkPos ← jitInfoTableIndex chunks addr
  let chunk ← chunks[chunkPos]?
  some (scanChunks addr (jitInfoTableChunkIndex chunk addr) (chunks.drop chunkPos))

/-! ### New chunks from old -/

/-- Where the new table stands while it is filled: the chunks that are full and the elements of the next. -/
structure Filling where
  full : List (List MonoJitInfo)
  elements : List MonoJitInfo

/-- One element of the old table: there is a chunk for each that is no tombstone. -/
def fillElement (numChunks : Nat) (f : Filling) (ji : MonoJitInfo) : Option Filling :=
  if isJitInfoTombstone ji then some f
  else if f.full.length < numChunks then
    if f.elements.length + 1 ≥ filledNumElements then some ⟨f.full ++ [f.elements ++ [ji]], []⟩
    else some ⟨f.full, f.elements ++ [ji]⟩
  else none

/-- The number of chunks that `jit_info_table_realloc` makes for so many elements. -/
def reallocNumChunks (numElements : Nat) : Nat :=
  (numElements * 4 / 3 + chunkSize - 1) / chunkSize

/-- The last chunk, where it is not full, with the assertions about it. -/
def finishFilling (numChunks : Nat) (f : Filling) : Option (List (List MonoJitInfo)) :=
  if f.full.length < numChunks then
    if f.full.length = numChunks - 1 ∧ 0 < f.elements.length then some (f.full ++ [f.elements]) else none
  else some f.full

/-- `jit_info_table_realloc`: all live elements, in chunks that are three quarters full. -/
def jitInfoTableRealloc (old : List MonoJitInfoTableChunk) : Option (List MonoJitInfoTableChunk) := do
  let numChunks := reallocNumChunks (jitInfoTableNumElements old)
  let filling ← (old.flatMap MonoJitInfoTableChunk.data).foldlM (fillElement numChunks) ⟨[], []⟩
  let chunks ← finishFilling numChunks filling
  chunks.mapM chunkOf

/-- `jit_info_table_split_chunk`: the two halves of a full chunk. -/
def jitInfoTableSplitChunk (chunk : MonoJitInfoTableChunk) : Option (List MonoJitInfoTableChunk) :=
  if chunk.data.length = chunkSize then
    [chunk.data.take (chunkSize / 2), chunk.data.drop (chunkSize / 2)].mapM chunkOf
  else none

/-- `jit_info_table_purify_chunk`: a chunk without its tombstones; when nothing is left it keeps its
`last_code_end`. -/
def jitInfoTablePurifyChunk (old : MonoJitInfoTableChunk) : MonoJitInfoTableChunk :=
  let data := old.data.filter fun ji => !isJitInfoTombstone ji
  (chunkOf data).getD ⟨old.lastCodeEnd, data⟩

/-- Make room at a position: the elements behind it move up by one, the last first. -/
def shiftUp (pos : Nat) : (count : Nat) → List MonoJitInfo → List MonoJitInfo
  | 0, data => data
  | count + 1, data =>
      match data[pos + count]? with
      | some ji => shiftUp pos count (data.set (pos + count + 1) ji)
      | none => data

/-- What `mono_jit_info_table_add` does to a chunk with room: its last element is copied, or the first one
inserted, the elements move up, and the new one takes its position. -/
def insertElement (chunk : MonoJitInfoTableChunk) (ji : MonoJitInfo) : Option MonoJitInfoTableChunk :=
  let pos := jitInfoTableChunkIndex chunk ji.codeEnd
  let sized := chunk.data ++ [chunk.data.getLast?.getD ji]
  chunkOf ((shiftUp pos (sized.length - 1 - pos) sized).set pos ji)

/-! ### The memory -/

/-- What waits until no reader holds it, with the function that then frees it. -/
inductive Hazard where
  | table (table : Nat)
  | info (ji : MonoJitInfo)
deriving DecidableEq

/-- The part of `MonoDomain` about compiled methods, and the heap: the chunks and the tables by their identities,
what is allocated next, what was made and freed so far, and the freed entries that were read. -/
structure MonoDomain where
  chunk : Nat → MonoJitInfoTableChunk
  refcount : Nat → Int
  table : Nat → List Nat
  jitInfoTable : Nat
  numJitInfoTables : Int
  jitInfoFreeQueue : List MonoJitInfo
  hazardous : List Hazard
  nextChunk : Nat
  nextTable : Nat
  nextInfo : Nat
  tombstones : List MonoJitInfo
  freedInfos : List MonoJitInfo
  freedChunks : List Nat
  freedTables : List Nat
  inspectedFreed : List MonoJitInfo

/-- The chunks of the current table. -/
def MonoDomain.chunks (s : MonoDomain) : List MonoJitInfoTableChunk :=
  (s.table s.jitInfoTable).map s.chunk

/-- A domain as `mono_domain_create` makes it: one table with one empty chunk. -/
def MonoDomain.create : MonoDomain where
  chunk := fun _ => ⟨0, []⟩
  refcount := fun c => if c = 0 then 1 else 0
  table := fun t => if t = 0 then [0] else []
  jitInfoTable := 0
  numJitInfoTables := 1
  jitInfoFreeQueue := []
  hazardous := []
  nextChunk := 1
  nextTable := 1
  nextInfo := 0
  tombstones := []
  freedInfos := []
  freedChunks := []
  freedTables := []
  inspectedFreed := []

/-- The caller of `mono_jit_info_table_add` allocates the entry of a method. -/
def MonoDomain.newJitInfo (s : MonoDomain) (codeStart codeSize method : Nat) : MonoDomain × MonoJitInfo :=
  ({ s with nextInfo := s.nextInfo + 1 }, ⟨s.nextInfo, codeStart, codeSize, some method⟩)

/-- `jit_info_table_new_chunk`, filled: its reference count is one. -/
def MonoDomain.newChunk (s : MonoDomain) (chunk : MonoJitInfoTableChunk) : MonoDomain :=
  { s with
    chunk := Function.update s.chunk s.nextChunk chunk
    refcount := Function.update s.refcount s.nextChunk 1
    nextChunk := s.nextChunk + 1 }

/-- New chunks one by one, with their identities. -/
def MonoDomain.newChunks : MonoDomain → List MonoJitInfoTableChunk → MonoDomain × List Nat
  | s, [] => (s, [])
  | s, chunk :: rest =>
      let (s', refs) := (s.newChunk chunk).newChunks rest
      (s', s.nextChunk :: refs)

/-- A chunk that another table lists, too. -/
def MonoDomain.refChunk (s : MonoDomain) (c : Nat) : MonoDomain :=
  { s with refcount := Function.update s.refcount c (s.refcount c + 1) }

/-- The loop of `jit_info_table_copy_and_split_chunk` and `jit_info_table_copy_and_purify_chunk`: one chunk is
replaced by new ones, and the others are shared. -/
def MonoDomain.copyChunks (chunk : Nat) (new : List MonoJitInfoTableChunk) :
    MonoDomain → List Nat → MonoDomain × List Nat
  | s, [] => (s, [])
  | s, c :: rest =>
      if c = chunk then
        let (s, refs) := s.newChunks new
        let (s, shared) := copyChunks chunk new s rest
        (s, refs ++ shared)
      else
        let (s, shared) := copyChunks chunk new (s.refChunk c) rest
        (s, c :: shared)

/-- The two copies with their assertion: the new table has as many chunks as it was allocated for. -/
def MonoDomain.copyTable (s : MonoDomain) (table : List Nat) (chunk : Nat) (new : List MonoJitInfoTableChunk)
    (numChunks : Nat) : Option (MonoDomain × List Nat) :=
  let (s, refs) := s.copyChunks chunk new table
  if refs.length = numChunks then some (s, refs) else none

/-- `jit_info_table_copy_and_split_chunk` -/
def jitInfoTableCopyAndSplitChunk (s : MonoDomain) (table : List Nat) (chunk : Nat) :
    Option (MonoDomain × List Nat) := do
  let new ← jitInfoTableSplitChunk (s.chunk chunk)
  s.copyTable table chunk new (table.length + 1)

/-- `jit_info_table_copy_and_purify_chunk` -/
def jitInfoTableCopyAndPurifyChunk (s : MonoDomain) (table : List Nat) (chunk : Nat) :
    Option (MonoDomain × List Nat) :=
  s.copyTable table chunk [jitInfoTablePurifyChunk (s.chunk chunk)] table.length

/-- `jit_info_table_chunk_overflow`: the chunks of the table that takes the place of the current one. -/
def jitInfoTableChunkOverflow (s : MonoDomain) (table : List Nat) (chunk : Nat) :
    Option (MonoDomain × List Nat) :=
  let numElements := jitInfoTableNumElements (table.map s.chunk)
  if numElements < lowWatermark (table.length * chunkSize) ∨
      numElements > highWatermark (table.length * chunkSize) then
    (jitInfoTableRealloc (table.map s.chunk)).map s.newChunks
  else if jitInfoTableNumElements [s.chunk chunk] = chunkSize then jitInfoTableCopyAndSplitChunk s table chunk
  else jitInfoTableCopyAndPurifyChunk s table chunk

/-- The new table becomes the current one; the old one is freed once no reader holds it. -/
def MonoDomain.publish (s : MonoDomain) (chunks : List Nat) : MonoDomain :=
  { s with
    table := Function.update s.table s.nextTable chunks
    jitInfoTable := s.nextTable
    nextTable := s.nextTable + 1
    numJitInfoTables := s.numJitInfoTables + 1
    hazardous := .table s.jitInfoTable :: s.hazardous }

/-! ### Freeing -/

/-- `g_free` of entries. -/
def MonoDomain.freeInfos (s : MonoDomain) (infos : List MonoJitInfo) : MonoDomain :=
  { s with freedInfos := infos ++ s.freedInfos }

/-- The start of `jit_info_table_free`: when at most one other table is left, the entries of the queue are
freed. -/
def MonoDomain.drainQueue (s : MonoDomain) : MonoDomain :=
  let s := { s with numJitInfoTables := s.numJitInfoTables - 1 }
  if s.numJitInfoTables ≤ 1 then { s.freeInfos s.jitInfoFreeQueue with jitInfoFreeQueue := [] } else s

/-- An element of a chunk that no table lists any longer is read, and freed if it is a tombstone. -/
def MonoDomain.freeElement (s : MonoDomain) (ji : MonoJitInfo) : MonoDomain :=
  let s := if ji ∈ s.freedInfos then { s with inspectedFreed := ji :: s.inspectedFreed } else s
  if isJitInfoTombstone ji then s.freeInfos [ji] else s

/-- A chunk of the table that is freed. -/
def MonoDomain.unrefChunk (s : MonoDomain) (c : Nat) : MonoDomain :=
  let s := { s with refcount := Function.update s.refcount c (s.refcount c - 1) }
  if s.refcount c > 0 then s
  else
    let s := (s.chunk c).data.foldl MonoDomain.freeElement s
    { s with freedChunks := c :: s.freedChunks }

/-- `jit_info_table_free` -/
def jitInfoTableFree (s : MonoDomain) (table : Nat) : MonoDomain :=
  let s := (s.table table).foldl MonoDomain.unrefChunk s.drainQueue
  { s with freedTables := table :: s.freedTables }

/-- What `mono_thread_hazardous_free_or_queue` does, at once or later, with something it was given. -/
def release (s : MonoDomain) (hazard : Hazard) : MonoDomain :=
  if hazard ∈ s.hazardous then
    let s := { s with hazardous := s.hazardous.erase hazard }
    match hazard with
    | .table table => jitInfoTableFree s table
    | .info ji => s.freeInfos [ji]
  else s

/-! ### Adding -/

/-- One pass of `mono_jit_info_table_add` from its label `restart`, and whether it inserts the entry. -/
def addAttempt (s : MonoDomain) (ji : MonoJitInfo) : Option (MonoDomain × Bool) := do
  let table := s.table s.jitInfoTable
  let chunkPos ← jitInfoTableIndex s.chunks ji.codeEnd
  let c ← table[chunkPos]?
  if (s.chunk c).data.length ≥ chunkSize then
    let (s, chunks) ← jitInfoTableChunkOverflow s table c
    some (s.publish chunks, false)
  else
    let chunk ← insertElement (s.chunk c) ji
    some ({ s with chunk := Function.update s.chunk c chunk }, true)

/-- The passes of `mono_jit_info_table_add`; behind each table that is replaced, some of what waits is freed. -/
def addLoop (ji : MonoJitInfo) : (fuel : Nat) → (released : List (List Hazard)) → MonoDomain → Option MonoDomain
  | 0, _, _ => none
  | fuel + 1, released, s => do
      let (s, inserted) ← addAttempt s ji
      if inserted then some s
      else addLoop ji fuel released.tail ((released.headD []).foldl release s)

/-- `mono_jit_info_table_add`: one pass for each chunk that can be full, and the one that inserts. -/
def monoJitInfoTableAdd (s : MonoDomain) (ji : MonoJitInfo) (released : List (List Hazard)) : Option MonoDomain :=
  addLoop ji (s.chunks.length + 1) released s

/-! ### Removing -/

/-- The elements of a chunk up to the one that is removed: all are tombstones that end no later. -/
def removeScan (ji : MonoJitInfo) : List MonoJitInfo → (pos : Nat) → Option (Option Nat)
  | [], _ => some none
  | other :: rest, pos =>
      if other = ji then some (some pos)
      else if isJitInfoTombstone other ∧ other.codeEnd ≤ ji.codeEnd then removeScan ji rest (pos + 1)
      else none

/-- The chunks from one on, the first of them from a position on. -/
def removeScanChunks (ji : MonoJitInfo) :
    List MonoJitInfoTableChunk → (chunkPos pos : Nat) → Option (Option (Nat × Nat))
  | [], _, _ => some none
  | chunk :: rest, chunkPos, pos =>
      match removeScan ji (chunk.data.drop pos) pos with
      | none => none
      | some (some found) => some (some (chunkPos, found))
      | some none => removeScanChunks ji rest (chunkPos + 1) 0

/-- Where `mono_jit_info_table_remove` finds the entry. When the loop runs off the table, the last assertion looks
at the first element of the last chunk. -/
def removeSearch (chunks : List MonoJitInfoTableChunk) (ji : MonoJitInfo) : Option (Nat × Nat) := do
  let chunkPos ← jitInfoTableIndex chunks ji.codeStart
  let chunk ← chunks[chunkPos]?
  match ← removeScanChunks ji (chunks.drop chunkPos) chunkPos (jitInfoTableChunkIndex chunk ji.codeStart) with
  | some found => some found
  | none =>
      if (chunks.getLast?.bind fun last => last.data[0]?) = some ji then some (chunks.length - 1, 0) else none

/-- `mono_jit_info_make_tombstone` -/
def monoJitInfoMakeTombstone (s : MonoDomain) (ji : MonoJitInfo) : MonoDomain × MonoJitInfo :=
  let tombstone := ⟨s.nextInfo, ji.codeStart, ji.codeSize, none⟩
  ({ s with nextInfo := s.nextInfo + 1, tombstones := tombstone :: s.tombstones }, tombstone)

/-- `mono_jit_info_free_or_queue` -/
def monoJitInfoFreeOrQueue (s : MonoDomain) (ji : MonoJitInfo) : MonoDomain :=
  if s.numJitInfoTables ≤ 1 then { s with hazardous := .info ji :: s.hazardous }
  else { s with jitInfoFreeQueue := ji :: s.jitInfoFreeQueue }

/-- `mono_jit_info_table_remove` -/
def monoJitInfoTableRemove (s : MonoDomain) (ji : MonoJitInfo) : Option MonoDomain := do
  let (chunkPos, pos) ← removeSearch s.chunks ji
  let c ← (s.table s.jitInfoTable)[chunkPos]?
  let (s, tombstone) := monoJitInfoMakeTombstone s ji
  let chunk := { s.chunk c with data := (s.chunk c).data.set pos tombstone }
  some (monoJitInfoFreeOrQueue { s with chunk := Function.update s.chunk c chunk } ji)

/-! ### Sequences of calls -/

/-- A domain together with the methods that were added and not removed. -/
structure Methods where
  domain : MonoDomain
  live : List MonoJitInfo

/-- A new domain has no methods. -/
def Methods.create : Methods := ⟨.create, []⟩

/-- What the runtime does with the table: the caller of an add allocates the entry, and what waits to be freed may
be freed inside an add, behind each table that it replaces, or later. -/
inductive JitInfoCall where
  | add (codeStart codeSize method : Nat) (released : List (List Hazard))
  | remove (ji : MonoJitInfo)
  | release (hazard : Hazard)

/-- The effect of a call. -/
def Methods.call (m : Methods) : JitInfoCall → Option Methods
  | .add codeStart codeSize method released => do
      let (s, ji) := m.domain.newJitInfo codeStart codeSize method
      let s ← monoJitInfoTableAdd s ji released
      some ⟨s, ji :: m.live⟩
  | .remove ji => do
      let s ← monoJitInfoTableRemove m.domain ji
      some ⟨s, m.live.erase ji⟩
  | .release hazard => some ⟨release m.domain hazard, m.live⟩

/-- What the callers keep to: the code of a new method is not empty and apart from the code of the live ones, and
only live entries are removed. -/
def Methods.Allows (m : Methods) : JitInfoCall → Prop
  | .add codeStart codeSize _ _ =>
      0 < codeSize ∧ ∀ ji ∈ m.live, codeStart + codeSize ≤ ji.codeStart ∨ ji.codeEnd ≤ codeStart
  | .remove ji => ji ∈ m.live
  | .release _ => True

instance (m : Methods) : (call : JitInfoCall) → Decidable (m.Allows call)
  | .add .. => inferInstanceAs (Decidable (_ ∧ _))
  | .remove _ => inferInstanceAs (Decidable (_ ∈ _))
  | .release _ => inferInstanceAs (Decidable True)

/-- Each call of the sequence is one that the callers may make. -/
def Methods.Respects : Methods → List JitInfoCall → Prop
  | _, [] => True
  | m, call :: calls => m.Allows call ∧ ∀ m', m.call call = some m' → m'.Respects calls

/-- Whether the callers may make these calls, computed along the sequence. -/
instance decidableRespects : (m : Methods) → (calls : List JitInfoCall) → Decidable (m.Respects calls)
  | _, [] => isTrue trivial
  | m, call :: calls =>
      match result : m.call call with
      | none => decidable_of_iff (m.Allows call)
          ⟨fun allowed => ⟨allowed, fun _ calls' => absurd (result.symm.trans calls').symm (Option.some_ne_none _)⟩,
            And.left⟩
      | some m' =>
          have := decidableRespects m' calls
          decidable_of_iff (m.Allows call ∧ m'.Respects calls)
            ⟨fun both => ⟨both.1, fun _ calls' => Option.some.inj (result.symm.trans calls') ▸ both.2⟩,
              fun both => ⟨both.1, both.2 m' result⟩⟩

/-- The table has a chunk, and the search finds the live method at any address. -/
structure Methods.FindsLive (m : Methods) : Prop where
  chunks : 1 ≤ m.domain.chunks.length
  finds : ∀ addr, ∃ result, monoJitInfoTableFind m.domain.chunks addr = some result ∧
    ∀ ji, result = some ji ↔ ji ∈ m.live ∧ ji.Covers addr

/-- No call of the sequence fails, and the search works before, between and after the calls. -/
def Methods.Works : Methods → List JitInfoCall → Prop
  | m, [] => m.FindsLive
  | m, call :: calls => m.FindsLive ∧ ∃ m', m.call call = some m' ∧ m'.Works calls

/-- The chunk that an end of code belongs to is full. -/
def ChunkFull (chunks : List MonoJitInfoTableChunk) (codeEnd : Nat) : Prop :=
  ∃ chunkPos chunk, jitInfoTableIndex chunks codeEnd = some chunkPos ∧ chunks[chunkPos]? = some chunk ∧
    chunkSize ≤ chunk.data.length

/-- An add whose chunk is full comes while there is a live method. -/
def Methods.HasRoom (m : Methods) : JitInfoCall → Prop
  | .add codeStart codeSize _ _ => ChunkFull m.domain.chunks (codeStart + codeSize) → m.live ≠ []
  | .remove _ => True
  | .release _ => True

/-- Each add of the sequence has room in this sense. -/
def Methods.KeepsRoom : Methods → List JitInfoCall → Prop
  | _, [] => True
  | m, call :: calls => m.HasRoom call ∧ ∀ m', m.call call = some m' → m'.KeepsRoom calls

/-! ### Runs of events -/

/-- A domain and the entry that is being added, while the lock of the domain is held for it. -/
structure JitInfoSystem where
  domain : MonoDomain
  adding : Option MonoJitInfo

def JitInfoSystem.create : JitInfoSystem := ⟨.create, none⟩

/-- What can happen next: an add begins or makes a pass, an entry is removed, or something that waits is freed,
which can happen between the passes of an add, too. -/
inductive JitInfoEvent where
  | begin (codeStart codeSize method : Nat)
  | attempt
  | remove (ji : MonoJitInfo)
  | release (hazard : Hazard)

/-- One event. -/
def JitInfoSystem.step (sys : JitInfoSystem) : JitInfoEvent → Option JitInfoSystem
  | .begin codeStart codeSize method =>
      match sys.adding with
      | some _ => none
      | none =>
          let (s, ji) := sys.domain.newJitInfo codeStart codeSize method
          some ⟨s, some ji⟩
  | .attempt =>
      match sys.adding with
      | none => none
      | some ji => (addAttempt sys.domain ji).map fun (s, inserted) => ⟨s, if inserted then none else some ji⟩
  | .remove ji =>
      if sys.adding = none ∧ isJitInfoTombstone ji = false then
        (monoJitInfoTableRemove sys.domain ji).map fun s => ⟨s, none⟩
      else none
  | .release hazard => some { sys with domain := release sys.domain hazard }

/-- The events one after the other. -/
def JitInfoSystem.run (sys : JitInfoSystem) (events : List JitInfoEvent) : Option JitInfoSystem :=
  events.foldlM JitInfoSystem.step sys

/-- The tables that are allocated and not freed. -/
def MonoDomain.unfreedTables (s : MonoDomain) : List Nat :=
  (List.range s.nextTable).filter fun t => t ∉ s.freedTables

/-- The unfreed tables that list a chunk. -/
def MonoDomain.holders (s : MonoDomain) (c : Nat) : List Nat :=
  s.unfreedTables.filter fun t => c ∈ s.table t

/-- Who owns what: a reference count is the number of unfreed tables with the chunk, and a chunk and a tombstone
are freed once, and are freed exactly when no unfreed table has them. -/
structure OwnershipOk (s : MonoDomain) : Prop where
  refcount : ∀ c < s.nextChunk, s.refcount c = (s.holders c).length
  chunksOnce : s.freedChunks.Nodup
  chunks : ∀ c < s.nextChunk, c ∈ s.freedChunks ↔ s.holders c = []
  infosOnce : s.freedInfos.Nodup
  tombstones : ∀ ji ∈ s.tombstones,
    ji ∈ s.freedInfos ↔ ∀ t ∈ s.unfreedTables, ∀ c ∈ s.table t, ji ∉ (s.chunk c).data

/-- The table that is freed holds no chunk alone that lists an entry of the queue, when the queue is drained. -/
def JitInfoSystem.Safe (sys : JitInfoSystem) : JitInfoEvent → Prop
  | .release (.table t) => Hazard.table t ∈ sys.domain.hazardous → sys.domain.numJitInfoTables ≤ 2 →
      ∀ c ∈ sys.domain.table t, sys.domain.refcount c ≤ 1 →
        ∀ ji ∈ (sys.domain.chunk c).data, ji ∉ sys.domain.jitInfoFreeQueue
  | _ => True

/-- Each table of the run is freed safely in this sense. -/
def JitInfoSystem.RunsSafely : JitInfoSystem → List JitInfoEvent → Prop
  | _, [] => True
  | sys, event :: events => sys.Safe event ∧ ∀ sys', sys.step event = some sys' → sys'.RunsSafely events

end MonoRuntime.JitInfoTable
