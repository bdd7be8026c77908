/-
Module: MonoRuntime.Proofs.JitInfoFreeing
Purpose: The invariant of the tables, chunks and entries of compiled methods (which tables are unfreed and which of
  them wait, what the reference counts count, where tombstones and queued entries may be listed), and that freeing a
  table keeps it; a freed entry is read exactly when a chunk that dies with the table lists an entry of the queue
  that is drained.
Trusted boundary: none
Main exports: jitInfoTableFree_eq
-/
import MonoRuntime.Proofs.JitInfoTable
import Mathlib.Data.List.Perm.Subperm
import Mathlib.Data.List.Nodup

namespace MonoRuntime.JitInfoTable

open List

/-! ### The effect of freeing a table -/

/-- The chunks that are freed with a table: no other table lists them. -/
def MonoDomain.dying (s : MonoDomain) (cs : List Nat) : List Nat :=
  cs.filter fun c => decide (s.refcount c ≤ 1)

/-- Their elements. -/
def MonoDomain.dyingElements (s : MonoDomain) (cs : List Nat) : List MonoJitInfo :=
  (s.dying cs).flatMap fun c => (s.chunk c).data

/-- One element: it is noted if it was freed before, and freed if it is a tombstone. -/
theorem freeElement_eq (s : MonoDomain) (ji : MonoJitInfo) : s.freeElement ji =
      { s with
        freedInfos := [ji].filter isJitInfoTombstone ++ s.freedInfos
        inspectedFreed := ([ji].filter fun ji => decide (ji ∈ s.freedInfos)) ++ s.inspectedFreed } := by
  cases dead : isJitInfoTombstone ji <;> by_cases freed : ji ∈ s.freedInfos <;>
    simp [MonoDomain.freeElement, MonoDomain.freeInfos, dead, freed]

theorem filter_freed {elements freed more : List MonoJitInfo} (apart : ∀ ji ∈ elements, ji ∉ more) :
    (elements.filter fun ji => decide (ji ∈ more ++ freed)) = elements.filter fun ji => decide (ji ∈ freed) := by
  apply filter_congr
  intro ji member
  simp [apart ji member]

/-- Each element is looked at once: what was freed before is noted, and the tombstones are freed. -/
theorem foldl_freeElement (elements : List MonoJitInfo) (s : MonoDomain)
    (once : (elements.filter isJitInfoTombstone).Nodup) : elements.foldl MonoDomain.freeElement s =
      { s with
        freedInfos := (elements.filter isJitInfoTombstone).reverse ++ s.freedInfos
        inspectedFreed := (elements.filter fun ji => decide (ji ∈ s.freedInfos)).reverse ++ s.inspectedFreed } := by
  induction elements generalizing s with
  | nil => rfl
  | cons ji elements ih =>
    rw [show ji :: elements = [ji] ++ elements from rfl, filter_append] at once
    obtain ⟨_, once, apart⟩ := nodup_append.mp once
    have noted : ∀ other ∈ elements, other ∉ [ji].filter isJitInfoTombstone := by
      intro other inRest inFirst
      exact apart other inFirst other (mem_filter.mpr ⟨inRest, (mem_filter.mp inFirst).2⟩) rfl
    rw [foldl_cons, freeElement_eq, ih _ once]
    simp only [filter_freed noted]
    rw [show ji :: elements = [ji] ++ elements from rfl]
    simp only [filter_append, reverse_append, append_assoc]
    congr 2
    · cases dead : isJitInfoTombstone ji <;> simp [dead]
    · by_cases freed : ji ∈ s.freedInfos <;> simp [freed]

/-- One chunk: it has one reference less, and without any it is freed with its tombstones. -/
theorem unrefChunk_eq (s : MonoDomain) (c : Nat) (once : ((s.dyingElements [c]).filter isJitInfoTombstone).Nodup) :
    s.unrefChunk c =
      { s with
        refcount := Function.update s.refcount c (s.refcount c - 1)
        freedChunks := s.dying [c] ++ s.freedChunks
        freedInfos := ((s.dyingElements [c]).filter isJitInfoTombstone).reverse ++ s.freedInfos
        inspectedFreed :=
          ((s.dyingElements [c]).filter fun ji => decide (ji ∈ s.freedInfos)).reverse ++ s.inspectedFreed } := by
  unfold MonoDomain.unrefChunk
  by_cases last : s.refcount c ≤ 1
  · have dying : s.dying [c] = [c] := by simp [MonoDomain.dying, last]
    have elements : s.dyingElements [c] = (s.chunk c).data := by
      rw [MonoDomain.dyingElements, dying, flatMap_singleton]
    rw [elements] at once ⊢
    have none : ¬ (Function.update s.refcount c (s.refcount c - 1) c > 0) := by
      rw [Function.update_self]
      omega
    simp only [none, if_false, foldl_freeElement _ _ once, dying, cons_append, nil_append]
  · have dying : s.dying [c] = [] := by simp [MonoDomain.dying, last]
    have elements : s.dyingElements [c] = [] := by
      rw [MonoDomain.dyingElements, dying, flatMap_nil]
    have more : Function.update s.refcount c (s.refcount c - 1) c > 0 := by
      rw [Function.update_self]
      omega
    simp only [more, if_true, elements, dying, filter_nil, reverse_nil, nil_append]

theorem dyingElements_append (s : MonoDomain) (cs cs' : List Nat) :
    s.dyingElements (cs ++ cs') = s.dyingElements cs ++ s.dyingElements cs' := by
  rw [MonoDomain.dyingElements, MonoDomain.dying, filter_append, flatMap_append]
  rfl

/-- The chunks of a table, one after the other: each has one reference less, and those without any are freed with
their tombstones. -/
theorem foldl_unrefChunk (cs : List Nat) (s : MonoDomain) (nodup : cs.Nodup)
    (once : ((s.dyingElements cs).filter isJitInfoTombstone).Nodup) : cs.foldl MonoDomain.unrefChunk s =
      { s with
        refcount := fun c => if c ∈ cs then s.refcount c - 1 else s.refcount c
        freedChunks := (s.dying cs).reverse ++ s.freedChunks
        freedInfos := ((s.dyingElements cs).filter isJitInfoTombstone).reverse ++ s.freedInfos
        inspectedFreed :=
          ((s.dyingElements cs).filter fun ji => decide (ji ∈ s.freedInfos)).reverse ++ s.inspectedFreed } := by
  induction cs generalizing s with
  | nil => simp [MonoDomain.dying, MonoDomain.dyingElements]
  | cons c cs ih =>
    obtain ⟨fresh, nodup⟩ := nodup_cons.mp nodup
    rw [show c :: cs = [c] ++ cs from rfl, dyingElements_append, filter_append] at once
    obtain ⟨onceHere, once, apart⟩ := nodup_append.mp once
    have others : ∀ other ∈ cs, Function.update s.refcount c (s.refcount c - 1) other = s.refcount other := by
      intro other member
      apply Function.update_of_ne
      rintro rfl
      exact fresh member
    rw [foldl_cons, unrefChunk_eq s c onceHere]
    generalize named : ({ s with
      refcount := Function.update s.refcount c (s.refcount c - 1)
      freedChunks := s.dying [c] ++ s.freedChunks
      freedInfos := ((s.dyingElements [c]).filter isJitInfoTombstone).reverse ++ s.freedInfos
      inspectedFreed :=
        ((s.dyingElements [c]).filter fun ji => decide (ji ∈ s.freedInfos)).reverse ++ s.inspectedFreed } :
          MonoDomain) = s1
    have dying : s1.dying cs = s.dying cs := by
      rw [← named]
      exact filter_congr fun other member => by simp only [others other member]
    have elements : s1.dyingElements cs = s.dyingElements cs := by
      rw [MonoDomain.dyingElements, dying, ← named]
      rfl
    have noted : ∀ ji ∈ s.dyingElements cs, ji ∉ ((s.dyingElements [c]).filter isJitInfoTombstone).reverse := by
      intro ji inRest inFirst
      rw [mem_reverse] at inFirst
      exact apart ji inFirst ji (mem_filter.mpr ⟨inRest, (mem_filter.mp inFirst).2⟩) rfl
    rw [ih s1 nodup (by rw [elements]; exact once), dying, elements, ← named]
    simp only [filter_freed noted]
    rw [show c :: cs = [c] ++ cs from rfl, dyingElements_append]
    have dyingBoth : s.dying ([c] ++ cs) = s.dying [c] ++ s.dying cs := filter_append ..
    rw [dyingBoth]
    have single : (s.dying [c]).reverse = s.dying [c] := by
      by_cases last : s.refcount c ≤ 1 <;> simp [MonoDomain.dying, last]
    simp only [filter_append, reverse_append, append_assoc, single]
    congr 1
    funext other
    by_cases same : other = c
    · subst same
      simp [fresh]
    · simp [same]

/-- The entries of the queue that are freed with a table. -/
def MonoDomain.drained (s : MonoDomain) : List MonoJitInfo :=
  if s.numJitInfoTables ≤ 2 then s.jitInfoFreeQueue else []

theorem jitInfoTableFree_eq (s : MonoDomain) (t : Nat) (nodup : (s.table t).Nodup)
    (once : ((s.dyingElements (s.table t)).filter isJitInfoTombstone).Nodup) : jitInfoTableFree s t =
      { s with
        numJitInfoTables := s.numJitInfoTables - 1
        jitInfoFreeQueue := if s.numJitInfoTables ≤ 2 then [] else s.jitInfoFreeQueue
        refcount := fun c => if c ∈ s.table t then s.refcount c - 1 else s.refcount c
        freedTables := t :: s.freedTables
        freedChunks := (s.dying (s.table t)).reverse ++ s.freedChunks
        freedInfos := ((s.dyingElements (s.table t)).filter isJitInfoTombstone).reverse ++
          (s.drained ++ s.freedInfos)
        inspectedFreed := ((s.dyingElements (s.table t)).filter fun ji =>
          decide (ji ∈ s.drained ++ s.freedInfos)).reverse ++ s.inspectedFreed } := by
  have drains : s.drainQueue =
      { s with
        numJitInfoTables := s.numJitInfoTables - 1
        jitInfoFreeQueue := if s.numJitInfoTables ≤ 2 then [] else s.jitInfoFreeQueue
        freedInfos := s.drained ++ s.freedInfos } := by
    unfold MonoDomain.drainQueue MonoDomain.drained
    by_cases few : s.numJitInfoTables ≤ 2
    · have few' : s.numJitInfoTables - 1 ≤ 1 := by omega
      simp only [few, few', if_true, MonoDomain.freeInfos]
    · have many : ¬ s.numJitInfoTables - 1 ≤ 1 := by omega
      simp only [few, many, if_false, nil_append]
  have once' : ((s.drainQueue.dyingElements (s.table t)).filter isJitInfoTombstone).Nodup := by
    rw [drains]
    exact once
  rw [jitInfoTableFree, foldl_unrefChunk _ _ nodup once', drains]
  rfl

/-! ### What holds in every state -/

/-- Some unfreed table lists the entry. -/
def MonoDomain.Listed (s : MonoDomain) (ji : MonoJitInfo) : Prop :=
  ∃ t ∈ s.unfreedTables, ∃ c ∈ s.table t, ji ∈ (s.chunk c).data

/-- The entry is in a chunk or a queue, or it was freed. -/
def MonoDomain.Known (s : MonoDomain) (ji : MonoJitInfo) : Prop :=
  (∃ c < s.nextChunk, ji ∈ (s.chunk c).data) ∨ ji ∈ s.jitInfoFreeQueue ∨ Hazard.info ji ∈ s.hazardous ∨
    ji ∈ s.freedInfos

/-- The tables: the unfreed ones are the current one and those that wait to be freed. -/
structure TablesOk (s : MonoDomain) : Prop where
  current : s.jitInfoTable ∈ s.unfreedTables
  waiting : ∀ t, Hazard.table t ∈ s.hazardous ↔ t ∈ s.unfreedTables ∧ t ≠ s.jitInfoTable
  waitingOnce : s.hazardous.Nodup
  number : s.numJitInfoTables = s.unfreedTables.length
  freedBelow : ∀ t ∈ s.freedTables, t < s.nextTable
  lists : ∀ t ∈ s.unfreedTables, (s.table t).Nodup ∧ ∀ c ∈ s.table t, c < s.nextChunk
  refcount : ∀ c < s.nextChunk, s.refcount c = (s.holders c).length
  chunksOnce : s.freedChunks.Nodup
  chunks : ∀ c < s.nextChunk, c ∈ s.freedChunks ↔ s.holders c = []
  chunksBelow : ∀ c ∈ s.freedChunks, c < s.nextChunk

/-- The entries: a tombstone is in one chunk, once; what is queued or freed is not in the way of those who read. -/
structure EntriesOk (s : MonoDomain) (adding : Option MonoJitInfo) : Prop where
  infosOnce : s.freedInfos.Nodup
  unfreed : ∀ ji, s.Listed ji → ji ∉ s.freedInfos
  liveOnce : (liveElements s.chunks).Nodup
  queueOnce : s.jitInfoFreeQueue.Nodup
  queue : ∀ ji ∈ s.jitInfoFreeQueue, isJitInfoTombstone ji = false ∧ ji ∉ s.freedInfos ∧
    ∀ c ∈ s.table s.jitInfoTable, ji ∉ (s.chunk c).data
  infos : ∀ ji, Hazard.info ji ∈ s.hazardous → isJitInfoTombstone ji = false ∧ ji ∉ s.freedInfos ∧
    ji ∉ s.jitInfoFreeQueue ∧ ¬ s.Listed ji
  place : ∀ c < s.nextChunk, ∀ c' < s.nextChunk, ∀ ji, isJitInfoTombstone ji = true →
    ji ∈ (s.chunk c).data → ji ∈ (s.chunk c').data → c = c'
  placeOnce : ∀ c < s.nextChunk, ((s.chunk c).data.filter isJitInfoTombstone).Nodup
  tombstones : ∀ ji, ji ∈ s.tombstones ↔
    isJitInfoTombstone ji = true ∧ ∃ c < s.nextChunk, ji ∈ (s.chunk c).data
  freedTombstones : ∀ ji, isJitInfoTombstone ji = true →
    (ji ∈ s.freedInfos ↔ ∃ c ∈ s.freedChunks, ji ∈ (s.chunk c).data)
  below : ∀ ji, s.Known ji → ji.address < s.nextInfo
  adding : ∀ ji, adding = some ji → isJitInfoTombstone ji = false ∧ ji.address < s.nextInfo ∧ ¬ s.Known ji

/-- Everything that holds in every state of a run. -/
structure Owned (sys : JitInfoSystem) : Prop where
  table : TableOk sys.domain
  tables : TablesOk sys.domain
  entries : EntriesOk sys.domain sys.adding

theorem Owned.create : Owned .create where
  table := MethodsOk.create.table
  tables := by
    constructor
    · decide
    · intro t
      simp [JitInfoSystem.create, MonoDomain.create, MonoDomain.unfreedTables, range_succ]
    · decide
    · decide
    · exact fun _ member => absurd member not_mem_nil
    · decide
    · decide
    · decide
    · decide
    · exact fun _ member => absurd member not_mem_nil
  entries := by
    have nothing : ∀ ji, ¬ JitInfoSystem.create.domain.Known ji := by
      intro ji known
      simp [MonoDomain.Known, JitInfoSystem.create, MonoDomain.create] at known
    constructor
    · decide
    · exact fun _ _ => not_mem_nil
    · decide
    · decide
    · exact fun _ member => absurd member not_mem_nil
    · exact fun _ member => absurd member not_mem_nil
    · exact fun c below c' below' ji _ inside => absurd inside not_mem_nil
    · decide
    · intro ji
      simp [JitInfoSystem.create, MonoDomain.create]
    · intro ji _
      simp [JitInfoSystem.create, MonoDomain.create]
    · exact fun ji known => absurd known (nothing ji)
    · exact fun ji added => absurd added.symm (Option.some_ne_none ji)

/-! ### Freeing a table that waits -/

theorem mem_unfreedTables {s : MonoDomain} {t : Nat} : t ∈ s.unfreedTables ↔ t < s.nextTable ∧ t ∉ s.freedTables := by
  simp [MonoDomain.unfreedTables]

theorem nodup_unfreedTables (s : MonoDomain) : s.unfreedTables.Nodup :=
  nodup_range.filter _

theorem mem_holders {s : MonoDomain} {t c : Nat} : t ∈ s.holders c ↔ t ∈ s.unfreedTables ∧ c ∈ s.table t := by
  simp [MonoDomain.holders]

theorem length_filter_ne {l : List Nat} {t : Nat} (nodup : l.Nodup) (member : t ∈ l) :
    (l.filter fun x => decide (x ≠ t)).length + 1 = l.length := by
  have same : l.erase t = l.filter fun x => decide (x ≠ t) := by
    rw [nodup.erase_eq_filter]
    apply filter_congr
    intro x _
    by_cases equal : x = t <;> simp [equal]
  rw [← same, length_erase_of_mem member, Nat.sub_add_cancel (length_pos_of_mem member)]

/-- What freeing a table changes. -/
structure Freed (s s' : MonoDomain) (t : Nat) : Prop where
  same : SameTables s s'
  nextTable : s'.nextTable = s.nextTable
  nextInfo : s'.nextInfo = s.nextInfo
  tombstones : s'.tombstones = s.tombstones
  number : s'.numJitInfoTables = s.numJitInfoTables - 1
  queue : s'.jitInfoFreeQueue = if s.numJitInfoTables ≤ 2 then [] else s.jitInfoFreeQueue
  hazardous : s'.hazardous = s.hazardous.erase (.table t)
  refcount : ∀ c, s'.refcount c = if c ∈ s.table t then s.refcount c - 1 else s.refcount c
  freedTables : s'.freedTables = t :: s.freedTables
  freedChunks : s'.freedChunks = (s.dying (s.table t)).reverse ++ s.freedChunks
  freedInfos : s'.freedInfos = ((s.dyingElements (s.table t)).filter isJitInfoTombstone).reverse ++
    (s.drained ++ s.freedInfos)
  inspectedFreed : s'.inspectedFreed = ((s.dyingElements (s.table t)).filter fun ji =>
    decide (ji ∈ s.drained ++ s.freedInfos)).reverse ++ s.inspectedFreed

theorem EntriesOk.dyingOnce {s : MonoDomain} {adding : Option MonoJitInfo} (entries : EntriesOk s adding)
    (cs : List Nat) (nodup : cs.Nodup) (below : ∀ c ∈ cs, c < s.nextChunk) :
    ((s.dyingElements cs).filter isJitInfoTombstone).Nodup := by
  induction cs with
  | nil => exact nodup_nil
  | cons c cs ih =>
    obtain ⟨fresh, nodup⟩ := nodup_cons.mp nodup
    have belowHere := below c mem_cons_self
    have below' : ∀ other ∈ cs, other < s.nextChunk := fun other member => below other (mem_cons_of_mem c member)
    rw [show c :: cs = [c] ++ cs from rfl, dyingElements_append, filter_append, nodup_append]
    have inFirst : ∀ ji ∈ s.dyingElements [c], ji ∈ (s.chunk c).data := by
      intro ji member
      obtain ⟨other, dying, inside⟩ := mem_flatMap.mp member
      rwa [mem_singleton.mp (mem_filter.mp dying).1] at inside
    refine ⟨?_, ih nodup below', ?_⟩
    · by_cases last : s.refcount c ≤ 1
      · simpa [MonoDomain.dyingElements, MonoDomain.dying, last] using entries.placeOnce c belowHere
      · simp [MonoDomain.dyingElements, MonoDomain.dying, last]
    · intro ji first ji' rest same
      subst same
      obtain ⟨inElements, dead⟩ := mem_filter.mp first
      obtain ⟨other, dying, inside⟩ := mem_flatMap.mp (mem_filter.mp rest).1
      have member := (mem_filter.mp dying).1
      have equal := entries.place c belowHere other (below' other member) ji dead (inFirst ji inElements) inside
      exact fresh (equal ▸ member)

theorem release_table {sys : JitInfoSystem} {t : Nat} (owned : Owned sys)
    (waits : Hazard.table t ∈ sys.domain.hazardous) : Freed sys.domain (release sys.domain (.table t)) t := by
  obtain ⟨unfreed, _⟩ := (owned.tables.waiting t).mp waits
  obtain ⟨nodup, below⟩ := owned.tables.lists t unfreed
  have once := owned.entries.dyingOnce _ nodup below
  have eq := jitInfoTableFree_eq { sys.domain with hazardous := sys.domain.hazardous.erase (.table t) } t nodup once
  rw [release, if_pos waits]
  simp only [eq]
  exact ⟨⟨rfl, rfl, rfl, rfl⟩, rfl, rfl, rfl, rfl, rfl, rfl, fun _ => rfl, rfl, rfl, rfl, rfl⟩

section Freeing

variable {s s' : MonoDomain} {t : Nat}

theorem Freed.unfreedTables (freed : Freed s s' t) :
    s'.unfreedTables = s.unfreedTables.filter fun x => decide (x ≠ t) := by
  rw [MonoDomain.unfreedTables, MonoDomain.unfreedTables, freed.nextTable, freed.freedTables, filter_filter]
  apply filter_congr
  intro x _
  by_cases same : x = t <;> simp [same]

theorem Freed.holders (freed : Freed s s' t) (c : Nat) :
    s'.holders c = (s.holders c).filter fun x => decide (x ≠ t) := by
  rw [MonoDomain.holders, MonoDomain.holders, freed.unfreedTables, freed.same.table, filter_filter,
    filter_filter]
  simp only [Bool.and_comm]

theorem Freed.length_holders (freed : Freed s s' t) (unfreed : t ∈ s.unfreedTables) (c : Nat) :
    (s'.holders c).length + (if c ∈ s.table t then 1 else 0) = (s.holders c).length := by
  rw [freed.holders]
  by_cases lists : c ∈ s.table t
  · rw [if_pos lists]
    exact length_filter_ne ((nodup_unfreedTables s).filter _) (mem_holders.mpr ⟨unfreed, lists⟩)
  · rw [if_neg lists, Nat.add_zero, filter_eq_self.mpr]
    intro x member
    have different : x ≠ t := by
      rintro rfl
      exact lists (mem_holders.mp member).2
    simpa using different

theorem TablesOk.mem_dying (ok : TablesOk s) (unfreed : t ∈ s.unfreedTables) {c : Nat} :
    c ∈ s.dying (s.table t) ↔ c ∈ s.table t ∧ ∀ t' ∈ s.unfreedTables, c ∈ s.table t' → t' = t := by
  rw [MonoDomain.dying, mem_filter, decide_eq_true_eq]
  constructor
  · intro ⟨lists, last⟩
    refine ⟨lists, fun t' unfreed' lists' => ?_⟩
    by_contra different
    have both : [t, t'].Subperm (s.holders c) := by
      apply subperm_of_subset (by simpa using Ne.symm different)
      intro x member
      rcases mem_cons.mp member with rfl | member
      · exact mem_holders.mpr ⟨unfreed, lists⟩
      · rw [mem_singleton.mp member]
        exact mem_holders.mpr ⟨unfreed', lists'⟩
    have two := both.length_le
    have count := ok.refcount c ((ok.lists t unfreed).2 c lists)
    simp only [length_cons, length_nil] at two
    omega
  · intro ⟨lists, only⟩
    refine ⟨lists, ?_⟩
    have one : (s.holders c).Subperm [t] := by
      apply subperm_of_subset ((nodup_unfreedTables s).filter _)
      intro x member
      obtain ⟨unfreed', lists'⟩ := mem_holders.mp member
      exact mem_singleton.mpr (only x unfreed' lists')
    have short := one.length_le
    have count := ok.refcount c ((ok.lists t unfreed).2 c lists)
    simp only [length_cons, length_nil] at short
    omega

theorem TablesOk.free (ok : TablesOk s) (freed : Freed s s' t) (unfreed : t ∈ s.unfreedTables)
    (other : t ≠ s.jitInfoTable) : TablesOk s' := by
  have members : ∀ x, x ∈ s'.unfreedTables ↔ x ∈ s.unfreedTables ∧ x ≠ t := by
    intro x
    rw [freed.unfreedTables, mem_filter, decide_eq_true_eq]
  constructor
  · rw [members, freed.same.current]
    exact ⟨ok.current, Ne.symm other⟩
  · intro x
    rw [freed.hazardous, ok.waitingOnce.mem_erase_iff, ok.waiting, members, freed.same.current]
    have tables : Hazard.table x ≠ Hazard.table t ↔ x ≠ t := by
      rw [Ne, Hazard.table.injEq]
    rw [tables]
    exact and_left_comm.trans and_assoc.symm
  · rw [freed.hazardous]
    exact ok.waitingOnce.erase _
  · have length := length_filter_ne (nodup_unfreedTables s) unfreed
    rw [freed.number, freed.unfreedTables, ok.number]
    omega
  · rw [freed.freedTables, freed.nextTable]
    intro x member
    rcases mem_cons.mp member with rfl | member
    · exact (mem_unfreedTables.mp unfreed).1
    · exact ok.freedBelow x member
  · intro x member
    rw [freed.same.table, freed.same.next]
    exact ok.lists x ((members x).mp member).1
  · intro c below
    rw [freed.same.next] at below
    have length := freed.length_holders unfreed c
    rw [freed.refcount, ok.refcount c below]
    by_cases lists : c ∈ s.table t
    · rw [if_pos lists] at length ⊢
      omega
    · rw [if_neg lists] at length ⊢
      omega
  · rw [freed.freedChunks, nodup_append, nodup_reverse]
    refine ⟨(ok.lists t unfreed).1.filter _, ok.chunksOnce, ?_⟩
    intro c dying c' before same
    subst same
    have lists := (mem_filter.mp (mem_reverse.mp dying)).1
    rw [ok.chunks c ((ok.lists t unfreed).2 c lists)] at before
    exact absurd (mem_holders.mpr ⟨unfreed, lists⟩) (before ▸ not_mem_nil)
  · intro c below
    rw [freed.same.next] at below
    rw [freed.freedChunks, mem_append, mem_reverse, ok.mem_dying unfreed, ok.chunks c below, freed.holders]
    rw [filter_eq_nil_iff, eq_nil_iff_forall_not_mem]
    simp only [mem_holders, decide_eq_true_eq, not_not, not_and]
    constructor
    · intro alone x held
      obtain ⟨unfreed', lists⟩ := held
      cases alone with
      | inl mine => exact mine.2 x unfreed' lists
      | inr nobody => exact absurd lists (nobody x unfreed')
    · intro only
      by_cases lists : c ∈ s.table t
      · exact .inl ⟨lists, fun x unfreed' lists' => only x ⟨unfreed', lists'⟩⟩
      · refine .inr fun x unfreed' lists' => ?_
        exact lists (only x ⟨unfreed', lists'⟩ ▸ lists')
  · intro c member
    rw [freed.same.next]
    rw [freed.freedChunks, mem_append, mem_reverse] at member
    rcases member with dying | before
    · exact (ok.lists t unfreed).2 c (mem_filter.mp dying).1
    · exact ok.chunksBelow c before

theorem TablesOk.only_current (ok : TablesOk s) (few : s.numJitInfoTables ≤ 2) (unfreed : t ∈ s.unfreedTables)
    (other : t ≠ s.jitInfoTable) {t' : Nat} (unfreed' : t' ∈ s.unfreedTables) (different : t' ≠ t) :
    t' = s.jitInfoTable := by
  by_contra third
  have three : [t, t', s.jitInfoTable].Subperm s.unfreedTables := by
    apply subperm_of_subset (by simp [Ne.symm different, other, third])
    intro x member
    simp only [mem_cons, not_mem_nil, or_false] at member
    rcases member with rfl | rfl | rfl
    · exact unfreed
    · exact unfreed'
    · exact ok.current
  have length := three.length_le
  have number := ok.number
  simp only [length_cons, length_nil] at length
  omega

theorem mem_dyingElements {ji : MonoJitInfo} {cs : List Nat} :
    ji ∈ s.dyingElements cs ↔ ∃ c ∈ s.dying cs, ji ∈ (s.chunk c).data :=
  mem_flatMap

theorem mem_drained {ji : MonoJitInfo} : ji ∈ s.drained ↔ s.numJitInfoTables ≤ 2 ∧ ji ∈ s.jitInfoFreeQueue := by
  rw [MonoDomain.drained]
  split
  next few => simp [few]
  next many => simp [many]

theorem EntriesOk.free {adding : Option MonoJitInfo} (tables : TablesOk s) (entries : EntriesOk s adding)
    (freed : Freed s s' t) (unfreed : t ∈ s.unfreedTables) (other : t ≠ s.jitInfoTable) : EntriesOk s' adding := by
  obtain ⟨chunk, table, current, next⟩ := freed.same
  have members : ∀ x, x ∈ s'.unfreedTables ↔ x ∈ s.unfreedTables ∧ x ≠ t := by
    intro x
    rw [freed.unfreedTables, mem_filter, decide_eq_true_eq]
  have listedHere : ∀ c ∈ s.table t, ∀ ji ∈ (s.chunk c).data, s.Listed ji := fun c lists ji inside =>
    ⟨t, unfreed, c, lists, inside⟩
  have listed : ∀ ji, s'.Listed ji → s.Listed ji ∧
      ∃ t' ∈ s.unfreedTables, t' ≠ t ∧ ∃ c ∈ s.table t', ji ∈ (s.chunk c).data := by
    intro ji ⟨t', unfreed', c, lists, inside⟩
    rw [table] at lists
    rw [chunk] at inside
    obtain ⟨unfreed', different⟩ := (members t').mp unfreed'
    exact ⟨⟨t', unfreed', c, lists, inside⟩, t', unfreed', different, c, lists, inside⟩
  have inFreed : ∀ ji, ji ∈ s'.freedInfos ↔
      (isJitInfoTombstone ji = true ∧ ∃ c ∈ s.dying (s.table t), ji ∈ (s.chunk c).data) ∨
        (s.numJitInfoTables ≤ 2 ∧ ji ∈ s.jitInfoFreeQueue) ∨ ji ∈ s.freedInfos := by
    intro ji
    rw [freed.freedInfos, mem_append, mem_append, mem_reverse, mem_filter, mem_dyingElements,
      mem_drained, and_comm]
  have dyingLists : ∀ c ∈ s.dying (s.table t), c ∈ s.table t := fun c dying => (mem_filter.mp dying).1
  have belowHere := (tables.lists t unfreed).2
  have infosIn : ∀ ji, Hazard.info ji ∈ s'.hazardous → Hazard.info ji ∈ s.hazardous := by
    intro ji waits
    rw [freed.hazardous] at waits
    exact mem_of_mem_erase waits
  have queueIn : ∀ ji ∈ s'.jitInfoFreeQueue, ji ∈ s.jitInfoFreeQueue ∧ ¬ s.numJitInfoTables ≤ 2 := by
    intro ji member
    rw [freed.queue] at member
    split at member
    · exact absurd member not_mem_nil
    · exact ⟨member, ‹_›⟩
  have known : ∀ ji, s'.Known ji → s.Known ji := by
    rintro ji (⟨c, below, inside⟩ | queued | waits | free)
    · exact .inl ⟨c, next ▸ below, chunk ▸ inside⟩
    · exact .inr (.inl (queueIn ji queued).1)
    · exact .inr (.inr (.inl (infosIn ji waits)))
    · rcases (inFreed ji).mp free with ⟨_, c, dying, inside⟩ | ⟨_, queued⟩ | before
      · exact .inl ⟨c, belowHere c (dyingLists c dying), inside⟩
      · exact .inr (.inl queued)
      · exact .inr (.inr (.inr before))
  constructor
  · rw [freed.freedInfos, nodup_append, nodup_append, nodup_reverse]
    refine ⟨entries.dyingOnce _ (tables.lists t unfreed).1 belowHere, ⟨?_, entries.infosOnce, ?_⟩, ?_⟩
    · rw [MonoDomain.drained]
      split
      · exact entries.queueOnce
      · exact nodup_nil
    · intro ji drained ji' before same
      subst same
      exact (entries.queue ji (mem_drained.mp drained).2).2.1 before
    · intro ji inElements ji' rest same
      subst same
      obtain ⟨inElements, dead⟩ := mem_filter.mp (mem_reverse.mp inElements)
      obtain ⟨c, dying, inside⟩ := mem_dyingElements.mp inElements
      rcases mem_append.mp rest with drained | before
      · have alive := (entries.queue ji (mem_drained.mp drained).2).1
        rw [alive] at dead
        exact Bool.noConfusion dead
      · exact entries.unfreed ji (listedHere c (dyingLists c dying) ji inside) before
  · intro ji listed'
    obtain ⟨before, t', unfreed', different, c', lists', inside'⟩ := listed ji listed'
    rw [inFreed]
    rintro (⟨dead, c, dying, inside⟩ | ⟨few, queued⟩ | free)
    · obtain ⟨lists, only⟩ := (tables.mem_dying unfreed).mp dying
      have same := entries.place c (belowHere c lists) c' ((tables.lists t' unfreed').2 c' lists') ji dead inside inside'
      exact different (only t' unfreed' (same ▸ lists'))
    · have isCurrent := tables.only_current few unfreed other unfreed' different
      exact (entries.queue ji queued).2.2 c' (isCurrent ▸ lists') inside'
    · exact entries.unfreed ji before free
  · rw [SameTables.chunks ⟨chunk, table, current, next⟩]
    exact entries.liveOnce
  · rw [freed.queue]
    split
    · exact nodup_nil
    · exact entries.queueOnce
  · intro ji member
    obtain ⟨queued, many⟩ := queueIn ji member
    obtain ⟨alive, free, outside⟩ := entries.queue ji queued
    refine ⟨alive, ?_, ?_⟩
    · rw [inFreed]
      rintro (⟨dead, _⟩ | ⟨few, _⟩ | before)
      · rw [alive] at dead
        exact Bool.noConfusion dead
      · exact many few
      · exact free before
    · rw [table, current, chunk]
      exact outside
  · intro ji waits
    obtain ⟨alive, free, notQueued, outside⟩ := entries.infos ji (infosIn ji waits)
    refine ⟨alive, ?_, fun queued => notQueued (queueIn ji queued).1, fun listed' => outside (listed ji listed').1⟩
    rw [inFreed]
    rintro (⟨dead, _⟩ | ⟨_, queued⟩ | before)
    · rw [alive] at dead
      exact Bool.noConfusion dead
    · exact notQueued queued
    · exact free before
  · rw [chunk, next]
    exact entries.place
  · rw [chunk, next]
    exact entries.placeOnce
  · rw [freed.tombstones, chunk, next]
    exact entries.tombstones
  · intro ji dead
    rw [inFreed, entries.freedTombstones ji dead, freed.freedChunks, chunk]
    constructor
    · rintro (⟨_, c, dying, inside⟩ | ⟨_, queued⟩ | ⟨c, gone, inside⟩)
      · exact ⟨c, mem_append_left _ (mem_reverse.mpr dying), inside⟩
      · rw [(entries.queue ji queued).1] at dead
        exact Bool.noConfusion dead
      · exact ⟨c, mem_append_right _ gone, inside⟩
    · rintro ⟨c, gone, inside⟩
      rcases mem_append.mp gone with dying | gone
      · exact .inl ⟨dead, c, mem_reverse.mp dying, inside⟩
      · exact .inr (.inr ⟨c, gone, inside⟩)
  · intro ji known'
    rw [freed.nextInfo]
    exact entries.below ji (known ji known')
  · intro ji added
    obtain ⟨alive, address, fresh⟩ := entries.adding ji added
    exact ⟨alive, freed.nextInfo ▸ address, fun known' => fresh (known ji known')⟩

/-- A freed entry is read exactly when a chunk that dies lists an entry of the queue that is drained. -/
theorem Freed.inspected {adding : Option MonoJitInfo} (entries : EntriesOk s adding)
    (freed : Freed s s' t) (unfreed : t ∈ s.unfreedTables) :
    s'.inspectedFreed = [] ↔ s.inspectedFreed = [] ∧ (s.numJitInfoTables ≤ 2 →
      ∀ c ∈ s.table t, s.refcount c ≤ 1 → ∀ ji ∈ (s.chunk c).data, ji ∉ s.jitInfoFreeQueue) := by
  rw [freed.inspectedFreed, append_eq_nil_iff, reverse_eq_nil_iff, filter_eq_nil_iff, and_comm]
  apply and_congr_right
  intro _
  constructor
  · intro none few c lists last ji inside queued
    have dying : c ∈ s.dying (s.table t) := mem_filter.mpr ⟨lists, by simpa using last⟩
    have notFreed := none ji (mem_dyingElements.mpr ⟨c, dying, inside⟩)
    rw [decide_eq_true_eq, mem_append] at notFreed
    exact notFreed (.inl (mem_drained.mpr ⟨few, queued⟩))
  · intro safe ji inElements free
    obtain ⟨c, dying, inside⟩ := mem_dyingElements.mp inElements
    obtain ⟨lists, last⟩ := mem_filter.mp dying
    rw [decide_eq_true_eq, mem_append] at free
    rcases free with drained | before
    · obtain ⟨few, queued⟩ := mem_drained.mp drained
      exact safe few c lists (by simpa using last) ji inside queued
    · exact entries.unfreed ji ⟨t, unfreed, c, lists, inside⟩ before

end Freeing

end MonoRuntime.JitInfoTable
