/-
Module: MonoRuntime.Proofs.JitInfoOwnership
Purpose: Who owns the chunks, the entries and the tombstones of the tables of compiled methods, along any run of
  adds, removes and deferred frees: reference counts count the unfreed tables, chunks and tombstones are freed once
  and in time, and a freed entry is read exactly when a table is freed that alone lists an entry of the queue that
  its freeing drains. Every sequence of calls is such a run.
Trusted boundary: none
Main exports: jitInfoSystem_owns_iff, methods_refine_jitInfoSystem
-/
import MonoRuntime.Proofs.JitInfoFreeing

namespace MonoRuntime.JitInfoTable

open List Option Function

/-! ### The other events -/

/-- Two states with the same tables, chunks and reference counts, freed or not. -/
structure SameOwners (s s' : MonoDomain) : Prop where
  current : s'.jitInfoTable = s.jitInfoTable
  table : s'.table = s.table
  number : s'.numJitInfoTables = s.numJitInfoTables
  nextTable : s'.nextTable = s.nextTable
  nextChunk : s'.nextChunk = s.nextChunk
  refcount : s'.refcount = s.refcount
  freedTables : s'.freedTables = s.freedTables
  freedChunks : s'.freedChunks = s.freedChunks

variable {s s' : MonoDomain} {sys : JitInfoSystem} {ji : MonoJitInfo} {c : Nat}

theorem SameOwners.unfreedTables (same : SameOwners s s') : s'.unfreedTables = s.unfreedTables := by
  rw [MonoDomain.unfreedTables, MonoDomain.unfreedTables, same.nextTable, same.freedTables]

theorem TablesOk.congr (ok : TablesOk s) (same : SameOwners s s')
    (waiting : ∀ t, Hazard.table t ∈ s'.hazardous ↔ Hazard.table t ∈ s.hazardous)
    (once : s'.hazardous.Nodup) : TablesOk s' := by
  have unfreed := same.unfreedTables
  have holders : ∀ c, s'.holders c = s.holders c := by
    intro c
    rw [MonoDomain.holders, MonoDomain.holders, unfreed, same.table]
  constructor
  · rw [unfreed, same.current]
    exact ok.current
  · intro t
    rw [waiting, unfreed, same.current]
    exact ok.waiting t
  · exact once
  · rw [same.number, unfreed]
    exact ok.number
  · rw [same.freedTables, same.nextTable]
    exact ok.freedBelow
  · rw [unfreed, same.table, same.nextChunk]
    exact ok.lists
  · intro c
    rw [same.nextChunk, same.refcount, holders]
    exact ok.refcount c
  · rw [same.freedChunks]
    exact ok.chunksOnce
  · intro c
    rw [same.nextChunk, same.freedChunks, holders]
    exact ok.chunks c
  · rw [same.freedChunks, same.nextChunk]
    exact ok.chunksBelow

theorem Owned.release_info (owned : Owned sys) (waits : Hazard.info ji ∈ sys.domain.hazardous) :
    Owned { sys with domain := release sys.domain (.info ji) } ∧
      (release sys.domain (.info ji)).inspectedFreed = sys.domain.inspectedFreed := by
  have eq : release sys.domain (.info ji) =
      { sys.domain with
        hazardous := sys.domain.hazardous.erase (.info ji)
        freedInfos := ji :: sys.domain.freedInfos } := by
    rw [release, if_pos waits]
    rfl
  obtain ⟨alive, free, notQueued, outside⟩ := owned.entries.infos ji waits
  have same := sameTables_release sys.domain (.info ji)
  have once := owned.tables.waitingOnce
  refine ⟨⟨same.ok owned.table, ?_, ?_⟩, by rw [eq]⟩
  · rw [eq]
    refine owned.tables.congr ⟨rfl, rfl, rfl, rfl, rfl, rfl, rfl, rfl⟩ ?_ ?_
    · intro t
      exact mem_erase_of_ne (fun same => by cases same)
    · exact once.erase _
  · rw [eq]
    have entries := owned.entries
    constructor
    · exact nodup_cons.mpr ⟨free, entries.infosOnce⟩
    · intro other listed
      rw [mem_cons, not_or]
      refine ⟨?_, entries.unfreed other listed⟩
      rintro rfl
      exact outside listed
    · exact entries.liveOnce
    · exact entries.queueOnce
    · intro other queued
      obtain ⟨alive', free', rest⟩ := entries.queue other queued
      refine ⟨alive', ?_, rest⟩
      rw [mem_cons, not_or]
      refine ⟨?_, free'⟩
      rintro rfl
      exact notQueued queued
    · intro other waits'
      obtain ⟨different, waits'⟩ := once.mem_erase_iff.mp waits'
      obtain ⟨alive', free', rest⟩ := entries.infos other waits'
      refine ⟨alive', ?_, rest⟩
      rw [mem_cons, not_or]
      refine ⟨?_, free'⟩
      rintro rfl
      exact different rfl
    · exact entries.place
    · exact entries.placeOnce
    · exact entries.tombstones
    · intro other dead
      rw [mem_cons, ← entries.freedTombstones other dead]
      refine or_iff_right ?_
      rintro rfl
      rw [alive] at dead
      exact Bool.noConfusion dead
    · rintro other (inChunk | queued | waits' | free')
      · exact entries.below other (.inl inChunk)
      · exact entries.below other (.inr (.inl queued))
      · exact entries.below other (.inr (.inr (.inl (mem_of_mem_erase waits'))))
      · rcases mem_cons.mp free' with rfl | before
        · exact entries.below other (.inr (.inr (.inl waits)))
        · exact entries.below other (.inr (.inr (.inr before)))
    · intro other added
      obtain ⟨alive', address, fresh⟩ := entries.adding other added
      refine ⟨alive', address, ?_⟩
      rintro (inChunk | queued | waits' | free')
      · exact fresh (.inl inChunk)
      · exact fresh (.inr (.inl queued))
      · exact fresh (.inr (.inr (.inl (mem_of_mem_erase waits'))))
      · rcases mem_cons.mp free' with rfl | before
        · exact fresh (.inr (.inr (.inl waits)))
        · exact fresh (.inr (.inr (.inr before)))

theorem Owned.begin (owned : Owned sys) (codeStart codeSize method : Nat) :
    Owned ⟨(sys.domain.newJitInfo codeStart codeSize method).1,
      some (sys.domain.newJitInfo codeStart codeSize method).2⟩ := by
  have entries := owned.entries
  have same : SameTables sys.domain (sys.domain.newJitInfo codeStart codeSize method).1 := ⟨rfl, rfl, rfl, rfl⟩
  refine ⟨same.ok owned.table,
    owned.tables.congr ⟨rfl, rfl, rfl, rfl, rfl, rfl, rfl, rfl⟩ (fun _ => Iff.rfl) owned.tables.waitingOnce,
    { entries with below := ?_, adding := ?_ }⟩
  · exact fun ji known => Nat.lt_succ_of_lt (entries.below ji known)
  · intro ji added
    obtain rfl := Option.some.inj added
    exact ⟨rfl, Nat.lt_succ_self _, fun known => absurd (entries.below _ known) (Nat.lt_irrefl _)⟩

theorem mem_live_current (alive : isJitInfoTombstone ji = false) :
    ji ∈ liveElements s.chunks ↔ ∃ c ∈ s.table s.jitInfoTable, ji ∈ (s.chunk c).data := by
  rw [mem_liveElements, MonoDomain.chunks]
  simp [alive]

theorem TablesOk.listed_current (ok : TablesOk s)
    (lists : c ∈ s.table s.jitInfoTable) (inside : ji ∈ (s.chunk c).data) : s.Listed ji :=
  ⟨s.jitInfoTable, ok.current, c, lists, inside⟩

theorem Owned.insert (owned : Owned sys) {chunk : MonoJitInfoTableChunk} (adds : sys.adding = some ji)
    (lists : c ∈ sys.domain.table sys.domain.jitInfoTable) (perm : chunk.data.Perm (ji :: (sys.domain.chunk c).data))
    (table : TableOk { sys.domain with chunk := Function.update sys.domain.chunk c chunk })
    (live : (liveElements { sys.domain with chunk := Function.update sys.domain.chunk c chunk }.chunks).Perm
      (([ji].filter fun ji => !isJitInfoTombstone ji) ++ liveElements sys.domain.chunks)) :
    Owned ⟨{ sys.domain with chunk := Function.update sys.domain.chunk c chunk }, none⟩ := by
  obtain ⟨alive, address, fresh⟩ := owned.entries.adding ji adds
  obtain ⟨domain, adding⟩ := sys
  have entries := owned.entries
  have data : ∀ other c', other ∈ (Function.update domain.chunk c chunk c').data ↔
      (other = ji ∧ c' = c) ∨ other ∈ (domain.chunk c').data := by
    intro other c'
    by_cases same : c' = c
    · subst same
      rw [update_self, perm.mem_iff, mem_cons]
      simp
    · rw [update_of_ne same]
      simp [same]
  have listed : ∀ other, MonoDomain.Listed { domain with chunk := Function.update domain.chunk c chunk } other →
      other = ji ∨ domain.Listed other := by
    intro other ⟨t, unfreed, c', lists', inside⟩
    rcases (data other c').mp inside with ⟨same, _⟩ | before
    · exact .inl same
    · exact .inr ⟨t, unfreed, c', lists', before⟩
  have dead : ∀ other c', isJitInfoTombstone other = true →
      (other ∈ (Function.update domain.chunk c chunk c').data ↔ other ∈ (domain.chunk c').data) := by
    intro other c' dead
    rw [data]
    refine or_iff_right ?_
    rintro ⟨rfl, _⟩
    rw [alive] at dead
    exact Bool.noConfusion dead
  refine ⟨table, owned.tables.congr ⟨rfl, rfl, rfl, rfl, rfl, rfl, rfl, rfl⟩ (fun _ => Iff.rfl)
    owned.tables.waitingOnce, ?_⟩
  constructor
  · exact entries.infosOnce
  · intro other listed'
    rcases listed other listed' with rfl | before
    · exact fun free => fresh (.inr (.inr (.inr free)))
    · exact entries.unfreed other before
  · rw [filter_alive alive] at live
    apply live.nodup_iff.mpr
    refine nodup_cons.mpr ⟨fun member => ?_, entries.liveOnce⟩
    obtain ⟨c', lists', inside⟩ := (mem_live_current alive).mp member
    exact fresh (.inl ⟨c', owned.table.below c' lists', inside⟩)
  · exact entries.queueOnce
  · intro other queued
    obtain ⟨alive', free, outside⟩ := entries.queue other queued
    refine ⟨alive', free, fun c' lists' inside => ?_⟩
    rcases (data other c').mp inside with ⟨rfl, _⟩ | before
    · exact fresh (.inr (.inl queued))
    · exact outside c' lists' before
  · intro other waits
    obtain ⟨alive', free, notQueued, outside⟩ := entries.infos other waits
    refine ⟨alive', free, notQueued, fun listed' => ?_⟩
    rcases listed other listed' with rfl | before
    · exact fresh (.inr (.inr (.inl waits)))
    · exact outside before
  · intro c1 below1 c2 below2 other isDead inside1 inside2
    exact entries.place c1 below1 c2 below2 other isDead ((dead other c1 isDead).mp inside1)
      ((dead other c2 isDead).mp inside2)
  · intro c' below
    have once := entries.placeOnce c' below
    by_cases same : c' = c
    · subst same
      simp only [update_self]
      have filtered := perm.filter isJitInfoTombstone
      rw [filter_cons_of_neg (by simp [alive])] at filtered
      exact filtered.nodup_iff.mpr once
    · simp only [update_of_ne same]
      exact once
  · intro other
    rw [entries.tombstones other]
    apply and_congr_right
    intro isDead
    simp only [dead _ _ isDead]
  · intro other isDead
    rw [entries.freedTombstones other isDead]
    simp only [dead _ _ isDead]
  · rintro other (⟨c', below, inside⟩ | queued | waits | free)
    · rcases (data other c').mp inside with ⟨rfl, _⟩ | before
      · exact address
      · exact entries.below other (.inl ⟨c', below, before⟩)
    · exact entries.below other (.inr (.inl queued))
    · exact entries.below other (.inr (.inr (.inl waits)))
    · exact entries.below other (.inr (.inr (.inr free)))
  · exact fun other added => absurd added.symm (some_ne_none other)

section Publishing

variable {s s' : MonoDomain} {refs before after before' after' : List Nat} {chunk : Nat}
  {new : List MonoJitInfoTableChunk}

theorem MakesRoom.shared (room : MakesRoom s before after chunk before' new after')
    (cut : s.table s.jitInfoTable = before ++ chunk :: after) {c : Nat} (member : c ∈ before' ++ after') :
    c ∈ s.table s.jitInfoTable := by
  rw [cut]
  rcases room.kept with ⟨rfl, rfl⟩ | ⟨rfl, rfl⟩
  · have sublist : (before' ++ after').Sublist (before' ++ chunk :: after') :=
      (List.Sublist.refl _).append (sublist_cons_self _ _)
    exact sublist.subset member
  · exact absurd member not_mem_nil

theorem NewTable.mem_refs (made : NewTable s s' before' new after' refs) {c : Nat} :
    c ∈ refs ↔ c ∈ before' ++ after' ∨ (s.nextChunk ≤ c ∧ c < s'.nextChunk) := by
  rw [made.refs, made.next, mem_append, mem_append, mem_range'_1, mem_append]
  constructor
  · rintro ((inside | fresh) | inside)
    · exact .inl (.inl inside)
    · exact .inr fresh
    · exact .inl (.inr inside)
  · rintro ((inside | inside) | fresh)
    · exact .inl (.inl inside)
    · exact .inr inside
    · exact .inl (.inr fresh)

theorem NewTable.fresh_live (made : NewTable s s' before' new after' refs)
    (room : MakesRoom s before after chunk before' new after')
    (cut : s.table s.jitInfoTable = before ++ chunk :: after) {c : Nat} (low : s.nextChunk ≤ c)
    (high : c < s'.nextChunk) {ji : MonoJitInfo} (inside : ji ∈ (s'.chunk c).data) : ji ∈ liveElements s.chunks := by
  have isNew : s'.chunk c ∈ new := by
    rw [← made.fresh]
    exact List.mem_map_of_mem (mem_range'_1.mpr ⟨low, made.next ▸ high⟩)
  rw [MonoDomain.chunks, cut]
  exact room.made _ isNew ji inside

theorem TablesOk.publish (ok : TablesOk s) (cut : s.table s.jitInfoTable = before ++ chunk :: after)
    (made : NewTable s s' before' new after' refs) (room : MakesRoom s before after chunk before' new after')
    (table : TableOk (s'.publish refs)) : TablesOk (s'.publish refs) := by
  have rest := made.rest
  have nextTable : s'.nextTable = s.nextTable := by rw [rest]
  have freedTables : s'.freedTables = s.freedTables := by rw [rest]
  have freedChunks : s'.freedChunks = s.freedChunks := by rw [rest]
  have old : s'.jitInfoTable = s.jitInfoTable := by rw [rest]
  have tables : s'.table = s.table := by rw [rest]
  have hazardous : s'.hazardous = s.hazardous := by rw [rest]
  have number : s'.numJitInfoTables = s.numJitInfoTables := by rw [rest]
  have unfreed : (s'.publish refs).unfreedTables = s.unfreedTables ++ [s.nextTable] := by
    change ((List.range (s'.nextTable + 1)).filter fun t => decide (t ∉ s'.freedTables)) = _
    rw [nextTable, freedTables, range_succ, filter_append, filter_cons_of_pos]
    · rfl
    · simpa using fun member => Nat.lt_irrefl _ (ok.freedBelow _ member)
  have tableOld : ∀ t ∈ s.unfreedTables, (s'.publish refs).table t = s.table t := by
    intro t member
    have below := (mem_unfreedTables.mp member).1
    change Function.update s'.table s'.nextTable refs t = _
    rw [update_of_ne (by omega), tables]
  have tableNew : (s'.publish refs).table s.nextTable = refs := by
    change Function.update s'.table s'.nextTable refs s.nextTable = _
    rw [← nextTable, update_self]
  have holders : ∀ c, (s'.publish refs).holders c = s.holders c ++ if c ∈ refs then [s.nextTable] else [] := by
    intro c
    rw [MonoDomain.holders, unfreed, filter_append, MonoDomain.holders]
    congr 1
    · exact filter_congr fun t member => by rw [tableOld t member]
    · by_cases lists : c ∈ refs <;> simp [tableNew, lists]
  have low : s.nextChunk ≤ s'.nextChunk := made.next ▸ Nat.le_add_right _ _
  have sharedHolder : ∀ c ∈ before' ++ after', s.holders c ≠ [] := by
    intro c member none
    have holds := mem_holders.mpr ⟨ok.current, room.shared cut member⟩
    rw [none] at holds
    exact absurd holds not_mem_nil
  have nobody : ∀ c, s.nextChunk ≤ c → s.holders c = [] := by
    intro c above
    rw [eq_nil_iff_forall_not_mem]
    intro t member
    obtain ⟨unfreed', lists⟩ := mem_holders.mp member
    exact absurd ((ok.lists t unfreed').2 c lists) (Nat.not_lt.mpr above)
  have inRefs : ∀ c < s.nextChunk, (c ∈ refs ↔ c ∈ before' ++ after') := by
    intro c below
    rw [made.mem_refs]
    exact or_iff_left fun fresh => absurd below (Nat.not_lt.mpr fresh.1)
  constructor
  · rw [unfreed]
    change s'.nextTable ∈ _
    rw [nextTable]
    exact mem_append_right _ mem_cons_self
  · intro t
    change Hazard.table t ∈ Hazard.table s'.jitInfoTable :: s'.hazardous ↔ _ ∧ t ≠ s'.nextTable
    rw [unfreed, hazardous, old, nextTable, mem_cons, ok.waiting, Hazard.table.injEq, mem_append,
      mem_singleton]
    constructor
    · rintro (rfl | ⟨member, _⟩)
      · exact ⟨.inl ok.current, Nat.ne_of_lt (mem_unfreedTables.mp ok.current).1⟩
      · exact ⟨.inl member, Nat.ne_of_lt (mem_unfreedTables.mp member).1⟩
    · rintro ⟨member | same, different⟩
      · by_cases isOld : t = s.jitInfoTable
        · exact .inl isOld
        · exact .inr ⟨member, isOld⟩
      · exact absurd same different
  · change (Hazard.table s'.jitInfoTable :: s'.hazardous).Nodup
    rw [hazardous, old, nodup_cons]
    exact ⟨fun member => ((ok.waiting _).mp member).2 rfl, ok.waitingOnce⟩
  · change s'.numJitInfoTables + 1 = _
    rw [unfreed, number, ok.number, length_append, length_singleton]
    rfl
  · intro t member
    change t < s'.nextTable + 1
    rw [nextTable]
    exact Nat.lt_succ_of_lt (ok.freedBelow t (freedTables ▸ member))
  · intro t member
    rw [unfreed] at member
    rcases mem_append.mp member with member | member
    · rw [tableOld t member]
      obtain ⟨nodup, below⟩ := ok.lists t member
      exact ⟨nodup, fun c lists => Nat.lt_of_lt_of_le (below c lists) low⟩
    · rw [mem_singleton.mp member]
      have current : (s'.publish refs).jitInfoTable = s.nextTable := nextTable
      rw [← current]
      exact ⟨table.nodup, table.below⟩
  · intro c below
    change s'.refcount c = _
    rw [holders]
    by_cases fresh : c < s.nextChunk
    · rw [made.count c fresh, ok.refcount c fresh]
      by_cases shared : c ∈ before' ++ after'
      · simp [shared, (inRefs c fresh).mpr shared]
      · simp [shared, mt (inRefs c fresh).mp shared]
    · have above := Nat.le_of_not_lt fresh
      rw [made.countFresh c above below, nobody c above, if_pos (made.mem_refs.mpr (.inr ⟨above, below⟩))]
      rfl
  · change s'.freedChunks.Nodup
    rw [freedChunks]
    exact ok.chunksOnce
  · intro c below
    change c ∈ s'.freedChunks ↔ _
    rw [freedChunks, holders]
    by_cases fresh : c < s.nextChunk
    · rw [ok.chunks c fresh, append_eq_nil_iff]
      constructor
      · intro none
        refine ⟨none, ?_⟩
        rw [if_neg]
        intro lists
        exact sharedHolder c ((inRefs c fresh).mp lists) none
      · exact And.left
    · have above := Nat.le_of_not_lt fresh
      rw [if_pos (made.mem_refs.mpr (.inr ⟨above, below⟩))]
      constructor
      · exact fun gone => absurd (ok.chunksBelow c gone) fresh
      · exact fun none => absurd none (append_ne_nil_of_right_ne_nil _ (cons_ne_nil _ _))
  · intro c gone
    exact Nat.lt_of_lt_of_le (ok.chunksBelow c (freedChunks ▸ gone)) low

theorem EntriesOk.publish {adding : Option MonoJitInfo} (tables : TablesOk s) (entries : EntriesOk s adding)
    (below : ∀ c ∈ s.table s.jitInfoTable, c < s.nextChunk) (cut : s.table s.jitInfoTable = before ++ chunk :: after)
    (made : NewTable s s' before' new after' refs) (room : MakesRoom s before after chunk before' new after')
    (live : liveElements (s'.publish refs).chunks = liveElements s.chunks) : EntriesOk (s'.publish refs) adding := by
  have rest := made.rest
  have nextTable : s'.nextTable = s.nextTable := by rw [rest]
  have freedTables : s'.freedTables = s.freedTables := by rw [rest]
  have freedChunks : s'.freedChunks = s.freedChunks := by rw [rest]
  have freedInfos : s'.freedInfos = s.freedInfos := by rw [rest]
  have tombstones : s'.tombstones = s.tombstones := by rw [rest]
  have nextInfo : s'.nextInfo = s.nextInfo := by rw [rest]
  have queue : s'.jitInfoFreeQueue = s.jitInfoFreeQueue := by rw [rest]
  have hazardous : s'.hazardous = s.hazardous := by rw [rest]
  have tableSame : s'.table = s.table := by rw [rest]
  have current : (s'.publish refs).table (s'.publish refs).jitInfoTable = refs := update_self ..
  have low : s.nextChunk ≤ s'.nextChunk := made.next ▸ Nat.le_add_right _ _
  have inRefs : ∀ c ∈ refs, ∀ ji ∈ (s'.chunk c).data, ∃ c' ∈ s.table s.jitInfoTable, ji ∈ (s.chunk c').data := by
    intro c lists ji inside
    rcases made.mem_refs.mp lists with shared | ⟨above, high⟩
    · have member := room.shared cut shared
      rw [made.old c (below c member)] at inside
      exact ⟨c, member, inside⟩
    · have alive := made.fresh_live room cut above high inside
      exact (mem_live_current (mem_liveElements.mp alive).2).mp alive
  have listed : ∀ ji, (s'.publish refs).Listed ji → s.Listed ji := by
    intro ji ⟨t, unfreed, c, lists, inside⟩
    change ji ∈ (s'.chunk c).data at inside
    change c ∈ Function.update s'.table s'.nextTable refs t at lists
    rw [mem_unfreedTables] at unfreed
    change t < s'.nextTable + 1 ∧ t ∉ s'.freedTables at unfreed
    rw [nextTable, freedTables] at unfreed
    rw [nextTable, tableSame] at lists
    by_cases isNew : t = s.nextTable
    · rw [isNew, update_self] at lists
      obtain ⟨c', member, inside'⟩ := inRefs c lists ji inside
      exact tables.listed_current member inside'
    · rw [update_of_ne isNew] at lists
      have unfreed' : t ∈ s.unfreedTables := mem_unfreedTables.mpr ⟨by omega, unfreed.2⟩
      rw [made.old c ((tables.lists t unfreed').2 c lists)] at inside
      exact ⟨t, unfreed', c, lists, inside⟩
  have dead : ∀ ji, isJitInfoTombstone ji = true → ∀ c < s'.nextChunk, ji ∈ (s'.chunk c).data →
      c < s.nextChunk ∧ ji ∈ (s.chunk c).data := by
    intro ji isDead c high inside
    by_cases fresh : c < s.nextChunk
    · exact ⟨fresh, made.old c fresh ▸ inside⟩
    · have alive := made.fresh_live room cut (Nat.le_of_not_lt fresh) high inside
      rw [(mem_liveElements.mp alive).2] at isDead
      exact Bool.noConfusion isDead
  have known : ∀ ji, (s'.publish refs).Known ji → s.Known ji := by
    rintro ji (⟨c, high, inside⟩ | queued | waits | free)
    · change c < s'.nextChunk at high
      by_cases fresh : c < s.nextChunk
      · exact .inl ⟨c, fresh, made.old c fresh ▸ inside⟩
      · have alive := made.fresh_live room cut (Nat.le_of_not_lt fresh) high inside
        obtain ⟨c', lists, inside'⟩ := (mem_live_current (mem_liveElements.mp alive).2).mp alive
        exact .inl ⟨c', below c' lists, inside'⟩
    · exact .inr (.inl (queue ▸ queued))
    · change Hazard.info ji ∈ Hazard.table s'.jitInfoTable :: s'.hazardous at waits
      rw [hazardous] at waits
      rcases mem_cons.mp waits with same | waits
      · cases same
      · exact .inr (.inr (.inl waits))
    · exact .inr (.inr (.inr (freedInfos ▸ free)))
  constructor
  · change s'.freedInfos.Nodup
    rw [freedInfos]
    exact entries.infosOnce
  · intro ji listed'
    change ji ∉ s'.freedInfos
    rw [freedInfos]
    exact entries.unfreed ji (listed ji listed')
  · rw [live]
    exact entries.liveOnce
  · change s'.jitInfoFreeQueue.Nodup
    rw [queue]
    exact entries.queueOnce
  · intro ji queued
    change ji ∈ s'.jitInfoFreeQueue at queued
    rw [queue] at queued
    obtain ⟨alive, free, outside⟩ := entries.queue ji queued
    refine ⟨alive, freedInfos.symm ▸ free, ?_⟩
    rw [current]
    intro c lists inside
    obtain ⟨c', member, inside'⟩ := inRefs c lists ji inside
    exact outside c' member inside'
  · intro ji waits
    change Hazard.info ji ∈ Hazard.table s'.jitInfoTable :: s'.hazardous at waits
    rw [hazardous] at waits
    rcases mem_cons.mp waits with same | waits
    · cases same
    · obtain ⟨alive, free, notQueued, outside⟩ := entries.infos ji waits
      exact ⟨alive, freedInfos.symm ▸ free, queue.symm ▸ notQueued, fun listed' => outside (listed ji listed')⟩
  · intro c high c' high' ji isDead inside inside'
    obtain ⟨below1, old1⟩ := dead ji isDead c high inside
    obtain ⟨below2, old2⟩ := dead ji isDead c' high' inside'
    exact entries.place c below1 c' below2 ji isDead old1 old2
  · intro c high
    change ((s'.chunk c).data.filter isJitInfoTombstone).Nodup
    by_cases fresh : c < s.nextChunk
    · rw [made.old c fresh]
      exact entries.placeOnce c fresh
    · have none : (s'.chunk c).data.filter isJitInfoTombstone = [] := by
        rw [filter_eq_nil_iff]
        intro ji inside isDead
        exact fresh (dead ji isDead c high inside).1
      rw [none]
      exact nodup_nil
  · intro ji
    change ji ∈ s'.tombstones ↔ isJitInfoTombstone ji = true ∧ ∃ c < s'.nextChunk, ji ∈ (s'.chunk c).data
    rw [tombstones, entries.tombstones]
    apply and_congr_right
    intro isDead
    constructor
    · exact fun ⟨c, fresh, inside⟩ => ⟨c, Nat.lt_of_lt_of_le fresh low, (made.old c fresh).symm ▸ inside⟩
    · exact fun ⟨c, high, inside⟩ => ⟨c, dead ji isDead c high inside⟩
  · intro ji isDead
    change ji ∈ s'.freedInfos ↔ ∃ c ∈ s'.freedChunks, ji ∈ (s'.chunk c).data
    rw [freedInfos, freedChunks, entries.freedTombstones ji isDead]
    apply exists_congr
    intro c
    apply and_congr_right
    intro gone
    rw [made.old c (tables.chunksBelow c gone)]
  · intro ji known'
    change ji.address < s'.nextInfo
    rw [nextInfo]
    exact entries.below ji (known ji known')
  · intro ji added
    obtain ⟨alive, address, fresh⟩ := entries.adding ji added
    exact ⟨alive, nextInfo.symm ▸ address, fun known' => fresh (known ji known')⟩

end Publishing

/-- An entry that was taken out of the current table and is to be freed. -/
structure Removed (s : MonoDomain) (ji : MonoJitInfo) : Prop where
  alive : isJitInfoTombstone ji = false
  address : ji.address < s.nextInfo
  unfreed : ji ∉ s.freedInfos
  notQueued : ji ∉ s.jitInfoFreeQueue
  notWaiting : Hazard.info ji ∉ s.hazardous
  outside : ∀ c ∈ s.table s.jitInfoTable, ji ∉ (s.chunk c).data

/-- The entry is queued while older tables may list it, and waits for its readers otherwise. -/
theorem Owned.freeOrQueue (owned : Owned ⟨s, none⟩) (removed : Removed s ji) :
    Owned ⟨monoJitInfoFreeOrQueue s ji, none⟩ := by
  have tables := owned.tables
  have entries := owned.entries
  have table := (sameTables_monoJitInfoFreeOrQueue s ji).ok owned.table
  unfold monoJitInfoFreeOrQueue at table ⊢
  split at table
  next one =>
      have only : ∀ t ∈ s.unfreedTables, t = s.jitInfoTable := by
        intro t unfreed
        by_contra different
        have both : [t, s.jitInfoTable].Subperm s.unfreedTables := by
          apply subperm_of_subset (by simpa using different)
          intro x member
          rcases mem_cons.mp member with rfl | member
          · exact unfreed
          · rw [mem_singleton.mp member]
            exact tables.current
        have two := both.length_le
        have number : s.numJitInfoTables = s.unfreedTables.length := tables.number
        simp only [length_cons, length_nil] at two
        omega
      have unlisted : ¬ s.Listed ji := fun ⟨t, unfreed, c, lists, inside⟩ =>
        removed.outside c (only t unfreed ▸ lists) inside
      have known : ∀ other, MonoDomain.Known { s with hazardous := .info ji :: s.hazardous } other →
          other = ji ∨ s.Known other := by
        rintro other (inChunk | queued | waits | free)
        · exact .inr (.inl inChunk)
        · exact .inr (.inr (.inl queued))
        · rcases mem_cons.mp waits with same | waits
          · exact .inl (Hazard.info.inj same)
          · exact .inr (.inr (.inr (.inl waits)))
        · exact .inr (.inr (.inr (.inr free)))
      rw [if_pos one]
      refine ⟨table, ?_, { entries with infos := ?_, below := ?_, adding := ?_ }⟩
      · refine tables.congr ⟨rfl, rfl, rfl, rfl, rfl, rfl, rfl, rfl⟩ ?_ ?_
        · intro t
          rw [mem_cons]
          exact or_iff_right (fun same => by cases same)
        · exact nodup_cons.mpr ⟨removed.notWaiting, tables.waitingOnce⟩
      · intro other waits
        rcases mem_cons.mp waits with same | waits
        · obtain rfl := Hazard.info.inj same
          exact ⟨removed.alive, removed.unfreed, removed.notQueued, unlisted⟩
        · exact entries.infos other waits
      · intro other known'
        rcases known other known' with rfl | known'
        · exact removed.address
        · exact entries.below other known'
      · exact fun other added => absurd added.symm (some_ne_none other)
  next many =>
      rw [if_neg many]
      refine ⟨table, tables.congr ⟨rfl, rfl, rfl, rfl, rfl, rfl, rfl, rfl⟩ (fun _ => Iff.rfl) tables.waitingOnce,
        { entries with queueOnce := ?_, queue := ?_, infos := ?_, below := ?_, adding := ?_ }⟩
      · exact nodup_cons.mpr ⟨removed.notQueued, entries.queueOnce⟩
      · intro other queued
        rcases mem_cons.mp queued with rfl | queued
        · exact ⟨removed.alive, removed.unfreed, removed.outside⟩
        · exact entries.queue other queued
      · intro other waits
        obtain ⟨alive, free, notQueued, outside⟩ := entries.infos other waits
        refine ⟨alive, free, fun queued => ?_, outside⟩
        rcases mem_cons.mp queued with rfl | queued
        · exact removed.notWaiting waits
        · exact notQueued queued
      · rintro other (inChunk | queued | waits | free)
        · exact entries.below other (.inl inChunk)
        · rcases mem_cons.mp queued with rfl | queued
          · exact removed.address
          · exact entries.below other (.inr (.inl queued))
        · exact entries.below other (.inr (.inr (.inl waits)))
        · exact entries.below other (.inr (.inr (.inr free)))
      · exact fun other added => absurd added.symm (some_ne_none other)

theorem Owned.tombstone (owned : Owned ⟨s, none⟩) {front back : List Nat} {first second : List MonoJitInfo}
    (cut : s.table s.jitInfoTable = front ++ c :: back) (data : (s.chunk c).data = first ++ ji :: second)
    (alive : isJitInfoTombstone ji = false) (table : (s.table s.jitInfoTable).map (Function.update s.chunk c
        { s.chunk c with data := first ++ (monoJitInfoMakeTombstone s ji).2 :: second }) =
      front.map s.chunk ++ { s.chunk c with data := first ++ (monoJitInfoMakeTombstone s ji).2 :: second } ::
        back.map s.chunk) :
    Owned ⟨{ (monoJitInfoMakeTombstone s ji).1 with
        chunk := Function.update s.chunk c
          { s.chunk c with data := first ++ (monoJitInfoMakeTombstone s ji).2 :: second } }, none⟩ ∧
      Removed { (monoJitInfoMakeTombstone s ji).1 with
        chunk := Function.update s.chunk c
          { s.chunk c with data := first ++ (monoJitInfoMakeTombstone s ji).2 :: second } } ji := by
  have tables := owned.tables
  have entries := owned.entries
  have lists : c ∈ s.table s.jitInfoTable := cut ▸ mem_append_right front mem_cons_self
  have belowHere : c < s.nextChunk := owned.table.below c lists
  have inside : ji ∈ (s.chunk c).data := data ▸ mem_append_right first mem_cons_self
  have ends : (monoJitInfoMakeTombstone s ji).2.codeEnd = ji.codeEnd := rfl
  obtain ⟨sorted, perm⟩ := tombstone_spec owned.table cut data ends alive rfl
  have isDead : isJitInfoTombstone (monoJitInfoMakeTombstone s ji).2 = true := rfl
  have address : (monoJitInfoMakeTombstone s ji).2.address = s.nextInfo := rfl
  have next : (monoJitInfoMakeTombstone s ji).1.nextInfo = s.nextInfo + 1 := rfl
  have made : (monoJitInfoMakeTombstone s ji).1.tombstones = (monoJitInfoMakeTombstone s ji).2 :: s.tombstones := rfl
  have same : { (monoJitInfoMakeTombstone s ji).1 with
        chunk := Function.update s.chunk c
          { s.chunk c with data := first ++ (monoJitInfoMakeTombstone s ji).2 :: second } } =
      { s with
        nextInfo := s.nextInfo + 1
        tombstones := (monoJitInfoMakeTombstone s ji).2 :: s.tombstones
        chunk := Function.update s.chunk c
          { s.chunk c with data := first ++ (monoJitInfoMakeTombstone s ji).2 :: second } } := rfl
  rw [same]
  generalize (monoJitInfoMakeTombstone s ji).2 = tombstone at *
  have fresh : ¬ s.Known tombstone := fun known => by
    have below := entries.below tombstone known
    change tombstone.address < s.nextInfo at below
    omega
  have inNew : ∀ other c', other ∈ (Function.update s.chunk c
      { s.chunk c with data := first ++ tombstone :: second } c').data →
        (other = tombstone ∧ c' = c) ∨ other ∈ (s.chunk c').data := by
    intro other c' member
    by_cases here : c' = c
    · subst here
      rw [update_self] at member
      rw [data]
      rcases mem_append.mp member with member | member
      · exact .inr (mem_append_left _ member)
      · rcases mem_cons.mp member with isNew | member
        · exact .inl ⟨isNew, rfl⟩
        · exact .inr (mem_append_right first (mem_cons_of_mem ji member))
    · rw [update_of_ne here] at member
      exact .inr member
  have stays : ∀ other c', isJitInfoTombstone other = true → other ∈ (s.chunk c').data →
      other ∈ (Function.update s.chunk c { s.chunk c with data := first ++ tombstone :: second } c').data := by
    intro other c' dead member
    by_cases here : c' = c
    · subst here
      rw [update_self]
      rw [data] at member
      rcases mem_append.mp member with member | member
      · exact mem_append_left _ member
      · rcases mem_cons.mp member with rfl | member
        · rw [alive] at dead
          exact Bool.noConfusion dead
        · exact mem_append_right first (mem_cons_of_mem _ member)
    · rw [update_of_ne here]
      exact member
  have isPlaced : tombstone ∈ (Function.update s.chunk c
      { s.chunk c with data := first ++ tombstone :: second } c).data := by
    rw [update_self]
    exact mem_append_right first mem_cons_self
  have onlyHere : ∀ c' < s.nextChunk, tombstone ∈ (Function.update s.chunk c
      { s.chunk c with data := first ++ tombstone :: second } c').data → c' = c := by
    intro c' below member
    rcases inNew tombstone c' member with ⟨_, here⟩ | before
    · exact here
    · exact absurd (.inl ⟨c', below, before⟩) fresh
  have liveOnce : (ji :: liveElements
      (front.map s.chunk ++ { s.chunk c with data := first ++ tombstone :: second } :: back.map s.chunk)).Nodup :=
    perm.nodup_iff.mpr entries.liveOnce
  obtain ⟨gone, liveOnce⟩ := nodup_cons.mp liveOnce
  refine ⟨⟨⟨owned.table.nodup, owned.table.below, (congrArg Sorted table).mpr sorted⟩,
    tables.congr ⟨rfl, rfl, rfl, rfl, rfl, rfl, rfl, rfl⟩ (fun _ => Iff.rfl) tables.waitingOnce, ?_⟩, ?_⟩
  · have listed : ∀ other, MonoDomain.Listed { s with
          nextInfo := s.nextInfo + 1
          tombstones := tombstone :: s.tombstones
          chunk := Function.update s.chunk c { s.chunk c with data := first ++ tombstone :: second } } other →
        other = tombstone ∨ s.Listed other := by
      intro other ⟨t, unfreed, c', lists', member⟩
      rcases inNew other c' member with ⟨isNew, _⟩ | before
      · exact .inl isNew
      · exact .inr ⟨t, unfreed, c', lists', before⟩
    constructor
    · exact entries.infosOnce
    · intro other listed'
      rcases listed other listed' with rfl | before
      · exact fun free => fresh (.inr (.inr (.inr free)))
      · exact entries.unfreed other before
    · exact (congrArg (fun chunks => (liveElements chunks).Nodup) table).mpr liveOnce
    · exact entries.queueOnce
    · intro other queued
      obtain ⟨alive', free, outside⟩ := entries.queue other queued
      refine ⟨alive', free, fun c' lists' member => ?_⟩
      rcases inNew other c' member with ⟨rfl, _⟩ | before
      · exact fresh (.inr (.inl queued))
      · exact outside c' lists' before
    · intro other waits
      obtain ⟨alive', free, notQueued, outside⟩ := entries.infos other waits
      refine ⟨alive', free, notQueued, fun listed' => ?_⟩
      rcases listed other listed' with rfl | before
      · exact fresh (.inr (.inr (.inl waits)))
      · exact outside before
    · intro c1 below1 c2 below2 other dead member1 member2
      rcases inNew other c1 member1 with ⟨rfl, here1⟩ | before1
      · rw [here1, onlyHere c2 below2 member2]
      · rcases inNew other c2 member2 with ⟨rfl, here2⟩ | before2
        · exact absurd (.inl ⟨c1, below1, before1⟩) fresh
        · exact entries.place c1 below1 c2 below2 other dead before1 before2
    · intro c' below
      have once := entries.placeOnce c' below
      by_cases here : c' = c
      · subst here
        simp only [update_self]
        rw [data, filter_append, filter_cons_of_neg (by simp [alive])] at once
        rw [filter_append, filter_cons_of_pos isDead]
        refine nodup_middle.mpr (nodup_cons.mpr ⟨fun member => ?_, once⟩)
        have before : tombstone ∈ (s.chunk c').data := by
          rw [data]
          rcases mem_append.mp member with member | member
          · exact mem_append_left _ (mem_filter.mp member).1
          · exact mem_append_right first (mem_cons_of_mem ji (mem_filter.mp member).1)
        exact fresh (.inl ⟨c', below, before⟩)
      · simp only [update_of_ne here]
        exact once
    · intro other
      rw [mem_cons]
      constructor
      · rintro (rfl | before)
        · exact ⟨isDead, c, belowHere, isPlaced⟩
        · obtain ⟨dead, c', below, member⟩ := (entries.tombstones other).mp before
          exact ⟨dead, c', below, stays other c' dead member⟩
      · rintro ⟨dead, c', below, member⟩
        rcases inNew other c' member with ⟨isNew, _⟩ | before
        · exact .inl isNew
        · exact .inr ((entries.tombstones other).mpr ⟨dead, c', below, before⟩)
    · intro other dead
      rw [entries.freedTombstones other dead]
      constructor
      · exact fun ⟨c', gone', member⟩ => ⟨c', gone', stays other c' dead member⟩
      · rintro ⟨c', gone', member⟩
        rcases inNew other c' member with ⟨_, here⟩ | before
        · have held := (tables.chunks c belowHere).mp (here ▸ gone')
          have holds := mem_holders.mpr ⟨tables.current, lists⟩
          rw [held] at holds
          exact absurd holds not_mem_nil
        · exact ⟨c', gone', before⟩
    · rintro other (⟨c', below, member⟩ | queued | waits | free)
      · rcases inNew other c' member with ⟨rfl, _⟩ | before
        · exact Nat.lt_succ_of_le (Nat.le_of_eq address)
        · exact Nat.lt_succ_of_lt (entries.below other (.inl ⟨c', below, before⟩))
      · exact Nat.lt_succ_of_lt (entries.below other (.inr (.inl queued)))
      · exact Nat.lt_succ_of_lt (entries.below other (.inr (.inr (.inl waits))))
      · exact Nat.lt_succ_of_lt (entries.below other (.inr (.inr (.inr free))))
    · exact fun other added => absurd added.symm (some_ne_none other)
  · have listedBefore := tables.listed_current lists inside
    refine ⟨alive, Nat.lt_succ_of_lt (entries.below ji (.inl ⟨c, belowHere, inside⟩)),
      entries.unfreed ji listedBefore, fun queued => (entries.queue ji queued).2.2 c lists inside,
      fun waits => (entries.infos ji waits).2.2.2 listedBefore, ?_⟩
    intro c' lists' member
    apply gone
    rw [← table]
    exact mem_liveElements.mpr ⟨⟨_, List.mem_map_of_mem lists', member⟩, alive⟩

/-! ### Runs -/

theorem Owned.ownershipOk (owned : Owned sys) : OwnershipOk sys.domain where
  refcount := owned.tables.refcount
  chunksOnce := owned.tables.chunksOnce
  chunks := owned.tables.chunks
  infosOnce := owned.entries.infosOnce
  tombstones := by
    intro ji made
    obtain ⟨dead, c, below, inside⟩ := (owned.entries.tombstones ji).mp made
    constructor
    · intro free t unfreed c' lists inside'
      exact owned.entries.unfreed ji ⟨t, unfreed, c', lists, inside'⟩ free
    · intro unlisted
      refine (owned.entries.freedTombstones ji dead).mpr ⟨c, (owned.tables.chunks c below).mpr ?_, inside⟩
      rw [eq_nil_iff_forall_not_mem]
      intro t holds
      obtain ⟨unfreed, lists⟩ := mem_holders.mp holds
      exact unlisted t unfreed c lists inside

theorem Owned.attempt (owned : Owned sys) (adds : sys.adding = some ji)
    {inserted : Bool} (attempt : addAttempt sys.domain ji = some (s', inserted)) :
    Owned ⟨s', if inserted then none else some ji⟩ ∧ s'.inspectedFreed = sys.domain.inspectedFreed := by
  have nonempty : sys.domain.chunks ≠ [] := by
    intro none
    rw [addAttempt, none] at attempt
    cases attempt
  by_cases full : ChunkFull sys.domain.chunks ji.codeEnd
  · obtain ⟨s1, refs, before, chunk, after, before', new, after', result, cut, made, room, isFull⟩ :=
      addAttempt_full owned.table full
    obtain ⟨rfl, rfl⟩ := Prod.mk.inj (Option.some.inj (result.symm.trans attempt))
    obtain ⟨table, live, _, _⟩ := publish_spec owned.table cut made room isFull
    have same : (s1.publish refs).inspectedFreed = sys.domain.inspectedFreed := by
      change s1.inspectedFreed = _
      rw [made.rest]
    refine ⟨⟨table, owned.tables.publish cut made room table, ?_⟩, same⟩
    have entries := owned.entries.publish owned.tables owned.table.below cut made room live
    rw [adds] at entries
    exact entries
  · obtain ⟨c, chunk, result, lists, perm, table, live⟩ := addAttempt_room owned.table nonempty full
    obtain ⟨rfl, rfl⟩ := Prod.mk.inj (Option.some.inj (result.symm.trans attempt))
    exact ⟨owned.insert adds lists perm table live, rfl⟩

theorem Owned.remove (owned : Owned ⟨s, none⟩) (alive : isJitInfoTombstone ji = false)
    (removes : monoJitInfoTableRemove s ji = some s') : Owned ⟨s', none⟩ ∧ s'.inspectedFreed = s.inspectedFreed := by
  have search : ∃ chunkPos pos, removeSearch s.chunks ji = some (chunkPos, pos) := by
    cases result : removeSearch s.chunks ji with
    | none =>
      rw [monoJitInfoTableRemove, result] at removes
      cases removes
    | some place => exact ⟨place.1, place.2, rfl⟩
  obtain ⟨chunkPos, pos, search⟩ := search
  obtain ⟨chunk, at_, inside⟩ := removeSearch_sound search
  have table : ∃ c, (s.table s.jitInfoTable)[chunkPos]? = some c ∧ s.chunk c = chunk := by
    rw [MonoDomain.chunks, getElem?_map, map_eq_some_iff] at at_
    exact at_
  obtain ⟨c, here, rfl⟩ := table
  obtain ⟨chunkInside, chunkHere⟩ := List.getElem?_eq_some_iff.mp here
  obtain ⟨posInside, posHere⟩ := List.getElem?_eq_some_iff.mp inside
  have cut := split_of_lt chunkInside
  have data := split_of_lt posInside
  rw [chunkHere] at cut
  rw [posHere] at data
  have found : removeSearch s.chunks ji =
      some (((s.table s.jitInfoTable).take chunkPos).length, ((s.chunk c).data.take pos).length) := by
    rw [search, length_take, length_take, Nat.min_eq_left (Nat.le_of_lt chunkInside),
      Nat.min_eq_left (Nat.le_of_lt posInside)]
  obtain ⟨result, chunks⟩ := monoJitInfoTableRemove_at owned.table cut data found
  obtain rfl := Option.some.inj (result.symm.trans removes)
  obtain ⟨owned', removed⟩ := owned.tombstone cut data alive chunks
  refine ⟨owned'.freeOrQueue removed, ?_⟩
  unfold monoJitInfoFreeOrQueue
  split <;> rfl

/-- Each event keeps the ownership, and reads a freed entry exactly when it is not safe. -/
theorem Owned.step {sys' : JitInfoSystem} (owned : Owned sys) (event : JitInfoEvent) (steps : sys.step event = some sys') :
    Owned sys' ∧ (sys'.domain.inspectedFreed = [] ↔ sys.domain.inspectedFreed = [] ∧ sys.Safe event) := by
  cases event with
  | begin codeStart codeSize method =>
    rw [JitInfoSystem.step] at steps
    split at steps
    next => cases steps
    next =>
        cases steps
        exact ⟨owned.begin codeStart codeSize method, (and_iff_left trivial).symm⟩
  | attempt =>
    rw [JitInfoSystem.step] at steps
    split at steps
    next => cases steps
    next ji adds =>
        obtain ⟨result, attempt, rfl⟩ := map_eq_some_iff.mp steps
        obtain ⟨owned', same⟩ := owned.attempt adds attempt
        exact ⟨owned', by rw [same]; exact (and_iff_left trivial).symm⟩
  | remove ji =>
    rw [JitInfoSystem.step] at steps
    split at steps
    next allowed =>
        obtain ⟨s', removes, rfl⟩ := map_eq_some_iff.mp steps
        have owned' : Owned ⟨sys.domain, none⟩ := allowed.1 ▸ owned
        obtain ⟨owned'', same⟩ := owned'.remove allowed.2 removes
        exact ⟨owned'', by rw [same]; exact (and_iff_left trivial).symm⟩
    next => cases steps
  | release hazard =>
    obtain rfl := Option.some.inj steps
    by_cases waits : hazard ∈ sys.domain.hazardous
    · cases hazard with
      | table t =>
        have freed := release_table owned waits
        obtain ⟨unfreed, other⟩ := (owned.tables.waiting t).mp waits
        refine ⟨⟨freed.same.ok owned.table, owned.tables.free freed unfreed other,
          owned.entries.free owned.tables freed unfreed other⟩, ?_⟩
        rw [freed.inspected owned.entries unfreed]
        exact and_congr_right fun _ => ⟨fun safe _ => safe, fun safe => safe waits⟩
      | info ji =>
        obtain ⟨owned', same⟩ := owned.release_info waits
        exact ⟨owned', by rw [same]; exact (and_iff_left trivial).symm⟩
    · have same : release sys.domain hazard = sys.domain := if_neg waits
      rw [same]
      refine ⟨owned, (and_iff_left ?_).symm⟩
      cases hazard with
      | table t => exact fun waits' => absurd waits' waits
      | info ji => trivial

theorem Owned.run {sys' : JitInfoSystem} (owned : Owned sys) (events : List JitInfoEvent)
    (runs : sys.run events = some sys') :
    Owned sys' ∧ (sys'.domain.inspectedFreed = [] ↔ sys.domain.inspectedFreed = [] ∧ sys.RunsSafely events) := by
  induction events generalizing sys with
  | nil =>
    cases runs
    exact ⟨owned, (and_iff_left trivial).symm⟩
  | cons event events ih =>
    obtain ⟨next, steps, runs⟩ := bind_eq_some_iff.mp runs
    obtain ⟨ownedNext, here⟩ := owned.step event steps
    obtain ⟨ownedEnd, rest⟩ := ih ownedNext runs
    refine ⟨ownedEnd, ?_⟩
    rw [rest, here, and_assoc]
    apply and_congr_right
    intro _
    constructor
    · intro ⟨safe, safely⟩
      exact ⟨safe, fun other steps' => Option.some.inj (steps.symm.trans steps') ▸ safely⟩
    · exact fun ⟨safe, safely⟩ => ⟨safe, safely next steps⟩

theorem foldl_release_runs (hazards : List Hazard) (sys : JitInfoSystem) :
    sys.run (hazards.map .release) = some { sys with domain := hazards.foldl release sys.domain } := by
  induction hazards generalizing sys with
  | nil => rfl
  | cons hazard hazards ih => exact ih { sys with domain := release sys.domain hazard }

/-- A call of `mono_jit_info_table_add` is a run of passes, with what is freed between them. -/
theorem addLoop_runs : ∀ (fuel : Nat) (released : List (List Hazard)) {s s' : MonoDomain},
    addLoop ji fuel released s = some s' → ∃ events, JitInfoSystem.run ⟨s, some ji⟩ events = some ⟨s', none⟩
  | 0, _, _, _, adds => by cases adds
  | fuel + 1, released, s, s', adds => by
      obtain ⟨⟨next, inserted⟩, attempt, adds⟩ := bind_eq_some_iff.mp adds
      have first : JitInfoSystem.step ⟨s, some ji⟩ .attempt = some ⟨next, if inserted then none else some ji⟩ := by
        rw [JitInfoSystem.step]
        simp only [attempt, map_some]
      cases inserted with
      | true =>
        obtain rfl := Option.some.inj adds
        exact ⟨[.attempt], by rw [JitInfoSystem.run, foldlM_cons, first]; rfl⟩
      | false =>
        obtain ⟨events, runs⟩ := addLoop_runs fuel released.tail adds
        have frees := foldl_release_runs (released.headD []) ⟨next, some ji⟩
        refine ⟨.attempt :: ((released.headD []).map .release ++ events), ?_⟩
        rw [JitInfoSystem.run] at frees runs ⊢
        rw [foldlM_cons, first]
        simp only [Bool.false_eq_true, if_false, bind_eq_bind, bind_some, foldlM_append, frees,
          runs]

/-- A call of the runtime is a run of events. -/
theorem call_runs {m m' : Methods} (ok : MethodsOk m) (call : JitInfoCall) (allowed : m.Allows call)
    (calls : m.call call = some m') : ∃ events, JitInfoSystem.run ⟨m.domain, none⟩ events = some ⟨m'.domain, none⟩ := by
  cases call with
  | add codeStart codeSize method released =>
    obtain ⟨s', adds, same⟩ := bind_eq_some_iff.mp calls
    obtain rfl := Option.some.inj same
    obtain ⟨events, runs⟩ := addLoop_runs _ released adds
    exact ⟨.begin codeStart codeSize method :: events, runs⟩
  | remove ji =>
    obtain ⟨s', removes, same⟩ := bind_eq_some_iff.mp calls
    obtain rfl := Option.some.inj same
    have first : JitInfoSystem.step ⟨m.domain, none⟩ (.remove ji) = some ⟨s', none⟩ := by
      rw [JitInfoSystem.step, if_pos ⟨rfl, ok.apart.method ji allowed⟩, removes]
      rfl
    exact ⟨[.remove ji], by rw [JitInfoSystem.run, foldlM_cons, first]; rfl⟩
  | release hazard =>
    obtain rfl := Option.some.inj calls
    exact ⟨[.release hazard], rfl⟩

theorem calls_run : ∀ (calls : List JitInfoCall) {m m' : Methods}, MethodsOk m → m.Respects calls →
    calls.foldlM Methods.call m = some m' →
      MethodsOk m' ∧ ∃ events, JitInfoSystem.run ⟨m.domain, none⟩ events = some ⟨m'.domain, none⟩
  | [], _, _, ok, _, runs => by
    obtain rfl := Option.some.inj runs
    exact ⟨ok, [], rfl⟩
  | call :: calls, m, m', ok, ⟨allowed, respects⟩, runs => by
    obtain ⟨middle, here, rest⟩ := bind_eq_some_iff.mp runs
    obtain ⟨succeeds, fails⟩ := ok.call call allowed
    have okMiddle : MethodsOk middle := by
      by_cases room : m.HasRoom call
      · obtain ⟨_, same, ok'⟩ := succeeds room
        exact Option.some.inj (same.symm.trans here) ▸ ok'
      · exact absurd (here.symm.trans (fails room)) (some_ne_none _)
    obtain ⟨events, first⟩ := call_runs ok call allowed here
    obtain ⟨ok', events', second⟩ := calls_run calls okMiddle (respects middle here) rest
    refine ⟨ok', events ++ events', ?_⟩
    rw [JitInfoSystem.run] at first second ⊢
    rw [foldlM_append, first]
    exact second

/-- Every sequence of calls on a new domain is a run of events that ends in the same domain. So when no call failed the
search finds each live method, and nothing was freed twice or while it was in use. -/
theorem methods_refine_jitInfoSystem (calls : List JitInfoCall) (respects : Methods.create.Respects calls) {m : Methods}
    (runs : calls.foldlM Methods.call .create = some m) :
    (∃ events, JitInfoSystem.create.run events = some ⟨m.domain, none⟩) ∧ m.FindsLive ∧ OwnershipOk m.domain := by
  obtain ⟨ok, events, runs⟩ := calls_run calls MethodsOk.create respects runs
  exact ⟨⟨events, runs⟩, ok.findsLive, (Owned.create.run events runs).1.ownershipOk⟩

theorem methods_refine_jitInfoSystem_sample :
    ∃ m, sampleCalls.foldlM Methods.call .create = some m ∧ m.FindsLive ∧ OwnershipOk m.domain := by
  have respects : Methods.create.Respects sampleCalls := by decide
  have succeeds : (sampleCalls.foldlM Methods.call .create).isSome = true := by decide
  obtain ⟨m, runs⟩ := isSome_iff_exists.mp succeeds
  exact ⟨m, runs, (methods_refine_jitInfoSystem sampleCalls respects runs).2⟩

/-- In every state of every run the reference counts count the unfreed tables, and each chunk and tombstone is freed
once, when no unfreed table has it; and no freed entry was ever read exactly when each table of the run was freed
safely. -/
theorem jitInfoSystem_owns_iff (events : List JitInfoEvent) (sys : JitInfoSystem)
    (runs : JitInfoSystem.create.run events = some sys) :
    (OwnershipOk sys.domain ∧ sys.domain.inspectedFreed = []) ↔ JitInfoSystem.create.RunsSafely events := by
  obtain ⟨owned, safe⟩ := Owned.create.run events runs
  rw [safe]
  exact ⟨fun both => both.2.2, fun safely => ⟨owned.ownershipOk, rfl, safely⟩⟩

/-- Enough methods for a second table. -/
def twoTables : List JitInfoEvent :=
  (List.range 64).flatMap (fun n => [.begin (16 * n) 16 n, .attempt]) ++ [.begin 1024 16 64, .attempt, .attempt]

theorem jitInfoSystem_owns_sample :
    ∃ sys, JitInfoSystem.create.run (twoTables ++ [.release (.table 0), .remove ⟨0, 0, 16, some 0⟩]) = some sys ∧
      ((OwnershipOk sys.domain ∧ sys.domain.inspectedFreed = []) ↔
        JitInfoSystem.create.RunsSafely (twoTables ++ [.release (.table 0), .remove ⟨0, 0, 16, some 0⟩])) := by
  have succeeds : (JitInfoSystem.create.run
      (twoTables ++ [.release (.table 0), .remove ⟨0, 0, 16, some 0⟩])).isSome = true := by decide +kernel
  obtain ⟨sys, runs⟩ := isSome_iff_exists.mp succeeds
  exact ⟨sys, runs, jitInfoSystem_owns_iff _ sys runs⟩

/-- A method is removed while the first table waits: the entry goes to the queue, and freeing the table drains the
queue before it looks at the chunk that lists the entry. -/
theorem jitInfoSystem_reads_freed :
    ¬ ∀ events sys, JitInfoSystem.create.run events = some sys →
      OwnershipOk sys.domain ∧ sys.domain.inspectedFreed = [] := by
  intro always
  have reads : ((JitInfoSystem.create.run
      (twoTables ++ [.remove ⟨0, 0, 16, some 0⟩, .release (.table 0)])).any
        fun sys => decide (sys.domain.inspectedFreed ≠ [])) = true := by decide +kernel
  obtain ⟨sys, runs, reads⟩ := (Option.any_eq_true _ _).mp reads
  exact of_decide_eq_true reads (always _ sys runs).2

end MonoRuntime.JitInfoTable
