/-
Module: MonoRuntime.Proofs.MonitorHeap
Purpose: The memory of the monitors of any number of objects: the free list, the records that threads have in hand and the
  records of the objects that live stay apart, whatever the allocator, the threads and the collector do.
Trusted boundary: none
Main exports: Hand
-/
import MonoRuntime.Metadata.MonitorObjects
import MonoRuntime.Lib.LinkedList

namespace MonoRuntime.Monitor

open Interleaving LinkedList List

variable {Tid Obj : Type}

/-! ### Records -/

/-- A record that a thread has in hand: it is not free, and no object that lives has it. -/
structure Hand (heap : Heap Tid Obj) (free : List Nat) (record : Nat) : Prop where
  bound : record < heap.allocated.sum
  notFree : record ∉ free
  unused : ∀ obj, heap.dead obj = false → heap.synchronisation obj ≠ some record

/-- A function that was called just now, and not by a wait. -/
def Pc.first (pc : Pc) : Bool :=
  match pc with
  | .enter call .readOwner => call.wait.isNone
  | .exit none .readOwner => true
  | .fast .enterReadOwner => true
  | .fast .exitReadOwner => true
  | .wait _ .readOwner => true
  | .pulse _ .readOwner => true
  | _ => false

/-- What holds of memory at the places where a record is made. -/
def AllocPc.fits (heap : Heap Tid Obj) (free : List Nat) (t : Tid) (obj : Obj) (pc : AllocPc) : Prop :=
  match pc with
  | .scan array index found =>
      (∀ record ∈ free, record < heap.recordAt array index) ∧ (found = false → free = [])
  | .allocate => free = []
  | .writeOwner record => Hand heap free record
  | .writeNest record => Hand heap free record ∧ (heap.record record).owner = some t
  | .install record => Hand heap free record ∧ (heap.record record).owner = some t ∧ (heap.record record).nest = 1
  | .link record => heap.synchronisation obj = some record
  | .finalize record => Hand heap free record
  | .push record => Hand heap free record
  | _ => True

/-- What holds of memory at a place. -/
def Place.fits (heap : Heap Tid Obj) (free : List Nat) (t : Tid) (obj : Obj) (place : Place) : Prop :=
  match place with
  | .reads pc => heap.synchronisation obj = none → pc.first = true
  | .allocates call pc => call.wait = none ∧ (pc ≠ .lock → heap.mutex = some t) ∧ pc.fits heap free t obj
  | .inside record _ => heap.synchronisation obj = some record

/-- A thread works on an object that lives, and memory fits its place. -/
def ThreadFits (heap : Heap Tid Obj) (free : List Nat) (t : Tid) (thread : ObjectThread Obj) : Prop :=
  ∀ obj place, thread.operation = some (obj, place) → heap.dead obj = false ∧ place.fits heap free t obj

/-- The free list, the records of the objects and the threads. -/
structure HeapInv (s : ObjectState Tid Obj) (free : List Nat) : Prop where
  linked : Linked s.shared.nextFree s.shared.freelist free
  nodup : free.Nodup
  notWeak : ∀ record ∈ free, ∀ obj, s.shared.data record ≠ some (.weakLink obj)
  bound : ∀ record ∈ free, record < s.shared.allocated.sum
  notInstalled : ∀ record ∈ free, ∀ obj, s.shared.dead obj = false → s.shared.synchronisation obj ≠ some record
  unshared : ∀ obj obj' record, s.shared.dead obj = false → s.shared.dead obj' = false →
    s.shared.synchronisation obj = some record → s.shared.synchronisation obj' = some record → obj = obj'
  installed : ∀ obj record, s.shared.dead obj = false → s.shared.synchronisation obj = some record →
    record < s.shared.allocated.sum ∧ (s.shared.data record = some (.weakLink obj) ∨
      ∃ t call, (s.own t).operation = some (obj, .allocates call (.link record)))
  arraySize : 0 < s.shared.arraySize
  threads : ∀ t, ThreadFits s.shared free t (s.own t)

variable {heap heap' : Heap Tid Obj} {free : List Nat} {t : Tid} {obj : Obj} {call : EnterCall} {pc : AllocPc}
  {s : ObjectState Tid Obj} {record : Nat}

/-- Another thread still fits where its records and links are left, if it has the lock, and otherwise where the objects
keep their records. -/
theorem ThreadFits.other {free' : List Nat} {u : Tid} {thread : ObjectThread Obj}
    (fits : ThreadFits heap free u thread) (dead : heap'.dead = heap.dead)
    (kept : ∀ obj record, heap.synchronisation obj = some record → heap'.synchronisation obj = some record)
    (locked : heap.mutex = some u → heap'.mutex = some u ∧ free' = free ∧ heap'.allocated = heap.allocated ∧
      heap'.synchronisation = heap.synchronisation ∧
      ∀ record, Hand heap free record → heap'.record record = heap.record record) : ThreadFits heap' free' u thread := by
  intro obj place at_
  obtain ⟨live, fits⟩ := fits obj place at_
  refine ⟨by rw [dead]; exact live, ?_⟩
  cases place with
  | reads pc =>
    intro none_
    refine fits ?_
    cases before : heap.synchronisation obj with
    | none => rfl
    | some record =>
      rw [kept obj record before] at none_
      cases none_
  | inside record pc => exact kept obj record fits
  | allocates call pc =>
    obtain ⟨wait, mutex, fits⟩ := fits
    by_cases unlocked : pc = .lock
    · subst unlocked
      exact ⟨wait, fun locked => absurd rfl locked, trivial⟩
    · obtain ⟨mutex', rfl, allocated, synchronisation, records⟩ := locked (mutex unlocked)
      refine ⟨wait, fun _ => mutex', ?_⟩
      have hand : ∀ record, Hand heap free' record → Hand heap' free' record := fun record hand =>
        ⟨by rw [allocated]; exact hand.bound, hand.notFree, by rw [dead, synchronisation]; exact hand.unused⟩
      cases pc with
      | lock | readFreelist | pop | unlock | unlockFinalized => trivial
      | scan array index found =>
        have same : heap'.recordAt array index = heap.recordAt array index := by
          rw [Heap.recordAt, Heap.recordAt, allocated]
        exact ⟨by rw [same]; exact fits.1, fits.2⟩
      | allocate => exact fits
      | writeOwner record | finalize record | push record => exact hand record fits
      | writeNest record | install record => exact ⟨hand record fits.1, by rw [records record fits.1]; exact fits.2⟩
      | link record =>
        change heap'.synchronisation obj = some record
        rw [synchronisation]
        exact fits

theorem ThreadFits.mutex {thread : ObjectThread Obj} (fits : ThreadFits heap free t thread)
    (at_ : thread.operation = some (obj, .allocates call pc)) (locked : pc ≠ .lock) : heap.mutex = some t :=
  (fits obj _ at_).2.2.1 locked

theorem HeapInv.linking_eq (inv : HeapInv s free) {u : Tid} (mutex : s.shared.mutex = some t)
    (at_ : (s.own u).operation = some (obj, .allocates call (.link record))) : u = t :=
  Option.some.inj (((inv.threads u).mutex at_ nofun).symm.trans mutex)

/-- While the thread that has the lock links nothing, the records of the objects that live have the weak links to them. -/
theorem HeapInv.weak (inv : HeapInv s free) (mutex : s.shared.mutex = some t)
    (notLinking : ∀ obj call record, (s.own t).operation ≠ some (obj, .allocates call (.link record)))
    (live : s.shared.dead obj = false) (installed : s.shared.synchronisation obj = some record) :
    s.shared.data record = some (.weakLink obj) := by
  obtain weak | ⟨u, call, at_⟩ := (inv.installed obj record live installed).2
  · exact weak
  · obtain rfl := inv.linking_eq mutex at_
    exact absurd at_ (notLinking obj call record)

theorem Heap.recordAt_lt {array index size : Nat} (at_ : heap.allocated[array]? = some size) (within : index < size) :
    heap.recordAt array index < heap.allocated.sum := by
  obtain ⟨bound, is⟩ := List.getElem?_eq_some_iff.mp at_
  have split := take_append_drop array heap.allocated
  rw [drop_eq_getElem_cons bound, is] at split
  have sum := congrArg List.sum split
  rw [sum_append, sum_cons] at sum
  unfold Heap.recordAt
  omega

theorem Operation.start_first (operation : Operation) : operation.start.first = true := by
  cases operation
  all_goals rfl

theorem withoutRecord_fits {pc : Pc} {place : Place} (first : pc.first = true)
    (goesOn : withoutRecord pc = some place) : place.fits heap free t obj := by
  cases pc with
  | idle => cases goesOn
  | enter call pc =>
    obtain rfl := Option.some.inj goesOn
    have wait : call.wait = none := by
      cases pc with
      | readOwner => exact Option.isNone_iff_eq_none.mp first
      | swapOwner | contendedReadOwner | contendedSwapOwner | readSem | installSem | incrementCount | countedSwapOwner |
          blocked | decrementCount | assertNest | countedAssertNest | ownedDecrementCount | readNest | writeNest =>
        cases first
    exact ⟨wait, fun locked => absurd rfl locked, trivial⟩
  | exit inWait pc =>
    cases inWait with
    | none => cases goesOn
    | some frame => cases first
  | fast pc =>
    cases pc with
    | enterReadOwner =>
      obtain rfl := Option.some.inj goesOn
      exact fun _ => rfl
    | enterSwapOwner | enterReadNest | enterWriteNest | exitReadOwner | exitReadNest | exitWriteNest | exitReadCount |
        exitClearOwner =>
      cases goesOn
  | wait frame pc | pulse all pc => cases goesOn

theorem heapInv_die [DecidableEq Obj] (inv : HeapInv s free)
    (unused : ∀ t place, (s.own t).operation ≠ some (obj, place)) :
    HeapInv { s with shared := s.shared.die obj } free := by
  have lives : ∀ other, (s.shared.die obj).dead other = false → other ≠ obj ∧ s.shared.dead other = false := by
    intro other live
    have ne : other ≠ obj := fun same => by
      rw [same, show (s.shared.die obj).dead obj = true from Function.update_self ..] at live
      cases live
    exact ⟨ne, (Function.update_of_ne ne ..).symm.trans live⟩
  have kept : ∀ record, s.shared.data record ≠ some (.weakLink obj) →
      (s.shared.die obj).data record = s.shared.data record := fun record ne => if_neg ne
  constructor
  case linked =>
    refine inv.linked.congr fun record member => ?_
    rw [Heap.nextFree, Heap.nextFree, kept record (inv.notWeak record member obj)]
  case nodup => exact inv.nodup
  case notWeak =>
    intro record member other
    rw [kept record (inv.notWeak record member obj)]
    exact inv.notWeak record member other
  case bound => exact inv.bound
  case notInstalled => exact fun record member other live => inv.notInstalled record member other (lives other live).2
  case unshared =>
    exact fun one two record liveOne liveTwo => inv.unshared one two record (lives one liveOne).2 (lives two liveTwo).2
  case installed =>
    intro other record live installed
    obtain ⟨ne, live⟩ := lives other live
    obtain ⟨bound, linked⟩ := inv.installed other record live installed
    refine ⟨bound, linked.imp_left fun weak => ?_⟩
    refine (kept record fun same => ne ?_).trans weak
    rw [weak] at same
    cases same
    rfl
  case arraySize => exact inv.arraySize
  case threads =>
    intro t other place at_
    obtain ⟨live, fits⟩ := inv.threads t other place at_
    have ne : other ≠ obj := fun same => unused t place (same ▸ at_)
    refine ⟨(Function.update_of_ne ne ..).trans live, ?_⟩
    have hand : ∀ record, Hand s.shared free record → Hand (s.shared.die obj) free record := fun record hand =>
      ⟨hand.bound, hand.notFree, fun other live => hand.unused other (lives other live).2⟩
    cases place with
    | reads pc | inside record pc => exact fits
    | allocates call pc =>
      refine ⟨fits.1, fits.2.1, ?_⟩
      have fits := fits.2.2
      cases pc with
      | lock | readFreelist | pop | unlock | unlockFinalized => trivial
      | scan | allocate | link => exact fits
      | writeOwner record | finalize record | push record => exact hand record fits
      | writeNest record | install record => exact ⟨hand record fits.1, fits.2⟩

/-- A step in the making of a record installs it, or leaves the objects and the levels; the thread stays, or it is done. -/
theorem stepAlloc_object [DecidableEq Obj] {thread' : ObjectThread Obj} {levels : Obj → Nat}
    (run : stepAlloc t heap levels obj call pc = some (heap', thread')) (wait : call.wait = none) :
    (∃ record, pc = .install record ∧ heap.synchronisation obj = none ∧
      heap' = { heap with synchronisation := Function.update heap.synchronisation obj (some record) } ∧
      thread' = ⟨some (obj, .allocates call (.link record)), Function.update levels obj (levels obj + 1)⟩) ∨
    heap'.dead = heap.dead ∧ heap'.synchronisation = heap.synchronisation ∧ thread'.levels = levels ∧
      (thread'.operation = none ∨ ∃ place, thread'.operation = some (obj, place) ∧ place.pc = .enter call .readOwner) := by
  cases pc with
  | install record =>
    simp only [stepAlloc] at run
    split_ifs at run with none_
    · obtain ⟨rfl, rfl⟩ := run
      exact Or.inl ⟨record, rfl, none_, rfl, rfl⟩
    · obtain ⟨rfl, rfl⟩ := run
      exact Or.inr ⟨rfl, rfl, rfl, Or.inr ⟨_, rfl, rfl⟩⟩
  | unlock =>
    obtain ⟨rfl, rfl⟩ := run
    exact Or.inr ⟨rfl, rfl, rfl, Or.inl (if_pos wait)⟩
  | scan array index found =>
    simp only [stepAlloc] at run
    split at run
    all_goals
      split_ifs at run
      all_goals
        obtain ⟨rfl, rfl⟩ := run
        exact Or.inr ⟨rfl, rfl, rfl, Or.inr ⟨_, rfl, rfl⟩⟩
  | pop =>
    simp only [stepAlloc] at run
    split at run
    next => cases run
    next =>
      obtain ⟨rfl, rfl⟩ := run
      exact Or.inr ⟨rfl, rfl, rfl, Or.inr ⟨_, rfl, rfl⟩⟩
  | lock | readFreelist | finalize =>
    simp only [stepAlloc] at run
    split_ifs at run
    all_goals
      obtain ⟨rfl, rfl⟩ := run
      exact Or.inr ⟨rfl, rfl, rfl, Or.inr ⟨_, rfl, rfl⟩⟩
  | allocate | writeOwner | writeNest | link | push | unlockFinalized =>
    obtain ⟨rfl, rfl⟩ := run
    exact Or.inr ⟨rfl, rfl, rfl, Or.inr ⟨_, rfl, rfl⟩⟩

/-- A step in the making of a record leaves the records of the objects that live. -/
theorem stepAlloc_record [DecidableEq Obj] {thread' : ObjectThread Obj} {levels : Obj → Nat} {other : Obj}
    (run : stepAlloc t s.shared levels obj call pc = some (heap', thread'))
    (operation : (s.own t).operation = some (obj, .allocates call pc)) (inv : HeapInv s free)
    (live : s.shared.dead other = false) (installed : s.shared.synchronisation other = some record) :
    heap'.record record = s.shared.record record := by
  obtain ⟨-, -, mutex, fits⟩ := inv.threads t obj _ operation
  have inHand : ∀ {hand : Nat} {sync : Sync Tid}, Hand s.shared free hand →
      Function.update s.shared.record hand sync record = s.shared.record record := fun hand =>
    Function.update_of_ne (fun same => hand.unused other live (by rw [← same]; exact installed)) ..
  cases pc with
  | lock | readFreelist | pop | install | link | unlock | push | unlockFinalized =>
    simp only [stepAlloc] at run
    first
    | (obtain ⟨rfl, rfl⟩ := run; rfl)
    | (split at run
       all_goals
         first
         | (cases run; done)
         | (obtain ⟨rfl, rfl⟩ := run; rfl))
  | scan array index found =>
    simp only [stepAlloc] at run
    split at run
    next =>
      split_ifs at run
      all_goals
        obtain ⟨rfl, rfl⟩ := run
        rfl
    next size is =>
      split_ifs at run with within unlinked found_
      · obtain ⟨rfl, rfl⟩ := run
        refine Function.update_of_ne (fun same => ?_) ..
        have notLinking : ∀ obj call record, (s.own t).operation ≠ some (obj, .allocates call (.link record)) := by
          rw [operation]
          simp
        rw [← same, inv.weak (mutex (by simp)) notLinking live installed] at unlinked
        cases unlinked
      all_goals
        obtain ⟨rfl, rfl⟩ := run
        rfl
  | allocate =>
    obtain ⟨rfl, rfl⟩ := run
    have bound := (inv.installed other record live installed).1
    exact if_neg fun new => absurd new.1 (Nat.not_le.mpr bound)
  | writeOwner hand =>
    obtain ⟨rfl, rfl⟩ := run
    exact inHand fits
  | writeNest hand =>
    obtain ⟨rfl, rfl⟩ := run
    exact inHand fits.1
  | finalize hand =>
    simp only [stepAlloc] at run
    split_ifs at run
    obtain ⟨rfl, rfl⟩ := run
    exact inHand fits

theorem HeapInv.mem_of_onFreelist (inv : HeapInv s free) (on : OnFreelist s.shared record) : record ∈ free := by
  induction on with
  | head first =>
    obtain ⟨rest, rfl, -⟩ := Linked.eq_cons (first ▸ inv.linked)
    exact mem_cons_self
  | next _ follows ih =>
    refine inv.linked.mem_of_follows ih ?_
    rw [Heap.nextFree, follows]

section Steps

variable [DecidableEq Tid] {s : ObjectState Tid Obj} {free : List Nat} {t : Tid} {heap' : Heap Tid Obj}
  {thread' : ObjectThread Obj}

theorem HeapInv.after (inv : HeapInv s free) (links : heap'.freelist = s.shared.freelist ∧ heap'.data = s.shared.data)
    (objects : heap'.dead = s.shared.dead ∧ heap'.synchronisation = s.shared.synchronisation)
    (arrays : heap'.allocated = s.shared.allocated ∧ heap'.arraySize = s.shared.arraySize)
    (notLinking : ∀ obj call record, (s.own t).operation ≠ some (obj, .allocates call (.link record)))
    (self : ThreadFits heap' free t thread') (locked : ∀ u, u ≠ t → s.shared.mutex = some u → heap'.mutex = some u ∧
      ∀ record, Hand s.shared free record → heap'.record record = s.shared.record record) :
    HeapInv (s.after t (heap', thread')) free := by
  obtain ⟨freelist, data⟩ := links
  obtain ⟨dead, synchronisation⟩ := objects
  obtain ⟨allocated, arraySize⟩ := arrays
  have nextFree : heap'.nextFree = s.shared.nextFree := by
    funext record
    rw [Heap.nextFree, Heap.nextFree, data]
  constructor
  case linked =>
    change Linked heap'.nextFree heap'.freelist free
    rw [nextFree, freelist]
    exact inv.linked
  case nodup => exact inv.nodup
  case notWeak =>
    change ∀ record ∈ free, ∀ obj, heap'.data record ≠ _
    rw [data]
    exact inv.notWeak
  case bound =>
    change ∀ record ∈ free, record < heap'.allocated.sum
    rw [allocated]
    exact inv.bound
  case notInstalled =>
    change ∀ record ∈ free, ∀ obj, heap'.dead obj = false → heap'.synchronisation obj ≠ some record
    rw [dead, synchronisation]
    exact inv.notInstalled
  case unshared =>
    change ∀ obj obj' record, heap'.dead obj = false → heap'.dead obj' = false →
      heap'.synchronisation obj = some record → heap'.synchronisation obj' = some record → obj = obj'
    rw [dead, synchronisation]
    exact inv.unshared
  case installed =>
    intro obj record live installed
    change heap'.dead obj = false at live
    change heap'.synchronisation obj = some record at installed
    rw [dead] at live
    rw [synchronisation] at installed
    obtain ⟨bound, linked⟩ := inv.installed obj record live installed
    refine ⟨by rw [State.after_shared, allocated]; exact bound, linked.imp (fun weak => ?_) fun ⟨u, call, at_⟩ => ?_⟩
    · rw [State.after_shared, data]
      exact weak
    · have ne : u ≠ t := fun same => notLinking obj call record (same ▸ at_)
      exact ⟨u, call, by rw [State.after_own_of_ne ne]; exact at_⟩
  case arraySize =>
    change 0 < heap'.arraySize
    rw [arraySize]
    exact inv.arraySize
  case threads =>
    intro u
    by_cases same : u = t
    · subst same
      rw [State.after_own_self]
      exact self
    · rw [State.after_own_of_ne same]
      refine (inv.threads u).other dead (fun obj record is => ?_) fun mutex => ?_
      · rw [State.after_shared, synchronisation]
        exact is
      · obtain ⟨mutex, records⟩ := locked u same mutex
        exact ⟨mutex, rfl, allocated, synchronisation, records⟩

/-- A step of the thread that has the lock of the allocator: the others are not where they need it. -/
theorem HeapInv.others (inv : HeapInv s free) {free' : List Nat} (mutex : s.shared.mutex = some t)
    (dead : heap'.dead = s.shared.dead)
    (kept : ∀ obj record, s.shared.synchronisation obj = some record → heap'.synchronisation obj = some record)
    (self : ThreadFits heap' free' t thread') : ∀ u, ThreadFits heap' free' u ((s.after t (heap', thread')).own u) := by
  intro u
  by_cases same : u = t
  · subst same
    rw [State.after_own_self]
    exact self
  · rw [State.after_own_of_ne same]
    refine (inv.threads u).other dead kept fun mutex' => ?_
    rw [mutex] at mutex'
    exact absurd (Option.some.inj mutex').symm same

theorem HeapInv.putFree (inv : HeapInv s free) {record : Nat} {records : Nat → Sync Tid} (mutex : s.shared.mutex = some t)
    (notLinking : ∀ obj call record, (s.own t).operation ≠ some (obj, .allocates call (.link record)))
    (hand : Hand s.shared free record)
    (self : ThreadFits { s.shared.putFree record with record := records } (record :: free) t thread') :
    HeapInv (s.after t ({ s.shared.putFree record with record := records }, thread')) (record :: free) where
  linked := by
    refine inv.linked.cons ?_ fun other member => ?_
    · rw [State.after_shared, Heap.nextFree]
      dsimp only [Heap.putFree]
      rw [Function.update_self]
      cases s.shared.freelist
      all_goals rfl
    · have ne : other ≠ record := fun same => hand.notFree (same ▸ member)
      rw [State.after_shared, Heap.nextFree]
      dsimp only [Heap.putFree]
      rw [Function.update_of_ne ne, Heap.nextFree]
  nodup := nodup_cons.mpr ⟨hand.notFree, inv.nodup⟩
  notWeak other member obj := by
    change Function.update s.shared.data record (s.shared.freelist.map .free) other ≠ _
    by_cases same : other = record
    · rw [same, Function.update_self]
      cases s.shared.freelist
      all_goals simp
    · rw [Function.update_of_ne same]
      exact inv.notWeak other ((mem_cons.mp member).resolve_left same) obj
  bound other member := by
    obtain rfl | member := mem_cons.mp member
    · exact hand.bound
    · exact inv.bound other member
  notInstalled other member := by
    obtain rfl | member := mem_cons.mp member
    · exact hand.unused
    · exact inv.notInstalled other member
  unshared := inv.unshared
  installed obj other live installed := by
    refine ⟨(inv.installed obj other live installed).1, Or.inl ?_⟩
    have ne : other ≠ record := fun same => hand.unused obj live (same ▸ installed)
    change Function.update s.shared.data record (s.shared.freelist.map .free) other = _
    rw [Function.update_of_ne ne]
    exact inv.weak mutex notLinking live installed
  arraySize := inv.arraySize
  threads := inv.others mutex rfl (fun _ _ => id) self

theorem HeapInv.pop (inv : HeapInv s free) {record : Nat} (mutex : s.shared.mutex = some t)
    (notLinking : ∀ obj call record, (s.own t).operation ≠ some (obj, .allocates call (.link record)))
    (first : s.shared.freelist = some record) (self : ∀ rest, Hand s.shared rest record →
      ThreadFits { s.shared with freelist := s.shared.nextFree record } rest t thread') :
    ∃ rest, HeapInv (s.after t ({ s.shared with freelist := s.shared.nextFree record }, thread')) rest := by
  obtain ⟨rest, rfl, linked⟩ := Linked.eq_cons (first ▸ inv.linked)
  obtain ⟨notFree, nodup⟩ := nodup_cons.mp inv.nodup
  have hand : Hand s.shared rest record :=
    ⟨inv.bound record mem_cons_self, notFree, inv.notInstalled record mem_cons_self⟩
  refine ⟨rest, linked, nodup, fun other member => inv.notWeak other (mem_cons_of_mem _ member),
    fun other member => inv.bound other (mem_cons_of_mem _ member),
    fun other member => inv.notInstalled other (mem_cons_of_mem _ member), inv.unshared,
    fun obj other live installed => ⟨(inv.installed obj other live installed).1,
      Or.inl (inv.weak mutex notLinking live installed)⟩,
    inv.arraySize, inv.others mutex rfl (fun _ _ => id) (self rest hand)⟩

theorem HeapInv.addArray (inv : HeapInv s []) (mutex : s.shared.mutex = some t)
    (notLinking : ∀ obj call record, (s.own t).operation ≠ some (obj, .allocates call (.link record)))
    (self : ∀ free, ThreadFits s.shared.addArray free t thread') :
    ∃ free, HeapInv (s.after t (s.shared.addArray, thread')) free := by
  obtain ⟨count, size⟩ : ∃ count, s.shared.arraySize = count + 1 := Nat.exists_eq_add_one.mpr inv.arraySize
  have total : s.shared.addArray.allocated.sum = s.shared.allocated.sum + (count + 1) := by
    simp [Heap.addArray, size]
  have data : ∀ record, s.shared.addArray.data record =
      if s.shared.allocated.sum ≤ record ∧ record < s.shared.allocated.sum + count then some (.free (record + 1))
      else if record = s.shared.allocated.sum + count then none
      else s.shared.data record := by
    intro record
    simp [Heap.addArray, size, ← Nat.add_assoc]
  have range : ∀ record, record ∈ List.range' s.shared.allocated.sum (count + 1) →
      s.shared.allocated.sum ≤ record ∧ record < s.shared.allocated.sum + (count + 1) := fun record member => by
    simpa using member
  refine ⟨List.range' s.shared.allocated.sum (count + 1), ?_, nodup_range', fun record member obj => ?_,
    fun record member => ?_, fun record member obj live installed => ?_, inv.unshared,
    fun obj record live installed => ?_, ?_, inv.others mutex rfl (fun _ _ => id) (self _)⟩
  · refine Linked.range _ _ (fun record low high => ?_) ?_
    · rw [State.after_shared, Heap.nextFree, data, if_pos ⟨low, high⟩]
    · rw [State.after_shared, Heap.nextFree, data, if_neg (by omega), if_pos rfl]
  · obtain ⟨low, high⟩ := range record member
    rw [State.after_shared, data]
    split_ifs
    · exact nofun
    · exact nofun
    · omega
  · rw [State.after_shared, total]
    exact (range record member).2
  · obtain ⟨low, -⟩ := range record member
    have bound := (inv.installed obj record live installed).1
    omega
  · have bound := (inv.installed obj record live installed).1
    refine ⟨?_, Or.inl ?_⟩
    · rw [State.after_shared, total]
      omega
    · rw [State.after_shared, data, if_neg (by omega), if_neg (by omega)]
      exact inv.weak mutex notLinking live installed
  · change 0 < s.shared.arraySize * 2
    have := inv.arraySize
    omega

theorem HeapInv.link (inv : HeapInv s free) {obj : Obj} {record : Nat} {call : EnterCall}
    (at_ : (s.own t).operation = some (obj, .allocates call (.link record)))
    (self : ThreadFits { s.shared with data := Function.update s.shared.data record (some (.weakLink obj)) } free t
      thread') :
    HeapInv (s.after t ({ s.shared with
      data := Function.update s.shared.data record (some (.weakLink obj)) }, thread')) free := by
  obtain ⟨live, -, mutex, installed⟩ := inv.threads t obj _ at_
  have mutex : s.shared.mutex = some t := mutex (by simp)
  have installed : s.shared.synchronisation obj = some record := installed
  have apart : ∀ other ∈ free, other ≠ record := fun other member same =>
    inv.notInstalled other member obj live (same ▸ installed)
  refine ⟨inv.linked.congr fun other member => ?_, inv.nodup, fun other member obj' => ?_, inv.bound, inv.notInstalled,
    inv.unshared, fun other record' live' installed' => ?_, inv.arraySize, inv.others mutex rfl (fun _ _ => id) self⟩
  · rw [State.after_shared, Heap.nextFree]
    dsimp only
    rw [Function.update_of_ne (apart other member), Heap.nextFree]
  · change Function.update s.shared.data record (some (.weakLink obj)) other ≠ _
    rw [Function.update_of_ne (apart other member)]
    exact inv.notWeak other member obj'
  · obtain ⟨bound, linked⟩ := inv.installed other record' live' installed'
    refine ⟨bound, Or.inl ?_⟩
    change Function.update s.shared.data record (some (.weakLink obj)) record' = _
    by_cases same : record' = record
    · rw [same, Function.update_self, inv.unshared other obj record live' live (same ▸ installed') installed]
    · rw [Function.update_of_ne same]
      obtain weak | ⟨u, call', at'⟩ := linked
      · exact weak
      · obtain rfl := inv.linking_eq mutex at'
        rw [at_] at at'
        cases at'
        exact absurd rfl same

section Objects

variable [DecidableEq Obj]

theorem HeapInv.install (inv : HeapInv s free) {obj : Obj} {record : Nat} {call : EnterCall}
    (mutex : s.shared.mutex = some t)
    (notLinking : ∀ obj call record, (s.own t).operation ≠ some (obj, .allocates call (.link record)))
    (hand : Hand s.shared free record) (none_ : s.shared.synchronisation obj = none)
    (links : thread'.operation = some (obj, .allocates call (.link record)))
    (self : ThreadFits { s.shared with
      synchronisation := Function.update s.shared.synchronisation obj (some record) } free t thread') :
    HeapInv (s.after t ({ s.shared with
      synchronisation := Function.update s.shared.synchronisation obj (some record) }, thread')) free := by
  have installs : ∀ other record', Function.update s.shared.synchronisation obj (some record) other = some record' →
      other = obj ∧ record' = record ∨ other ≠ obj ∧ s.shared.synchronisation other = some record' := by
    intro other record' is
    by_cases same : other = obj
    · rw [same, Function.update_self] at is
      exact Or.inl ⟨same, (Option.some.inj is).symm⟩
    · rw [Function.update_of_ne same] at is
      exact Or.inr ⟨same, is⟩
  refine ⟨inv.linked, inv.nodup, inv.notWeak, inv.bound, fun other member obj' live installed => ?_,
    fun one two record' liveOne liveTwo installedOne installedTwo => ?_, fun other record' live installed => ?_,
    inv.arraySize, inv.others mutex rfl (fun other record' is => ?_) self⟩
  · obtain ⟨-, rfl⟩ | ⟨-, before⟩ := installs obj' other installed
    · exact hand.notFree member
    · exact inv.notInstalled other member obj' live before
  · obtain ⟨rfl, rfl⟩ | ⟨-, one_⟩ := installs one record' installedOne
    · obtain ⟨rfl, -⟩ | ⟨-, two_⟩ := installs two record' installedTwo
      · rfl
      · exact absurd two_ (hand.unused two liveTwo)
    · obtain ⟨rfl, rfl⟩ | ⟨-, two_⟩ := installs two record' installedTwo
      · exact absurd one_ (hand.unused one liveOne)
      · exact inv.unshared one two record' liveOne liveTwo one_ two_
  · obtain ⟨rfl, rfl⟩ | ⟨-, before⟩ := installs other record' installed
    · exact ⟨hand.bound, Or.inr ⟨t, call, by rw [State.after_own_self]; exact links⟩⟩
    · exact ⟨(inv.installed other record' live before).1, Or.inl (inv.weak mutex notLinking live before)⟩
  · have ne : other ≠ obj := fun same => by
      rw [same, none_] at is
      cases is
    exact (Function.update_of_ne ne ..).trans is

theorem stepAlloc_inv {levels : Obj → Nat} {obj : Obj} {call : EnterCall} {pc : AllocPc}
    (run : stepAlloc t s.shared levels obj call pc = some (heap', thread'))
    (at_ : s.own t = ⟨some (obj, .allocates call pc), levels⟩) (inv : HeapInv s free) :
    ∃ free', HeapInv (s.after t (heap', thread')) free' := by
  have operation : (s.own t).operation = some (obj, .allocates call pc) := congrArg ObjectThread.operation at_
  obtain ⟨live, wait, mutex, fits⟩ := inv.threads t obj _ operation
  have goesTo : ∀ {heap : Heap Tid Obj} {free : List Nat} {pc : AllocPc} {levels : Obj → Nat}, heap.dead obj = false →
      heap.mutex = some t → pc.fits heap free t obj → ThreadFits heap free t ⟨some (obj, .allocates call pc), levels⟩ := by
    intro heap free pc levels live mutex fits obj' place is
    obtain ⟨rfl, rfl⟩ := Prod.mk.inj (Option.some.inj is)
    exact ⟨live, wait, fun _ => mutex, fits⟩
  have notLinking : (∀ record, pc ≠ .link record) →
      ∀ obj call record, (s.own t).operation ≠ some (obj, .allocates call (.link record)) := by
    intro notLink obj' call' record is
    rw [operation] at is
    cases is
    exact notLink record rfl
  have noOther : pc ≠ .lock → ∀ u, u ≠ t → s.shared.mutex = some u → False := fun locked u ne mutex' =>
    ne (Option.some.inj (mutex'.symm.trans (mutex locked)))
  cases pc with
  | lock =>
    simp only [stepAlloc] at run
    split_ifs at run with none_
    obtain ⟨rfl, rfl⟩ := run
    refine ⟨free, inv.after ⟨rfl, rfl⟩ ⟨rfl, rfl⟩ ⟨rfl, rfl⟩ (notLinking (by simp)) (goesTo live rfl trivial) fun u ne mutex' => ?_⟩
    rw [none_] at mutex'
    cases mutex'
  | readFreelist =>
    have mutex := mutex (by simp)
    simp only [stepAlloc] at run
    split_ifs at run with none_
    · obtain ⟨rfl, rfl⟩ := run
      have empty : free = [] := (none_ ▸ inv.linked).eq_nil
      subst empty
      exact ⟨[], inv.after ⟨rfl, rfl⟩ ⟨rfl, rfl⟩ ⟨rfl, rfl⟩ (notLinking (by simp)) (goesTo live mutex ⟨(by simp), fun _ => rfl⟩)
        fun u ne mutex' => (noOther (by simp) u ne mutex').elim⟩
    · obtain ⟨rfl, rfl⟩ := run
      exact ⟨free, inv.after ⟨rfl, rfl⟩ ⟨rfl, rfl⟩ ⟨rfl, rfl⟩ (notLinking (by simp)) (goesTo live mutex trivial)
        fun u ne mutex' => (noOther (by simp) u ne mutex').elim⟩
  | scan array index found =>
    have mutex := mutex (by simp)
    obtain ⟨below, empty⟩ := fits
    have stays : ∀ {pc : AllocPc}, pc.fits s.shared free t obj →
        ∃ free', HeapInv (s.after t (s.shared, ⟨some (obj, .allocates call pc), levels⟩)) free' := fun fits =>
      ⟨free, inv.after ⟨rfl, rfl⟩ ⟨rfl, rfl⟩ ⟨rfl, rfl⟩ (notLinking (by simp)) (goesTo live mutex fits)
        fun u ne mutex' => (noOther (by simp) u ne mutex').elim⟩
    have next : s.shared.recordAt array (index + 1) = s.shared.recordAt array index + 1 := rfl
    simp only [stepAlloc] at run
    split at run
    next =>
      split_ifs at run with none_
      · obtain ⟨rfl, rfl⟩ := run
        exact stays (none_ ▸ inv.linked).eq_nil
      · obtain ⟨rfl, rfl⟩ := run
        exact stays trivial
    next size is =>
      split_ifs at run with within unlinked found_
      · obtain ⟨rfl, rfl⟩ := run
        -- Without a link the record is not one of an object that lives, and those on the free list are before it.
        have hand : Hand s.shared free (s.shared.recordAt array index) := by
          refine ⟨Heap.recordAt_lt is within, fun member => Nat.lt_irrefl _ (below _ member), fun obj' live' installed => ?_⟩
          rw [inv.weak mutex (notLinking (by simp)) live' installed] at unlinked
          cases unlinked
        refine ⟨_, inv.putFree mutex (notLinking (by simp)) hand (goesTo live mutex ⟨fun record member => ?_, (by simp)⟩)⟩
        obtain rfl | member := mem_cons.mp member
        · exact Nat.lt_succ_self _
        · exact Nat.lt_succ_of_lt (below record member)
      · obtain ⟨rfl, rfl⟩ := run
        exact stays ⟨fun record member => next ▸ Nat.lt_succ_of_lt (below record member), empty⟩
      · obtain ⟨rfl, rfl⟩ := run
        exact stays trivial
      · obtain ⟨rfl, rfl⟩ := run
        have none_ := empty (Bool.eq_false_iff.mpr found_)
        exact stays ⟨by rw [none_]; simp, fun _ => none_⟩
  | allocate =>
    obtain ⟨rfl, rfl⟩ := run
    obtain rfl : free = [] := fits
    exact inv.addArray (mutex (by simp)) (notLinking (by simp)) fun free => goesTo live (mutex (by simp)) trivial
  | pop =>
    simp only [stepAlloc] at run
    split at run
    next => cases run
    next record first =>
      obtain ⟨rfl, rfl⟩ := run
      exact inv.pop (mutex (by simp)) (notLinking (by simp)) first fun rest hand =>
        goesTo live (mutex (by simp)) ⟨hand.bound, hand.notFree, hand.unused⟩
  | writeOwner record =>
    obtain ⟨rfl, rfl⟩ := run
    have hand : Hand s.shared free record := fits
    have new : Function.update s.shared.record record { s.shared.record record with owner := some t } record =
      { s.shared.record record with owner := some t } := Function.update_self ..
    refine ⟨free, inv.after ⟨rfl, rfl⟩ ⟨rfl, rfl⟩ ⟨rfl, rfl⟩ (notLinking (by simp))
      (goesTo live (mutex (by simp)) ⟨⟨hand.bound, hand.notFree, hand.unused⟩, ?_⟩)
      fun u ne mutex' => (noOther (by simp) u ne mutex').elim⟩
    exact congrArg Sync.owner new
  | writeNest record =>
    obtain ⟨rfl, rfl⟩ := run
    obtain ⟨hand, owner⟩ := fits
    have new : Function.update s.shared.record record { s.shared.record record with nest := 1 } record =
      { s.shared.record record with nest := 1 } := Function.update_self ..
    refine ⟨free, inv.after ⟨rfl, rfl⟩ ⟨rfl, rfl⟩ ⟨rfl, rfl⟩ (notLinking (by simp))
      (goesTo live (mutex (by simp)) ⟨⟨hand.bound, hand.notFree, hand.unused⟩, ?_, ?_⟩)
      fun u ne mutex' => (noOther (by simp) u ne mutex').elim⟩
    · exact (congrArg Sync.owner new).trans owner
    · exact congrArg Sync.nest new
  | install record =>
    obtain ⟨hand, owner, nest⟩ := fits
    simp only [stepAlloc] at run
    split_ifs at run with none_
    · obtain ⟨rfl, rfl⟩ := run
      exact ⟨free, inv.install (mutex (by simp)) (notLinking (by simp)) hand none_ rfl
        (goesTo live (mutex (by simp)) (Function.update_self ..))⟩
    · obtain ⟨rfl, rfl⟩ := run
      exact ⟨free, inv.after ⟨rfl, rfl⟩ ⟨rfl, rfl⟩ ⟨rfl, rfl⟩ (notLinking (by simp)) (goesTo live (mutex (by simp)) hand)
        fun u ne mutex' => (noOther (by simp) u ne mutex').elim⟩
  | link record =>
    obtain ⟨rfl, rfl⟩ := run
    exact ⟨free, inv.link operation (goesTo live (mutex (by simp)) trivial)⟩
  | unlock =>
    obtain ⟨rfl, rfl⟩ := run
    refine ⟨free, inv.after ⟨rfl, rfl⟩ ⟨rfl, rfl⟩ ⟨rfl, rfl⟩ (notLinking (by simp)) ?_
      fun u ne mutex' => (noOther (by simp) u ne mutex').elim⟩
    rw [if_pos wait]
    rintro _ _ ⟨⟩
  | finalize record =>
    have hand : Hand s.shared free record := fits
    simp only [stepAlloc] at run
    split_ifs at run
    obtain ⟨rfl, rfl⟩ := run
    exact ⟨free, inv.after ⟨rfl, rfl⟩ ⟨rfl, rfl⟩ ⟨rfl, rfl⟩ (notLinking (by simp))
      (goesTo live (mutex (by simp)) ⟨hand.bound, hand.notFree, hand.unused⟩)
      fun u ne mutex' => (noOther (by simp) u ne mutex').elim⟩
  | push record =>
    obtain ⟨rfl, rfl⟩ := run
    exact ⟨_, inv.putFree (mutex (by simp)) (notLinking (by simp)) fits (goesTo live (mutex (by simp)) trivial)⟩
  | unlockFinalized =>
    obtain ⟨rfl, rfl⟩ := run
    refine ⟨free, inv.after ⟨rfl, rfl⟩ ⟨rfl, rfl⟩ ⟨rfl, rfl⟩ (notLinking (by simp)) (fun obj' place is => ?_)
      fun u ne mutex' => (noOther (by simp) u ne mutex').elim⟩
    obtain ⟨rfl, rfl⟩ := Prod.mk.inj (Option.some.inj is)
    exact ⟨live, fun _ => by rw [Pc.first, wait]; rfl⟩

theorem heapInv_step {choice : ObjectChoice Obj} {next : Heap Tid Obj × ObjectThread Obj} (inv : HeapInv s free)
    (run : objectStep t choice s.shared (s.own t) = some next) : ∃ free', HeapInv (s.after t next) free' := by
  have threads := inv.threads t
  obtain ⟨operation, levels, own⟩ : ∃ operation levels, s.own t = ⟨operation, levels⟩ := ⟨_, _, rfl⟩
  have at_ : (s.own t).operation = operation := congrArg ObjectThread.operation own
  have stays : ∀ {operation' : Option (Obj × Place)} {levels' : Obj → Nat},
      (∀ obj call record, operation ≠ some (obj, .allocates call (.link record))) →
      (∀ obj place, operation' = some (obj, place) → s.shared.dead obj = false ∧ place.fits s.shared free t obj) →
      ∃ free', HeapInv (s.after t (s.shared, ⟨operation', levels'⟩)) free' := fun notLinking fits =>
    ⟨free, inv.after ⟨rfl, rfl⟩ ⟨rfl, rfl⟩ ⟨rfl, rfl⟩ (at_ ▸ notLinking) fits fun _ _ mutex => ⟨mutex, fun _ _ => rfl⟩⟩
  rw [own] at run
  cases operation with
  | none =>
    cases choice with
    | call obj operation =>
      simp only [objectStep] at run
      split_ifs at run with dead
      obtain rfl := Option.some.inj run
      refine stays nofun fun obj' place is => ?_
      obtain ⟨rfl, rfl⟩ := Prod.mk.inj (Option.some.inj is)
      exact ⟨Bool.eq_false_iff.mpr dead, fun _ => operation.start_first⟩
    | choose choice => cases run
  | some operation =>
    obtain ⟨obj, place⟩ := operation
    obtain ⟨live, fits⟩ := threads obj place at_
    cases choice with
    | call obj' operation => cases place <;> cases run
    | choose choice =>
      cases place with
      | reads pc =>
        cases choice with
        | go =>
          simp only [objectStep] at run
          split at run
          next none_ =>
            obtain rfl := Option.some.inj run
            refine stays nofun fun obj' place is => ?_
            obtain ⟨place', goesOn, same⟩ := Option.map_eq_some_iff.mp is
            obtain ⟨rfl, rfl⟩ := Prod.mk.inj same
            exact ⟨live, withoutRecord_fits (fits none_) goesOn⟩
          next record installed =>
            obtain rfl := Option.some.inj run
            refine stays nofun fun obj' place is => ?_
            obtain ⟨rfl, rfl⟩ := Prod.mk.inj (Option.some.inj is)
            exact ⟨live, installed⟩
        | call | timeout | interrupt | left => cases run
      | allocates call pc =>
        cases choice with
        | go =>
          obtain ⟨heap', thread'⟩ := next
          exact stepAlloc_inv run own inv
        | call | timeout | interrupt | left => cases run
      | inside record pc =>
        obtain ⟨⟨sync, thread⟩, -, rfl⟩ := Option.map_eq_some_iff.mp run
        refine ⟨free, inv.after ⟨rfl, rfl⟩ ⟨rfl, rfl⟩ ⟨rfl, rfl⟩ (at_ ▸ nofun) (fun obj' place is => ?_)
          fun u ne mutex => ⟨mutex, fun record' hand => ?_⟩⟩
        · obtain ⟨place', goesOn, same⟩ := Option.map_eq_some_iff.mp is
          obtain ⟨rfl, rfl⟩ := Prod.mk.inj same
          refine ⟨live, ?_⟩
          have installed : s.shared.synchronisation obj = some record := fits
          simp only [Place.goOn] at goesOn
          split_ifs at goesOn
          · obtain rfl := Option.some.inj goesOn
            intro none_
            rw [show s.shared.synchronisation obj = none from none_] at installed
            cases installed
          · obtain rfl := Option.some.inj goesOn
            exact installed
        · have ne' : record' ≠ record := fun same => hand.unused obj live (same ▸ fits)
          exact Function.update_of_ne ne' ..

end Objects

end Steps

end MonoRuntime.Monitor
