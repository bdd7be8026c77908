/-
Module: MonoRuntime.Metadata.MonitorObjects
Purpose: The monitors of any number of objects, from `monitor.c`: the pointers of the objects to their sync records, the
  allocator of the records with its free list and its arrays, and the collector, which clears the `data` of the record of
  an object that dies. Inside a record a thread steps as in the monitor of one object.
Trusted boundary: human-reviewed translation of the source without HAVE_MOVING_COLLECTOR; what the functions that a wait
  calls read from the object they hand back to the wait, which has read the same; there is memory for every array
Main exports: Data
-/
import MonoRuntime.Metadata.Monitor
import MonoRuntime.Lib.Interleaving

namespace MonoRuntime.Monitor

open Interleaving

/-! ### Memory -/

/-- What is in the `data` of a record: the next free record, or a weak link to an object. -/
inductive Data (Obj : Type) where
  | free (record : Nat)
  | weakLink (obj : Obj)
deriving DecidableEq

/-- The pointers of the objects to their records, and which objects are dead; the records and their data; who has
`monitor_mutex`; `monitor_freelist`; the sizes of the arrays in `monitor_allocated`, whose records have consecutive numbers;
and `array_size`. -/
structure Heap (Tid Obj : Type) where
  synchronisation : Obj → Option Nat
  dead : Obj → Bool
  record : Nat → Sync Tid
  data : Nat → Option (Data Obj)
  mutex : Option Tid
  freelist : Option Nat
  allocated : List Nat
  arraySize : Nat

/-- A record in new memory. -/
def Sync.zero {Tid : Type} : Sync Tid :=
  { owner := none, nest := 0, entryCount := 0, entrySem := none, waitList := [], signaled := fun _ => false, events := 0 }

/-! ### Where a thread is -/

/-- The places in `mono_monitor_try_enter_internal` where it makes a record, with those in `mon_new` and `mon_finalize`. -/
inductive AllocPc where
  | lock
  | readFreelist
  | scan (array index : Nat) (found : Bool)
  | allocate
  | pop
  | writeOwner (record : Nat)
  | writeNest (record : Nat)
  | install (record : Nat)
  | link (record : Nat)
  | unlock
  | finalize (record : Nat)
  | push (record : Nat)
  | unlockFinalized
deriving DecidableEq

/-- Where a thread is in an operation on an object: it will read the record of the object and go on, it makes a record, or it
works on the record that it has read. -/
inductive Place where
  | reads (pc : Pc)
  | allocates (call : EnterCall) (pc : AllocPc)
  | inside (record : Nat) (pc : Pc)
deriving DecidableEq

/-- A thread: the object it works on and where it is, and its enters minus its exits on every object. -/
structure ObjectThread (Obj : Type) where
  operation : Option (Obj × Place)
  levels : Obj → Nat

/-- What decides about a step besides memory. -/
inductive ObjectChoice (Obj : Type) where
  | call (obj : Obj) (operation : Operation)
  | choose (choice : Choice)

/-! ### The steps -/

/-- A function begins by reading the record of the object. -/
def Pc.begins (pc : Pc) : Bool :=
  match pc with
  | .enter _ .readOwner => true
  | .exit _ .readOwner => true
  | _ => false

/-- Where a thread is on an object behind a step on its record. -/
def Place.goOn (record : Nat) (pc : Pc) : Option Place :=
  if pc = .idle then none
  else if pc.begins then some (.reads pc)
  else some (.inside record pc)

section Steps

variable {Tid Obj : Type} [DecidableEq Tid] [DecidableEq Obj]

/-- The object has no record: an enter makes one, the generated enter calls the C function, and nobody else does anything. -/
def withoutRecord (pc : Pc) : Option Place :=
  match pc with
  | .enter call _ => some (.allocates call .lock)
  | .fast .enterReadOwner => some (.reads (.enter { ms := none, allowInterruption := false, wait := none } .readOwner))
  | .exit wait _ => if exited wait = .idle then none else some (.reads (exited wait))
  | _ => none

/-- The number of a record by its array and its index. -/
def Heap.recordAt (heap : Heap Tid Obj) (array index : Nat) : Nat :=
  (heap.allocated.take array).sum + index

/-- The next free record behind one. -/
def Heap.nextFree (heap : Heap Tid Obj) (record : Nat) : Option Nat :=
  match heap.data record with
  | some (.free next) => some next
  | _ => none

/-- A record goes to the free list. -/
def Heap.putFree (heap : Heap Tid Obj) (record : Nat) : Heap Tid Obj :=
  { heap with
    data := Function.update heap.data record (heap.freelist.map .free)
    freelist := some record }

/-- A new array goes to the arrays and its records to the free list. -/
def Heap.addArray (heap : Heap Tid Obj) : Heap Tid Obj :=
  let first := heap.allocated.sum
  let last := first + heap.arraySize - 1
  { heap with
    record := fun record => if first ≤ record ∧ record ≤ last then .zero else heap.record record
    data := fun record =>
      if first ≤ record ∧ record < last then some (.free (record + 1))
      else if record = last then none
      else heap.data record
    freelist := some first
    allocated := heap.allocated ++ [heap.arraySize]
    arraySize := heap.arraySize * 2 }

/-- A step in the making of a record. -/
def stepAlloc (t : Tid) (heap : Heap Tid Obj) (levels : Obj → Nat) (obj : Obj) (call : EnterCall) (pc : AllocPc) :
    Option (Heap Tid Obj × ObjectThread Obj) :=
  let goTo (heap : Heap Tid Obj) (pc : AllocPc) : Option (Heap Tid Obj × ObjectThread Obj) :=
    some (heap, ⟨some (obj, .allocates call pc), levels⟩)
  match pc with
  | .lock => if heap.mutex = none then goTo { heap with mutex := some t } .readFreelist else none
  | .readFreelist => if heap.freelist = none then goTo heap (.scan 0 0 false) else goTo heap .pop
  | .scan array index found =>
      match heap.allocated[array]? with
      | none => if heap.freelist = none then goTo heap .allocate else goTo heap .pop
      | some size =>
          if index < size then
            let record := heap.recordAt array index
            if heap.data record = none then
              goTo { heap.putFree record with
                record := Function.update heap.record record { heap.record record with waitList := [] } }
                (.scan array (index + 1) true)
            else goTo heap (.scan array (index + 1) found)
          else if found then goTo heap .pop
          else goTo heap (.scan (array + 1) 0 false)
  | .allocate => goTo heap.addArray .pop
  | .pop =>
      match heap.freelist with
      | none => none
      | some record => goTo { heap with freelist := heap.nextFree record } (.writeOwner record)
  | .writeOwner record =>
      goTo { heap with record := Function.update heap.record record { heap.record record with owner := some t } }
        (.writeNest record)
  | .writeNest record =>
      goTo { heap with record := Function.update heap.record record { heap.record record with nest := 1 } }
        (.install record)
  | .install record =>
      if heap.synchronisation obj = none then
        some ({ heap with synchronisation := Function.update heap.synchronisation obj (some record) },
          ⟨some (obj, .allocates call (.link record)), Function.update levels obj (levels obj + 1)⟩)
      else goTo heap (.finalize record)
  | .link record => goTo { heap with data := Function.update heap.data record (some (.weakLink obj)) } .unlock
  | .unlock =>
      some ({ heap with mutex := none }, ⟨if call.wait = none then none else some (obj, .reads call.entered), levels⟩)
  | .finalize record =>
      if (heap.record record).waitList = [] then
        goTo { heap with
          record := Function.update heap.record record { heap.record record with entrySem := none, entryCount := 0 } }
          (.push record)
      else none
  | .push record => goTo (heap.putFree record) .unlockFinalized
  | .unlockFinalized => some ({ heap with mutex := none }, ⟨some (obj, .reads (.enter call .readOwner)), levels⟩)

/-- A step of a thread. A thread that is not in an operation calls one on an object that lives. -/
def objectStep : LocalStep Tid (ObjectChoice Obj) (Heap Tid Obj) (ObjectThread Obj) :=
  fun t choice heap thread =>
    match thread.operation, choice with
    | none, .call obj operation =>
        if heap.dead obj then none
        else some (heap, { thread with operation := some (obj, .reads operation.start) })
    | some (obj, .reads pc), .choose .go =>
        match heap.synchronisation obj with
        | none => some (heap, { thread with operation := (withoutRecord pc).map (obj, ·) })
        | some record => some (heap, { thread with operation := some (obj, .inside record pc) })
    | some (obj, .allocates call pc), .choose .go => stepAlloc t heap thread.levels obj call pc
    | some (obj, .inside record pc), .choose choice =>
        (step t choice (heap.record record) ⟨pc, thread.levels obj⟩).map fun next =>
          ({ heap with record := Function.update heap.record record next.1 },
            { operation := (Place.goOn record next.2.pc).map (obj, ·)
              levels := Function.update thread.levels obj next.2.levels })
    | _, _ => none

/-- Memory with the threads. -/
abbrev ObjectState (Tid Obj : Type) := Interleaving.State Tid (Heap Tid Obj) (ObjectThread Obj)

/-- An object dies: the collector clears the weak links to it. -/
def Heap.die (heap : Heap Tid Obj) (obj : Obj) : Heap Tid Obj :=
  { heap with
    dead := Function.update heap.dead obj true
    data := fun record => if heap.data record = some (.weakLink obj) then none else heap.data record }

/-- The collector lets an object die on which no thread works. -/
inductive Dies : ObjectState Tid Obj → ObjectState Tid Obj → Prop where
  | die {s : ObjectState Tid Obj} (obj : Obj) (unused : ∀ t place, (s.own t).operation ≠ some (obj, place)) :
      Dies s { s with shared := s.shared.die obj }

end Steps

/-! ### Runs -/

/-- No object has a record, and no thread has entered. -/
structure Started {Tid Obj : Type} (s : ObjectState Tid Obj) : Prop where
  synchronisation : ∀ obj, s.shared.synchronisation obj = none
  dead : ∀ obj, s.shared.dead obj = false
  mutex : s.shared.mutex = none
  freelist : s.shared.freelist = none
  allocated : s.shared.allocated = []
  arraySize : s.shared.arraySize = 16
  operation : ∀ t, (s.own t).operation = none
  levels : ∀ t obj, (s.own t).levels obj = 0

/-- A step of a run in which no nest count overflows. -/
structure Bounded {Tid Obj : Type} (_t : Tid) (_choice : ObjectChoice Obj) (_heap : Heap Tid Obj)
    (thread : ObjectThread Obj) : Prop where
  enter : ∀ obj record call nest, thread.operation = some (obj, .inside record (.enter call (.writeNest nest))) →
    nest + 1 < uint32Size
  fastEnter : ∀ obj record nest, thread.operation = some (obj, .inside record (.fast (.enterWriteNest nest))) →
    nest + 1 < uint32Size

/-- The records on the free list. -/
inductive OnFreelist {Tid Obj : Type} (heap : Heap Tid Obj) : Nat → Prop where
  | head {record : Nat} (first : heap.freelist = some record) : OnFreelist heap record
  | next {record next : Nat} (on : OnFreelist heap record) (follows : heap.data record = some (.free next)) :
      OnFreelist heap next

/-- The place in the functions of the monitor of one object. -/
def Place.pc (place : Place) : Pc :=
  match place with
  | .reads pc => pc
  | .allocates call _ => .enter call .readOwner
  | .inside _ pc => pc

/-- A thread is inside an exit or a wait; a wait includes the enter that regains the lock. -/
def Pc.exitsOrWaits (pc : Pc) : Bool :=
  match pc with
  | .enter call _ => call.wait.isSome
  | .exit _ _ => true
  | .fast .exitReadOwner => true
  | .fast .exitReadNest => true
  | .fast (.exitWriteNest _) => true
  | .fast .exitReadCount => true
  | .fast .exitClearOwner => true
  | .wait _ _ => true
  | _ => false

/-- The monitors of the objects are held by one thread each and count its levels, and records are not shared. -/
structure MonitorsSafe {Tid Obj : Type} (s : ObjectState Tid Obj) : Prop where
  /-- At most one thread is between an enter and its exit on an object, -/
  exclusive : ∀ obj t u, 0 < (s.own t).levels obj → 0 < (s.own u).levels obj → t = u
  /-- and it is the owner. -/
  held : ∀ obj t, s.shared.dead obj = false → 0 < (s.own t).levels obj →
    ∃ record, s.shared.synchronisation obj = some record ∧ (s.shared.record record).owner = some t
  /-- The nest count is the enters minus the exits of the owner where it is not inside an exit or a wait. -/
  nest : ∀ obj record t, s.shared.dead obj = false → s.shared.synchronisation obj = some record →
    (s.shared.record record).owner = some t →
    (∀ place, (s.own t).operation = some (obj, place) → place.pc.exitsOrWaits = false) →
    (s.shared.record record).nest = (s.own t).levels obj
  /-- Without an owner it is 1, -/
  free : ∀ obj record, s.shared.dead obj = false → s.shared.synchronisation obj = some record →
    (s.shared.record record).owner = none → (s.shared.record record).nest = 1
  /-- as it is where that is asserted. -/
  asserted : ∀ t obj record call pc, (s.own t).operation = some (obj, .inside record (.enter call pc)) →
    pc = .assertNest ∨ pc = .countedAssertNest → (s.shared.record record).nest = 1
  /-- No record is in two objects that live, -/
  unshared : ∀ obj obj' record, s.shared.dead obj = false → s.shared.dead obj' = false →
    s.shared.synchronisation obj = some record → s.shared.synchronisation obj' = some record → obj = obj'
  /-- or in one and on the free list. -/
  inUse : ∀ obj record, s.shared.dead obj = false → s.shared.synchronisation obj = some record →
    ¬ OnFreelist s.shared record
  /-- A wait returns with the lock, the nest count and the levels it was called with. -/
  regained : ∀ t obj record frame success,
    (s.own t).operation = some (obj, .inside record (.wait frame (.returns success))) →
    s.shared.synchronisation obj = some record ∧ (s.shared.record record).owner = some t ∧
      (s.shared.record record).nest = frame.called ∧ (s.own t).levels obj = frame.levels

end MonoRuntime.Monitor
