/-
Module: MonoRuntime.Metadata.Monitor
Purpose: The monitor of one object, from `monitor.c`, where its sync record is installed: what each thread does to the
  record, one access to memory or one call of the system at a time. It has the C functions to enter, exit, wait and pulse
  and the generated `FastMonitorEnter` and `FastMonitorExit`. Times are left open: a wait with a limit may end at any time.
Trusted boundary: human-reviewed translation of the source; accesses to memory are sequentially consistent; a wait on an
  event or a semaphore succeeds exactly when it takes a signal
Main exports: Sync
-/

namespace MonoRuntime.Monitor

/-! ### Machine integers -/

/-- The number of values of a `guint32`. -/
def uint32Size : Nat := 4294967296

/-- The sum of a `guint32` and a number. -/
def addUint32 (value n : Nat) : Nat :=
  (value + n) % uint32Size

/-- The `guint32` one below. -/
def predUint32 (value : Nat) : Nat :=
  (value + (uint32Size - 1)) % uint32Size

/-- `InterlockedIncrement`. -/
def incrementInt32 (value : Int) : Int :=
  if value = 2147483647 then -2147483648 else value + 1

/-- `InterlockedDecrement`. -/
def decrementInt32 (value : Int) : Int :=
  if value = -2147483648 then 2147483647 else value - 1

/-! ### Shared memory -/

/-- `MonoThreadsSync`, with the permits of its semaphore, and the events of its waits: the ones below `events` were created,
each for one wait. No owner is the thread ID 0. -/
structure Sync (Tid : Type) where
  owner : Option Tid
  nest : Nat
  entryCount : Int
  entrySem : Option Nat
  waitList : List Nat
  signaled : Nat → Bool
  events : Nat

/-- What a wait for a handle says. -/
inductive WaitRet where
  | object0
  | timeout
  | ioCompletion
deriving DecidableEq

/-! ### Where a thread is -/

/-- The variables of `Monitor_wait`, and for what is said about it the nest count and the levels when it was called. -/
structure WaitFrame where
  ms : Option Nat
  event : Nat
  nest : Nat
  ret : WaitRet
  called : Nat
  levels : Nat
deriving DecidableEq

/-- The arguments of `mono_monitor_try_enter_internal`, and the wait that regains the lock by the call. No time is
`INFINITE`. -/
structure EnterCall where
  ms : Option Nat
  allowInterruption : Bool
  wait : Option WaitFrame
deriving DecidableEq

/-- The places in `mono_monitor_try_enter_internal`, where the record is installed. -/
inductive EnterPc where
  | readOwner
  | swapOwner
  | contendedReadOwner
  | contendedSwapOwner
  | readSem
  | installSem
  | incrementCount
  | countedSwapOwner
  | blocked
  | decrementCount (ret : WaitRet)
  | assertNest
  | countedAssertNest
  | ownedDecrementCount
  | readNest
  | writeNest (nest : Nat)
deriving DecidableEq

/-- The places in `mono_monitor_exit`. -/
inductive ExitPc where
  | readOwner
  | readNest
  | writeNest (nest : Nat)
  | clearOwner
  | readCount
  | releaseSem
deriving DecidableEq

/-- The places in `FastMonitorEnter` and `FastMonitorExit`. -/
inductive FastPc where
  | enterReadOwner
  | enterSwapOwner
  | enterReadNest
  | enterWriteNest (nest : Nat)
  | exitReadOwner
  | exitReadNest
  | exitWriteNest (nest : Nat)
  | exitReadCount
  | exitClearOwner
deriving DecidableEq

/-- The places in `Monitor_wait`. -/
inductive WaitPc where
  | readOwner
  | createEvent
  | appendEvent
  | readNest
  | writeNest
  | waitEvent
  | checkInterruption
  | regainInterrupted
  | restoreNest
  | pollEvent
  | removeEvent
  | returns (success : Bool)
deriving DecidableEq

/-- The places in `Monitor_pulse` and `Monitor_pulse_all`. -/
inductive PulsePc where
  | readOwner
  | readList
  | removeEvent (event : Nat)
deriving DecidableEq

/-- Where a thread is. An exit may be the one of a wait. -/
inductive Pc where
  | idle
  | enter (call : EnterCall) (pc : EnterPc)
  | exit (wait : Option WaitFrame) (pc : ExitPc)
  | fast (pc : FastPc)
  | wait (frame : WaitFrame) (pc : WaitPc)
  | pulse (all : Bool) (pc : PulsePc)
deriving DecidableEq

/-- A thread, with its enters minus its exits: a successful enter counts from where it takes the lock or adds to the nest
count, an exit from where it gives the lock up or takes from the count. A wait gives up all levels with the lock, and has
them again where it restores the nest count. -/
structure Thread where
  pc : Pc
  levels : Nat
deriving DecidableEq

/-! ### What is left open -/

/-- What a thread can call. -/
inductive Operation where
  | enter (ms : Option Nat) (allowInterruption : Bool)
  | exit
  | fastEnter
  | fastExit
  | wait (ms : Option Nat)
  | pulse (all : Bool)

/-- What decides about a step besides memory: a call of a thread that is not in one; that a wait runs out or is interrupted;
the time that is left of a limit. -/
inductive Choice where
  | call (operation : Operation)
  | go
  | timeout
  | interrupt
  | left (ms : Nat)

/-! ### The steps -/

variable {Tid : Type} [DecidableEq Tid]

/-- The start of a call. -/
def Operation.start (operation : Operation) : Pc :=
  match operation with
  | .enter ms allowInterruption => .enter { ms := ms, allowInterruption := allowInterruption, wait := none } .readOwner
  | .exit => .exit none .readOwner
  | .fastEnter => .fast .enterReadOwner
  | .fastExit => .fast .exitReadOwner
  | .wait ms => .wait { ms := ms, event := 0, nest := 0, ret := .timeout, called := 0, levels := 0 } .readOwner
  | .pulse all => .pulse all .readOwner

/-- Behind a successful enter. -/
def EnterCall.entered (call : EnterCall) : Pc :=
  match call.wait with
  | none => .idle
  | some frame => .wait frame .restoreNest

/-- Behind an enter that returned 0: a wait raises an exception. -/
def EnterCall.failed (_call : EnterCall) : Pc :=
  .idle

/-- Behind an enter that returned -1. -/
def EnterCall.interrupted (call : EnterCall) : Pc :=
  match call.wait with
  | none => .idle
  | some frame => .wait frame .regainInterrupted

/-- Behind an exit. -/
def exited (wait : Option WaitFrame) : Pc :=
  match wait with
  | none => .idle
  | some frame => .wait frame .waitEvent

/-- The decisions of `mono_monitor_try_enter_internal` behind the wait on the semaphore. -/
def EnterCall.decide_ (call : EnterCall) (ret : WaitRet) (choice : Choice) : Option Pc :=
  let again := ret = .timeout ∨ (ret = .ioCompletion ∧ call.allowInterruption = false)
  match call.ms with
  | some ms =>
      match choice with
      | .left left =>
          if left ≤ ms then
            if (again ∧ 0 < left) ∨ ret = .object0 then some (.enter { call with ms := some left } .contendedReadOwner)
            else if ret = .ioCompletion then some call.interrupted
            else some call.failed
          else none
      | _ => none
  | none =>
      match choice with
      | .go =>
          if again ∨ ret = .object0 then some (.enter call .contendedReadOwner)
          else some call.interrupted
      | .interrupt => if again ∧ ret = .ioCompletion then some call.interrupted else none
      | _ => none

/-- A step in `mono_monitor_try_enter_internal`. -/
def stepEnter (t : Tid) (choice : Choice) (s : Sync Tid) (levels : Nat) (call : EnterCall) (pc : EnterPc) :
    Option (Sync Tid × Thread) :=
  let goTo (s : Sync Tid) (pc : EnterPc) : Option (Sync Tid × Thread) := some (s, ⟨.enter call pc, levels⟩)
  match pc, choice with
  | .readOwner, .go =>
      if s.owner = none then goTo s .swapOwner
      else if s.owner = some t then goTo s .readNest
      else if call.ms = some 0 then some (s, ⟨call.failed, levels⟩)
      else goTo s .contendedReadOwner
  | .swapOwner, .go =>
      if s.owner = none then some ({ s with owner := some t }, ⟨.enter call .assertNest, levels + 1⟩)
      else goTo s .readOwner
  | .contendedReadOwner, .go =>
      if s.owner = none then goTo s .contendedSwapOwner
      else if s.owner = some t then goTo s .readNest
      else goTo s .readSem
  | .contendedSwapOwner, .go =>
      if s.owner = none then some ({ s with owner := some t }, ⟨.enter call .assertNest, levels + 1⟩)
      else goTo s .readSem
  | .readSem, .go => if s.entrySem = none then goTo s .installSem else goTo s .incrementCount
  | .installSem, .go =>
      if s.entrySem = none then goTo { s with entrySem := some 0 } .incrementCount else goTo s .incrementCount
  | .incrementCount, .go => goTo { s with entryCount := incrementInt32 s.entryCount } .countedSwapOwner
  | .countedSwapOwner, .go =>
      if s.owner = none then some ({ s with owner := some t }, ⟨.enter call .countedAssertNest, levels + 1⟩)
      else goTo s .blocked
  | .blocked, .go =>
      match s.entrySem with
      | some (permits + 1) => goTo { s with entrySem := some permits } (.decrementCount .object0)
      | _ => none
  | .blocked, .timeout => goTo s (.decrementCount .timeout)
  | .blocked, .interrupt => goTo s (.decrementCount .ioCompletion)
  | .decrementCount ret, choice =>
      (call.decide_ ret choice).map fun next =>
        ({ s with entryCount := decrementInt32 s.entryCount }, ⟨next, levels⟩)
  | .assertNest, .go => if s.nest = 1 then some (s, ⟨call.entered, levels⟩) else none
  | .countedAssertNest, .go => if s.nest = 1 then goTo s .ownedDecrementCount else none
  | .ownedDecrementCount, .go =>
      some ({ s with entryCount := decrementInt32 s.entryCount }, ⟨call.entered, levels⟩)
  | .readNest, .go => goTo s (.writeNest s.nest)
  | .writeNest nest, .go => some ({ s with nest := addUint32 nest 1 }, ⟨call.entered, levels + 1⟩)
  | _, _ => none

/-- A step in `mono_monitor_exit`. -/
def stepExit (t : Tid) (choice : Choice) (s : Sync Tid) (levels : Nat) (wait : Option WaitFrame) (pc : ExitPc) :
    Option (Sync Tid × Thread) :=
  let goTo (s : Sync Tid) (pc : ExitPc) : Option (Sync Tid × Thread) := some (s, ⟨.exit wait pc, levels⟩)
  match pc, choice with
  | .readOwner, .go => if s.owner = some t then goTo s .readNest else some (s, ⟨exited wait, levels⟩)
  | .readNest, .go => if predUint32 s.nest = 0 then goTo s .clearOwner else goTo s (.writeNest (predUint32 s.nest))
  | .writeNest nest, .go => some ({ s with nest := nest }, ⟨exited wait, levels - 1⟩)
  | .clearOwner, .go => some ({ s with owner := none }, ⟨.exit wait .readCount, if wait = none then levels - 1 else 0⟩)
  | .readCount, .go => if 0 < s.entryCount then goTo s .releaseSem else some (s, ⟨exited wait, levels⟩)
  | .releaseSem, .go => some ({ s with entrySem := s.entrySem.map (· + 1) }, ⟨exited wait, levels⟩)
  | _, _ => none

/-- A step in `FastMonitorEnter` or `FastMonitorExit`. -/
def stepFast (t : Tid) (choice : Choice) (s : Sync Tid) (levels : Nat) (pc : FastPc) : Option (Sync Tid × Thread) :=
  let goTo (pc : FastPc) : Option (Sync Tid × Thread) := some (s, ⟨.fast pc, levels⟩)
  let slowEnter : Pc := .enter { ms := none, allowInterruption := false, wait := none } .readOwner
  match pc, choice with
  | .enterReadOwner, .go =>
      if s.owner = none then goTo .enterSwapOwner
      else if s.owner = some t then goTo .enterReadNest
      else some (s, ⟨slowEnter, levels⟩)
  | .enterSwapOwner, .go =>
      if s.owner = none then some ({ s with owner := some t }, ⟨.idle, levels + 1⟩) else some (s, ⟨slowEnter, levels⟩)
  | .enterReadNest, .go => goTo (.enterWriteNest s.nest)
  | .enterWriteNest nest, .go => some ({ s with nest := addUint32 nest 1 }, ⟨.idle, levels + 1⟩)
  | .exitReadOwner, .go => if s.owner = some t then goTo .exitReadNest else some (s, ⟨.idle, levels⟩)
  | .exitReadNest, .go => if 1 < s.nest then goTo (.exitWriteNest s.nest) else goTo .exitReadCount
  | .exitWriteNest nest, .go => some ({ s with nest := predUint32 nest }, ⟨.idle, levels - 1⟩)
  | .exitReadCount, .go => if s.entryCount = 0 then goTo .exitClearOwner else some (s, ⟨.exit none .readOwner, levels⟩)
  | .exitClearOwner, .go => some ({ s with owner := none }, ⟨.idle, levels - 1⟩)
  | _, _ => none

/-- A step in `Monitor_wait`. -/
def stepWait (t : Tid) (choice : Choice) (s : Sync Tid) (levels : Nat) (frame : WaitFrame) (pc : WaitPc) :
    Option (Sync Tid × Thread) :=
  let goTo (s : Sync Tid) (frame : WaitFrame) (pc : WaitPc) : Option (Sync Tid × Thread) :=
    some (s, ⟨.wait frame pc, levels⟩)
  match pc, choice with
  | .readOwner, .go =>
      if s.owner = some t then goTo s { frame with called := s.nest, levels := levels } .createEvent
      else some (s, ⟨.idle, levels⟩)
  | .createEvent, .go => goTo { s with events := s.events + 1 } { frame with event := s.events } .appendEvent
  | .createEvent, .interrupt => some (s, ⟨.idle, levels⟩)
  | .appendEvent, .go => goTo { s with waitList := s.waitList ++ [frame.event] } frame .readNest
  | .appendEvent, .interrupt => some (s, ⟨.idle, levels⟩)
  | .readNest, .go => goTo s { frame with nest := s.nest } .writeNest
  | .writeNest, .go => some ({ s with nest := 1 }, ⟨.exit (some frame) .readOwner, levels⟩)
  | .waitEvent, .go =>
      if s.signaled frame.event then
        goTo { s with signaled := fun event => if event = frame.event then false else s.signaled event }
          { frame with ret := .object0 } .checkInterruption
      else none
  | .waitEvent, .timeout =>
      if frame.ms = none then none else goTo s { frame with ret := .timeout } .checkInterruption
  | .waitEvent, .interrupt => goTo s { frame with ret := .ioCompletion } .checkInterruption
  | .checkInterruption, .go =>
      some (s, ⟨.enter { ms := none, allowInterruption := true, wait := some frame } .readOwner, levels⟩)
  | .checkInterruption, .interrupt => some (s, ⟨.idle, levels⟩)
  | .regainInterrupted, .go =>
      some (s, ⟨.enter { ms := none, allowInterruption := true, wait := some frame } .readOwner, levels⟩)
  | .regainInterrupted, .interrupt => some (s, ⟨.idle, levels⟩)
  | .restoreNest, .go =>
      let next : WaitPc :=
        match frame.ret with
        | .timeout => .pollEvent
        | .object0 => .returns true
        | .ioCompletion => .removeEvent
      some ({ s with nest := frame.nest }, ⟨.wait frame next, frame.levels⟩)
  | .pollEvent, .go =>
      if s.signaled frame.event then
        goTo { s with signaled := fun event => if event = frame.event then false else s.signaled event }
          { frame with ret := .object0 } (.returns true)
      else goTo s frame .removeEvent
  | .removeEvent, .go => goTo { s with waitList := s.waitList.erase frame.event } frame (.returns false)
  | .returns _, .go => some (s, ⟨.idle, levels⟩)
  | _, _ => none

/-- A step in `Monitor_pulse` or `Monitor_pulse_all`. -/
def stepPulse (t : Tid) (choice : Choice) (s : Sync Tid) (levels : Nat) (all : Bool) (pc : PulsePc) :
    Option (Sync Tid × Thread) :=
  match pc, choice with
  | .readOwner, .go =>
      if s.owner = some t then some (s, ⟨.pulse all .readList, levels⟩) else some (s, ⟨.idle, levels⟩)
  | .readList, .go =>
      match s.waitList with
      | [] => some (s, ⟨.idle, levels⟩)
      | event :: _ =>
          some ({ s with signaled := fun other => if other = event then true else s.signaled other },
            ⟨.pulse all (.removeEvent event), levels⟩)
  | .removeEvent event, .go =>
      some ({ s with waitList := s.waitList.erase event }, ⟨if all then .pulse all .readList else .idle, levels⟩)
  | _, _ => none

/-- A step of a thread. -/
def step (t : Tid) (choice : Choice) (s : Sync Tid) (thread : Thread) : Option (Sync Tid × Thread) :=
  match thread.pc with
  | .idle =>
      match choice with
      | .call operation => some (s, { thread with pc := operation.start })
      | _ => none
  | .enter call pc => stepEnter t choice s thread.levels call pc
  | .exit wait pc => stepExit t choice s thread.levels wait pc
  | .fast pc => stepFast t choice s thread.levels pc
  | .wait frame pc => stepWait t choice s thread.levels frame pc
  | .pulse all pc => stepPulse t choice s thread.levels all pc

end MonoRuntime.Monitor
