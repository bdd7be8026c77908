/-
Module: MonoRuntime.Proofs.MonitorObjects
Purpose: The monitors of any number of objects in a run in which no nest count overflows: on each object that lives the
  threads keep what they keep on the monitor of one object. A thread that enters 2^32 times and exits leaves a free monitor
  with nest count 0.
Trusted boundary: none
Main exports: monitorsSafe_of_bounded, overflow_breaks_monitor
-/
import MonoRuntime.Proofs.MonitorHeap
import MonoRuntime.Proofs.MonitorNest

namespace MonoRuntime.Monitor

open Interleaving LinkedList

variable {Tid Obj : Type}

/-! ### The monitor of an object -/

section Monitors

variable [DecidableEq Tid] [DecidableEq Obj] {s : ObjectState Tid Obj} {free : List Nat} {t : Tid} {obj : Obj}
  {heap' : Heap Tid Obj} {thread' : ObjectThread Obj}

/-- What a thread does on an object. -/
def ObjectThread.on (thread : ObjectThread Obj) (obj : Obj) : Thread where
  pc :=
    match thread.operation with
    | none => .idle
    | some (other, place) => if other = obj then place.pc else .idle
  levels := thread.levels obj

/-- The threads on an object that lives: without a record nobody has entered, and with one they keep what they keep on the
monitor of one object. -/
structure ObjectInv (heap : Heap Tid Obj) (own : Tid → ObjectThread Obj) (obj : Obj) : Prop where
  without : heap.synchronisation obj = none → ∀ t, (own t).levels obj = 0
  free : ∀ record, heap.synchronisation obj = some record → (heap.record record).owner = none →
    (heap.record record).nest = 1
  fits : ∀ record, heap.synchronisation obj = some record → ∀ t, Fits (heap.record record) t ((own t).on obj)

/-- A step that leaves the record of an object, and what its thread does there. -/
theorem ObjectInv.after (inv : ObjectInv s.shared s.own obj)
    (synchronisation : heap'.synchronisation obj = s.shared.synchronisation obj)
    (record : ∀ record, s.shared.synchronisation obj = some record → heap'.record record = s.shared.record record)
    (levels : thread'.levels obj = (s.own t).levels obj) (fits : ∀ record, s.shared.synchronisation obj = some record →
      Fits (s.shared.record record) t ((s.own t).on obj) → Fits (s.shared.record record) t (thread'.on obj)) :
    ObjectInv (s.after t (heap', thread')).shared (s.after t (heap', thread')).own obj where
  without none_ u := by
    have none_ : s.shared.synchronisation obj = none := synchronisation ▸ none_
    by_cases same : u = t
    · rw [same, State.after_own_self, levels]
      exact inv.without none_ t
    · rw [State.after_own_of_ne same]
      exact inv.without none_ u
  free record' installed := by
    have installed : s.shared.synchronisation obj = some record' := synchronisation ▸ installed
    rw [State.after_shared, record record' installed]
    exact inv.free record' installed
  fits record' installed u := by
    have installed : s.shared.synchronisation obj = some record' := synchronisation ▸ installed
    rw [State.after_shared, record record' installed]
    by_cases same : u = t
    · rw [same, State.after_own_self]
      exact fits record' installed (inv.fits record' installed t)
    · rw [State.after_own_of_ne same]
      exact inv.fits record' installed u

variable {record : Nat} {levels : Obj → Nat}

theorem ObjectInv.step {choice : Choice} {sync : Sync Tid} {thread : Thread} (inv : ObjectInv s.shared s.own obj)
    (installed : s.shared.synchronisation obj = some record)
    (run : step t choice (s.shared.record record) ((s.own t).on obj) = some (sync, thread))
    (fewEnter : ∀ call nest, ((s.own t).on obj).pc = .enter call (.writeNest nest) → nest + 1 < uint32Size)
    (fewFast : ∀ nest, ((s.own t).on obj).pc = .fast (.enterWriteNest nest) → nest + 1 < uint32Size)
    (synchronisation : heap'.synchronisation obj = some record) (record' : heap'.record record = sync)
    (on : thread'.on obj = thread) :
    ObjectInv (s.after t (heap', thread')).shared (s.after t (heap', thread')).own obj := by
  have fits := inv.fits record installed
  have turn := step_owner run (fits t).holds
  have nest := step_nest run fewEnter fewFast (inv.free record installed) (fits t)
  have only : ∀ other, heap'.synchronisation obj = some other → other = record := fun other is =>
    Option.some.inj (is.symm.trans synchronisation)
  constructor
  case without =>
    intro none_
    rw [State.after_shared, synchronisation] at none_
    cases none_
  case free =>
    intro other is
    obtain rfl := only other is
    rw [State.after_shared, record']
    exact nest.free
  case fits =>
    intro other is u
    obtain rfl := only other is
    rw [State.after_shared, record']
    by_cases same : u = t
    · rw [same, State.after_own_self, on]
      exact nest.fits
    · rw [State.after_own_of_ne same]
      exact nest.other turn same (fits u)

/-- A thread without levels that has called something just now lacks the lock. -/
theorem lacks_of_first {pc : Pc} (first : pc.first = true) : Lacks ⟨pc, 0⟩ := by
  cases pc with
  | idle => exact ⟨rfl, rfl, nofun⟩
  | enter call pc =>
    cases pc
    case readOwner =>
      refine ⟨rfl, rfl, fun frame is => ?_⟩
      have wait : call.wait = none := Option.isNone_iff_eq_none.mp first
      rw [show call.wait = some frame from is] at wait
      cases wait
    all_goals cases first
  | exit inWait pc =>
    cases inWait with
    | none =>
      cases pc
      case readOwner => exact ⟨rfl, rfl, nofun⟩
      all_goals cases first
    | some frame => cases first
  | fast pc =>
    cases pc
    case enterReadOwner | exitReadOwner => exact ⟨rfl, rfl, nofun⟩
    all_goals cases first
  | wait frame pc =>
    cases pc
    case readOwner => exact ⟨rfl, rfl, nofun⟩
    all_goals cases first
  | pulse all pc =>
    cases pc
    case readOwner => exact ⟨rfl, rfl, nofun⟩
    all_goals cases first

theorem ObjectThread.on_some {place : Place} :
    (ObjectThread.mk (some (obj, place)) levels).on obj = ⟨place.pc, levels obj⟩ :=
  congrArg (Thread.mk · _) (if_pos rfl)

theorem ObjectThread.on_self {thread : ObjectThread Obj} {place : Place} (at_ : thread.operation = some (obj, place)) :
    thread.on obj = ⟨place.pc, thread.levels obj⟩ := by
  obtain ⟨operation, levels⟩ := thread
  obtain rfl : operation = some (obj, place) := at_
  exact on_some

theorem ObjectThread.on_other {thread : ObjectThread Obj} {other : Obj}
    (elsewhere : ∀ place, thread.operation ≠ some (other, place)) : thread.on other = ⟨.idle, thread.levels other⟩ := by
  refine congrArg (Thread.mk · _) ?_
  split
  next => rfl
  next at_ =>
    split_ifs with same
    · exact absurd (same ▸ at_) (elsewhere _)
    · rfl

theorem ObjectThread.on_goOn {next : Thread} :
    (ObjectThread.mk ((Place.goOn record next.pc).map (obj, ·)) (Function.update levels obj next.levels)).on obj = next := by
  obtain ⟨pc, more⟩ := next
  simp only [ObjectThread.on, Function.update_self, Thread.mk.injEq, and_true]
  by_cases idle : pc = .idle
  · simp [Place.goOn, idle]
  · by_cases begins : pc.begins = true
    · simp [Place.goOn, idle, begins, Place.pc]
    · simp [Place.goOn, idle, begins, Place.pc]

theorem ObjectInv.install {call : EnterCall} (inv : ObjectInv s.shared s.own obj)
    (threads : ∀ u, ThreadFits s.shared free u (s.own u))
    (at_ : s.own t = ⟨some (obj, .allocates call (.install record)), levels⟩)
    (none_ : s.shared.synchronisation obj = none) :
    ObjectInv { s.shared with synchronisation := Function.update s.shared.synchronisation obj (some record) }
      (s.after t ({ s.shared with synchronisation := Function.update s.shared.synchronisation obj (some record) },
        ⟨some (obj, .allocates call (.link record)), Function.update levels obj (levels obj + 1)⟩)).own obj := by
  obtain ⟨-, wait, -, hand, owner, nest⟩ := threads t obj _ (congrArg ObjectThread.operation at_)
  have zero : levels obj = 0 := by
    have zero := inv.without none_ t
    rw [at_] at zero
    exact zero
  have self : Function.update s.shared.synchronisation obj (some record) obj = some record := Function.update_self ..
  have only : ∀ other, Function.update s.shared.synchronisation obj (some record) obj = some other → other = record :=
    fun other is => Option.some.inj (is.symm.trans self)
  constructor
  case without =>
    intro is
    exact nomatch self.symm.trans is
  case free =>
    intro other is free
    obtain rfl := only other is
    rw [owner] at free
    cases free
  case fits =>
    intro other is u
    obtain rfl := only other is
    by_cases same : u = t
    · subst same
      rw [State.after_own_self, ObjectThread.on_some]
      refine ⟨fun _ => ?_, fun notOwner => absurd owner notOwner⟩
      have one : Function.update levels obj (levels obj + 1) obj = 1 := by rw [Function.update_self, zero]
      simp only [one, nest]
      exact ⟨Nat.le_refl _, Nat.lt_of_sub_eq_succ rfl, wait, rfl⟩
    · rw [State.after_own_of_ne same]
      refine ⟨fun is => absurd (Option.some.inj (is.symm.trans owner)) same, fun _ => ?_⟩
      have zero := inv.without none_ u
      by_cases here : ∃ place, (s.own u).operation = some (obj, place)
      · obtain ⟨place, here⟩ := here
        rw [ObjectThread.on_self here, zero]
        obtain ⟨-, fits⟩ := threads u obj place here
        cases place with
        | reads pc => exact lacks_of_first (fits none_)
        | allocates call' pc =>
          refine lacks_of_first ?_
          change call'.wait.isNone = true
          rw [fits.1]
          rfl
        | inside other' pc => exact nomatch none_.symm.trans fits
      · rw [ObjectThread.on_other fun place at_ => here ⟨place, at_⟩, zero]
        exact ⟨rfl, rfl, nofun⟩

theorem objectInv_step {choice : ObjectChoice Obj} {next : Heap Tid Obj × ObjectThread Obj} (heap : HeapInv s free)
    (objects : ∀ obj, s.shared.dead obj = false → ObjectInv s.shared s.own obj)
    (bounded : Bounded t choice s.shared (s.own t)) (run : objectStep t choice s.shared (s.own t) = some next) :
    next.1.dead = s.shared.dead ∧ (∀ obj, s.shared.dead obj = true → next.2.levels obj = (s.own t).levels obj) ∧
      ∀ obj, s.shared.dead obj = false → ObjectInv (s.after t next).shared (s.after t next).own obj := by
  have threads := heap.threads t
  obtain ⟨operation, levels, own⟩ : ∃ operation levels, s.own t = ⟨operation, levels⟩ := ⟨_, _, rfl⟩
  have at_ : (s.own t).operation = operation := congrArg ObjectThread.operation own
  have levels_ : (s.own t).levels = levels := congrArg ObjectThread.levels own
  rw [own] at run
  cases operation with
  | none =>
    cases choice with
    | choose choice => cases run
    | call obj operation =>
      simp only [objectStep] at run
      split_ifs at run
      obtain rfl := Option.some.inj run
      refine ⟨rfl, fun _ _ => congrFun levels_.symm _, fun other live => ?_⟩
      refine (objects other live).after rfl (fun _ _ => rfl) (congrFun levels_.symm _) fun record installed fits => ?_
      rw [ObjectThread.on_other (by rw [at_]; simp)] at fits
      by_cases same : obj = other
      · subst same
        rw [ObjectThread.on_some]
        have called : step t (.call operation) (s.shared.record record) ⟨.idle, (s.own t).levels obj⟩ =
            some (s.shared.record record, ⟨operation.start, (s.own t).levels obj⟩) := rfl
        exact levels_ ▸ (step_nest called (by simp) (by simp) ((objects obj live).free record installed) fits).fits
      · rw [ObjectThread.on_other fun place is => same (Prod.mk.inj (Option.some.inj is)).1]
        exact levels_ ▸ fits
  | some operation =>
    obtain ⟨obj, place⟩ := operation
    obtain ⟨live, fits⟩ := threads obj place at_
    have self : (s.own t).on obj = ⟨place.pc, levels obj⟩ := by
      rw [ObjectThread.on_self at_, levels_]
    have elsewhere : ∀ other, obj ≠ other → (s.own t).on other = ⟨.idle, levels other⟩ := fun other ne => by
      rw [ObjectThread.on_other fun place is => ne ?_, levels_]
      rw [at_] at is
      exact (Prod.mk.inj (Option.some.inj is)).1
    cases choice with
    | call obj' operation => cases place <;> cases run
    | choose choice =>
      cases place with
      | reads pc =>
        cases choice with
        | call | timeout | interrupt | left => cases run
        | go =>
          simp only [objectStep] at run
          split at run
          next none_ =>
            obtain rfl := Option.some.inj run
            refine ⟨rfl, fun _ _ => congrFun levels_.symm _, fun other live => ?_⟩
            refine (objects other live).after rfl (fun _ _ => rfl) (congrFun levels_.symm _) fun record installed fits => ?_
            have ne : obj ≠ other := fun same => by
              rw [← same, none_] at installed
              cases installed
            rw [elsewhere other ne] at fits
            rw [ObjectThread.on_other fun place is => ?_]
            · exact fits
            · obtain ⟨place', -, same⟩ := Option.map_eq_some_iff.mp is
              exact ne (Prod.mk.inj same).1
          next record installed =>
            obtain rfl := Option.some.inj run
            refine ⟨rfl, fun _ _ => congrFun levels_.symm _, fun other live => ?_⟩
            refine (objects other live).after rfl (fun _ _ => rfl) (congrFun levels_.symm _) fun record' installed' fits => ?_
            by_cases same : obj = other
            · subst same
              rw [self] at fits
              rw [ObjectThread.on_some]
              exact fits
            · rw [elsewhere other same] at fits
              rw [ObjectThread.on_other fun place is => same (Prod.mk.inj (Option.some.inj is)).1]
              exact fits
      | allocates call pc =>
        cases choice with
        | call | timeout | interrupt | left => cases run
        | go =>
          obtain ⟨heap', thread'⟩ := next
          obtain ⟨record, rfl, none_, rfl, rfl⟩ | ⟨dead, synchronisation, kept, stays⟩ := stepAlloc_object run fits.1
          · refine ⟨rfl, fun other dead => ?_, fun other live' => ?_⟩
            · have ne : other ≠ obj := fun same => by
                rw [same, live] at dead
                cases dead
              exact (Function.update_of_ne ne ..).trans (congrFun levels_.symm _)
            · by_cases same : other = obj
              · subst same
                exact (objects other live').install heap.threads own none_
              · refine (objects other live').after (Function.update_of_ne same ..) (fun _ _ => rfl)
                  ((Function.update_of_ne same ..).trans (congrFun levels_.symm _)) fun record' _ fits => ?_
                rw [elsewhere other (Ne.symm same)] at fits
                rw [ObjectThread.on_other fun place is => same (Prod.mk.inj (Option.some.inj is)).1.symm]
                simp only [Function.update_of_ne same]
                exact fits
          · refine ⟨dead, fun other _ => congrFun (kept.trans levels_.symm) _, fun other live' => ?_⟩
            refine (objects other live').after (congrFun synchronisation _)
              (fun record installed => stepAlloc_record run at_ heap live' installed)
              (congrFun (kept.trans levels_.symm) _) fun record _ fits => ?_
            by_cases same : obj = other
            · subst same
              rw [self] at fits
              obtain none_ | ⟨place, here, pc'⟩ := stays
              · rw [ObjectThread.on_other (by rw [none_]; simp), kept]
                exact fits.idle_of_enter
              · rw [ObjectThread.on_self here, pc', kept]
                exact fits
            · rw [elsewhere other same] at fits
              rw [ObjectThread.on_other fun place is => ?_, kept]
              · exact fits
              · obtain none_ | ⟨place', here, -⟩ := stays
                · rw [none_] at is
                  cases is
                · rw [here] at is
                  exact same (Prod.mk.inj (Option.some.inj is)).1
      | inside record pc =>
        obtain ⟨⟨sync, thread⟩, stepped, rfl⟩ := Option.map_eq_some_iff.mp run
        have installed : s.shared.synchronisation obj = some record := fits
        refine ⟨rfl, fun other dead => ?_, fun other live' => ?_⟩
        · have ne : other ≠ obj := fun same => by
            rw [same, live] at dead
            cases dead
          exact (Function.update_of_ne ne ..).trans (congrFun levels_.symm _)
        · by_cases same : other = obj
          · subst same
            refine (objects other live').step installed (self ▸ stepped) (fun call nest is => ?_) (fun nest is => ?_)
              installed (Function.update_self ..) ?_
            · rw [self] at is
              obtain rfl : pc = .enter call (.writeNest nest) := is
              exact bounded.enter other record call nest at_
            · rw [self] at is
              obtain rfl : pc = .fast (.enterWriteNest nest) := is
              exact bounded.fastEnter other record nest at_
            · exact ObjectThread.on_goOn
          · refine (objects other live').after rfl (fun record' installed' => Function.update_of_ne (fun is => ?_) ..)
              ((Function.update_of_ne same ..).trans (congrFun levels_.symm _)) fun record' _ fits => ?_
            · exact same (heap.unshared other obj record live' live (is ▸ installed') installed)
            · rw [elsewhere other (Ne.symm same)] at fits
              rw [ObjectThread.on_other fun place is => ?_]
              · simp only [Function.update_of_ne same]
                exact fits
              · obtain ⟨place', -, here⟩ := Option.map_eq_some_iff.mp is
                exact same (Prod.mk.inj here).1.symm

theorem ObjectInv.owner (inv : ObjectInv s.shared s.own obj) (levels : 0 < (s.own t).levels obj) :
    ∃ record, s.shared.synchronisation obj = some record ∧ (s.shared.record record).owner = some t := by
  cases installed : s.shared.synchronisation obj with
  | none =>
    rw [inv.without installed t] at levels
    cases levels
  | some record =>
    refine ⟨record, rfl, ?_⟩
    by_contra other
    have zero : (s.own t).levels obj = 0 := ((inv.fits record installed t).lacks other).levels
    rw [zero] at levels
    cases levels

end Monitors

/-! ### Runs -/

/-- What holds of every state that is reached. -/
structure MonitorsInv [DecidableEq Obj] (s : ObjectState Tid Obj) : Prop where
  heap : ∃ free, HeapInv s free
  objects : ∀ obj, s.shared.dead obj = false → ObjectInv s.shared s.own obj
  buried : ∀ obj, s.shared.dead obj = true → ∀ t u, 0 < (s.own t).levels obj → 0 < (s.own u).levels obj → t = u

theorem Started.monitorsInv [DecidableEq Obj] {s : ObjectState Tid Obj} (started : Started s) : MonitorsInv s where
  heap := by
    have none_ : ∀ obj record, s.shared.synchronisation obj ≠ some record := fun obj record is =>
      nomatch (started.synchronisation obj).symm.trans is
    refine ⟨[], started.freelist, List.nodup_nil, nofun, nofun, nofun, fun obj obj' record _ _ is => absurd is (none_ _ _),
      fun obj record _ is => absurd is (none_ _ _), by rw [started.arraySize]; decide, fun t obj place is => ?_⟩
    rw [started.operation] at is
    cases is
  objects obj _ :=
    { without := fun _ t => started.levels t obj
      free := fun record is => nomatch (started.synchronisation obj).symm.trans is
      fits := fun record is => nomatch (started.synchronisation obj).symm.trans is }
  buried obj dead := by
    rw [started.dead] at dead
    cases dead

section Runs

variable [DecidableEq Tid] [DecidableEq Obj] {s : ObjectState Tid Obj} {t : Tid} {obj : Obj}

theorem MonitorsInv.exclusive {u : Tid} (inv : MonitorsInv s) (levels : 0 < (s.own t).levels obj)
    (levels' : 0 < (s.own u).levels obj) : t = u := by
  cases dead : s.shared.dead obj with
  | true => exact inv.buried obj dead t u levels levels'
  | false =>
    obtain ⟨record, installed, owner⟩ := (inv.objects obj dead).owner levels
    obtain ⟨record', installed', owner'⟩ := (inv.objects obj dead).owner levels'
    obtain rfl := Option.some.inj (installed.symm.trans installed')
    exact Option.some.inj (owner.symm.trans owner')

theorem monitorsInv_step {choice : ObjectChoice Obj} {next : Heap Tid Obj × ObjectThread Obj} (inv : MonitorsInv s)
    (bounded : Bounded t choice s.shared (s.own t)) (run : objectStep t choice s.shared (s.own t) = some next) :
    MonitorsInv (s.after t next) := by
  obtain ⟨free, heap⟩ := inv.heap
  obtain ⟨dead, levels, objects⟩ := objectInv_step heap inv.objects bounded run
  refine ⟨heapInv_step heap run, fun obj live => objects obj (dead ▸ live), fun obj buried u v levelsU levelsV => ?_⟩
  have buried : s.shared.dead obj = true := dead ▸ buried
  have kept : ∀ w, ((s.after t next).own w).levels obj = (s.own w).levels obj := fun w => by
    by_cases same : w = t
    · rw [same, State.after_own_self]
      exact levels obj buried
    · rw [State.after_own_of_ne same]
  rw [kept] at levelsU levelsV
  exact inv.buried obj buried u v levelsU levelsV

theorem monitorsInv_dies {s' : ObjectState Tid Obj} (inv : MonitorsInv s) (dies : Dies s s') : MonitorsInv s' := by
  obtain ⟨obj, unused⟩ := dies
  obtain ⟨free, heap⟩ := inv.heap
  have lives : ∀ other, (s.shared.die obj).dead other = false → s.shared.dead other = false := by
    intro other live
    by_cases same : other = obj
    · rw [same, show (s.shared.die obj).dead obj = true from Function.update_self ..] at live
      cases live
    · exact (Function.update_of_ne same ..).symm.trans live
  refine ⟨⟨free, heapInv_die heap unused⟩, fun other live => ?_, fun other _ t u levels levels' => inv.exclusive levels levels'⟩
  have before := inv.objects other (lives other live)
  exact ⟨before.without, before.free, before.fits⟩

theorem Pc.owned_nest {pc : Pc} {nest levels : Nat} (outside : pc.exitsOrWaits = false) (owned : pc.owned nest levels) :
    nest = levels := by
  cases pc with
  | idle => exact owned
  | enter call pc =>
    cases pc with
    | assertNest | countedAssertNest | ownedDecrementCount => exact owned.1.trans owned.2.1.symm
    | writeNest => exact owned.2.1
    | readOwner | swapOwner | contendedReadOwner | contendedSwapOwner | readSem | installSem | incrementCount |
        countedSwapOwner | blocked | decrementCount | readNest =>
      exact owned.2
  | exit inWait pc => cases outside
  | fast pc =>
    cases pc with
    | enterReadOwner | enterSwapOwner | enterReadNest => exact owned
    | enterWriteNest => exact owned.1
    | exitReadOwner | exitReadNest | exitWriteNest | exitReadCount | exitClearOwner => cases outside
  | wait frame pc => cases outside
  | pulse all pc => exact owned

theorem MonitorsInv.safe (inv : MonitorsInv s) : MonitorsSafe s := by
  obtain ⟨free, heap⟩ := inv.heap
  have inside : ∀ {t obj record pc}, (s.own t).operation = some (obj, .inside record pc) →
      s.shared.synchronisation obj = some record ∧ Fits (s.shared.record record) t ⟨pc, (s.own t).levels obj⟩ := by
    intro t obj record pc at_
    obtain ⟨live, installed⟩ := heap.threads t obj _ at_
    have fits := (inv.objects obj live).fits record installed t
    rw [ObjectThread.on_self at_] at fits
    exact ⟨installed, fits⟩
  constructor
  case exclusive => exact fun obj t u => inv.exclusive
  case held => exact fun obj t live levels => (inv.objects obj live).owner levels
  case nest =>
    intro obj record t live installed owner outside
    have owns := ((inv.objects obj live).fits record installed t).owns owner
    refine Pc.owned_nest ?_ owns.owned
    by_cases here : ∃ place, (s.own t).operation = some (obj, place)
    · obtain ⟨place, here⟩ := here
      rw [ObjectThread.on_self here]
      exact outside place here
    · rw [ObjectThread.on_other fun place at_ => here ⟨place, at_⟩]
      rfl
  case free => exact fun obj record live installed => (inv.objects obj live).free record installed
  case asserted =>
    rintro t obj record call pc at_ (rfl | rfl)
    · obtain ⟨-, fits⟩ := inside at_
      exact (fits.owns (fits.holds rfl)).owned.1
    · obtain ⟨-, fits⟩ := inside at_
      exact (fits.owns (fits.holds rfl)).owned.1
  case unshared => exact heap.unshared
  case inUse =>
    intro obj record live installed on
    exact heap.notInstalled record (heap.mem_of_onFreelist on) obj live installed
  case regained =>
    intro t obj record frame success at_
    obtain ⟨installed, fits⟩ := inside at_
    have owner := fits.holds rfl
    obtain ⟨nest, called, kept⟩ := (fits.owns owner).owned
    exact ⟨installed, owner, called.symm, kept.symm⟩

/-- In a run in which no nest count overflows the monitors are safe. -/
theorem monitorsSafe_of_bounded (reached : ReachedWith objectStep Bounded Dies Started s) : MonitorsSafe s :=
  (reached.invariant (fun _ => Started.monitorsInv) (fun _ _ _ _ inv bounded run => monitorsInv_step inv bounded run)
    fun _ _ inv dies => monitorsInv_dies inv dies).safe

end Runs

/-! ### A lost race for an object, and an overflow -/

/-- No object has a record. -/
def unused (threads objects : Nat) : ObjectState (Fin threads) (Fin objects) where
  shared :=
    { synchronisation := fun _ => none, dead := fun _ => false, record := fun _ => .zero, data := fun _ => none,
      mutex := none, freelist := none, allocated := [], arraySize := 16 }
  own _ := { operation := none, levels := fun _ => 0 }

theorem unused_started (threads objects : Nat) : Started (unused threads objects) where
  synchronisation _ := rfl
  dead _ := rfl
  mutex := rfl
  freelist := rfl
  allocated := rfl
  arraySize := rfl
  operation _ := rfl
  levels _ _ := rfl

/-- A thread calls something and goes some steps. -/
def callSteps {threads objects : Nat} (t : Fin threads) (obj : Fin objects) (operation : Operation) (steps : Nat) :
    List (Fin threads × ObjectChoice (Fin objects)) :=
  (t, .call obj operation) :: List.replicate steps (t, .choose .go)

/-- The condition of a run without an overflow, computed. -/
def bounded {threads objects : Nat} (_t : Fin threads) (_choice : ObjectChoice (Fin objects))
    (_heap : Heap (Fin threads) (Fin objects)) (thread : ObjectThread (Fin objects)) : Bool :=
  match thread.operation with
  | some (_, .inside _ (.enter _ (.writeNest nest))) => decide (nest + 1 < uint32Size)
  | some (_, .inside _ (.fast (.enterWriteNest nest))) => decide (nest + 1 < uint32Size)
  | _ => true

theorem bounded_sound {threads objects : Nat} {t : Fin threads} {choice : ObjectChoice (Fin objects)}
    {heap : Heap (Fin threads) (Fin objects)} {thread : ObjectThread (Fin objects)}
    (check : bounded t choice heap thread = true) : Bounded t choice heap thread where
  enter obj record call nest at_ := by
    simp only [bounded, at_] at check
    exact of_decide_eq_true check
  fastEnter obj record nest at_ := by
    simp only [bounded, at_] at check
    exact of_decide_eq_true check

/-- Two threads enter an object that has no record. The first puts its record in; the second has made one in vain, which goes
back to the free list, and works on the record of the first. -/
theorem monitorsSafe_of_bounded_race :
    ∃ s, exec objectStep bounded
        (callSteps 1 0 (.enter none false) 1 ++ callSteps 0 0 (.enter none false) 11 ++ List.replicate 10 (1, .choose .go))
        (unused 2 1) = some s ∧
      s.shared.synchronisation 0 = some 0 ∧ s.shared.freelist = some 1 ∧ (s.own 0).levels 0 = 1 ∧
      (s.own 1).operation = some (0, .inside 0 (.enter ⟨none, false, none⟩ .readOwner)) ∧ MonitorsSafe s := by
  have facts : (exec objectStep bounded
      (callSteps 1 0 (.enter none false) 1 ++ callSteps 0 0 (.enter none false) 11 ++ List.replicate 10 (1, .choose .go))
      (unused 2 1)).any (fun s => s.shared.synchronisation 0 = some 0 ∧ s.shared.freelist = some 1 ∧
        (s.own 0).levels 0 = 1 ∧
        (s.own 1).operation = some (0, .inside 0 (.enter ⟨none, false, none⟩ .readOwner))) = true := by
    decide
  obtain ⟨s, run, facts⟩ := (Option.any_eq_true ..).mp facts
  obtain ⟨installed, freelist, levels, operation⟩ := of_decide_eq_true facts
  exact ⟨s, run, installed, freelist, levels, operation, monitorsSafe_of_bounded
    (.of_exec (fun _ _ _ _ => bounded_sound) (.start (unused_started 2 1)) run)⟩

/-- A thread has entered some times and is in no call. -/
structure Entered (n : Nat) (s : ObjectState (Fin 1) (Fin 1)) : Prop where
  reached : ReachedWith objectStep (fun _ _ _ _ => True) Dies Started s
  dead : s.shared.dead 0 = false
  synchronisation : s.shared.synchronisation 0 = some 0
  owner : (s.shared.record 0).owner = some 0
  nest : (s.shared.record 0).nest = n % uint32Size
  entryCount : (s.shared.record 0).entryCount = 0
  own : ∃ levels, s.own 0 = ⟨none, levels⟩

theorem Entered.run {n : Nat} {s s' : ObjectState (Fin 1) (Fin 1)} {operation : Operation} {steps : Nat}
    (entered : Entered n s)
    (run : exec objectStep (fun _ _ _ _ => true) (callSteps 0 0 operation steps) s = some s') :
    ReachedWith objectStep (fun _ _ _ _ => True) Dies Started s' :=
  .of_exec (fun _ _ _ _ _ => trivial) entered.reached run

theorem Entered.again {n : Nat} {s : ObjectState (Fin 1) (Fin 1)} (entered : Entered n s) : ∃ s', Entered (n + 1) s' := by
  obtain ⟨levels, own⟩ := entered.own
  have run : ∃ s', exec objectStep (fun _ _ _ _ => true) (callSteps 0 0 .fastEnter 4) s = some s' ∧ s'.shared.dead 0 = false ∧
      s'.shared.synchronisation 0 = some 0 ∧ (s'.shared.record 0).owner = some 0 ∧
      (s'.shared.record 0).nest = addUint32 (s.shared.record 0).nest 1 ∧ (s'.shared.record 0).entryCount = 0 ∧
      ∃ levels, s'.own 0 = ⟨none, levels⟩ := by
    simp [callSteps, exec, objectStep, own, entered.dead, entered.synchronisation, Operation.start, step, stepFast,
      entered.owner, Place.goOn, Pc.begins, List.replicate, entered.entryCount]
  obtain ⟨s', run, dead, synchronisation, owner, nest, entryCount, own⟩ := run
  refine ⟨s', entered.run run, dead, synchronisation, owner, ?_, entryCount, own⟩
  rw [nest, entered.nest, addUint32, Nat.mod_add_mod]

theorem entered_any (n : Nat) : ∃ s, Entered (n + 1) s := by
  induction n with
  | zero =>
    have facts : (exec objectStep (fun _ _ _ _ => true) (callSteps 0 0 (.enter none false) 11) (unused 1 1)).any (fun s =>
        s.shared.dead 0 = false ∧ s.shared.synchronisation 0 = some 0 ∧ (s.shared.record 0).owner = some 0 ∧
          (s.shared.record 0).nest = 1 ∧ (s.shared.record 0).entryCount = 0 ∧ (s.own 0).operation = none) = true := by
      decide
    obtain ⟨s, run, facts⟩ := (Option.any_eq_true ..).mp facts
    obtain ⟨dead, synchronisation, owner, nest, entryCount, operation⟩ := of_decide_eq_true facts
    exact ⟨s, .of_exec (fun _ _ _ _ _ => trivial) (.start (unused_started 1 1)) run, dead, synchronisation, owner, nest,
      entryCount, (s.own 0).levels, by rw [← operation]⟩
  | succ n ih =>
    obtain ⟨s, entered⟩ := ih
    exact entered.again

/-- A thread enters 2^32 times and exits once by the generated function: nobody owns the monitor, and its nest count is 0, on
which the next enter fails its assertion. -/
theorem overflow_breaks_monitor :
    ∃ s : ObjectState (Fin 1) (Fin 1), ReachedWith objectStep (fun _ _ _ _ => True) Dies Started s ∧
      s.shared.dead 0 = false ∧ s.shared.synchronisation 0 = some 0 ∧ (s.shared.record 0).owner = none ∧
      (s.shared.record 0).nest = 0 ∧ ¬ MonitorsSafe s := by
  obtain ⟨s, entered⟩ := entered_any 4294967295
  obtain ⟨levels, own⟩ := entered.own
  have zero : (s.shared.record 0).nest = 0 := entered.nest
  have run : ∃ s', exec objectStep (fun _ _ _ _ => true) (callSteps 0 0 .fastExit 5) s = some s' ∧ s'.shared.dead 0 = false ∧
      s'.shared.synchronisation 0 = some 0 ∧ (s'.shared.record 0).owner = none ∧ (s'.shared.record 0).nest = 0 := by
    simp [callSteps, exec, objectStep, own, entered.dead, entered.synchronisation, Operation.start, step, stepFast,
      entered.owner, Place.goOn, Pc.begins, List.replicate, zero, entered.entryCount]
  obtain ⟨s', run, dead, synchronisation, owner, nest⟩ := run
  refine ⟨s', entered.run run, dead, synchronisation, owner, nest, fun safe => ?_⟩
  have one := safe.free 0 0 dead synchronisation owner
  rw [nest] at one
  cases one

end MonoRuntime.Monitor
