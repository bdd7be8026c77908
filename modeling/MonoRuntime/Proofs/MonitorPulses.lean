/-
Module: MonoRuntime.Proofs.MonitorPulses
Purpose: In a run in which no wait ends by an interruption the list of a monitor has the events of those that still wait, a
  pulse wakes one of them and a pulse of all wakes all, and a wait returns true exactly when a pulse dequeued its event. A
  wait that is interrupted leaves its event behind, and a later pulse is spent on it.
Trusted boundary: none
Main exports: pulsesKept_of_uninterrupted, interruptedWait_takes_pulse
-/
import MonoRuntime.Metadata.MonitorPulses
import MonoRuntime.Proofs.MonitorOwner

namespace MonoRuntime.Monitor

open Interleaving List Function

variable {Tid : Type}

/-! ### Stages -/

/-- How far a thread is with a wait or a pulse: its event was created, waits, with the signal or without, and so on. -/
inductive Stage where
  | outside
  | created (event : Nat)
  | waiting (event : Nat) (got : Bool)
  | polls (event : Nat)
  | removes (event : Nat) (timedOut : Bool)
  | returns (event : Nat) (success : Bool)
  | pulseCalled (all : Bool)
  | pulseReads (all : Bool)
  | pulseRemoves (all : Bool) (event : Nat)

/-- The stage in a call that enters. -/
def EnterCall.stage (call : EnterCall) : Stage :=
  match call.wait with
  | none => .outside
  | some frame => .waiting frame.event (decide (frame.ret = .object0))

/-- The stage in a call that exits. -/
def exitStage (wait : Option WaitFrame) : Stage :=
  match wait with
  | none => .outside
  | some frame => .waiting frame.event false

/-- The stage of a place. -/
def Pc.stage (pc : Pc) : Stage :=
  match pc with
  | .idle => .outside
  | .enter call _ => call.stage
  | .exit inWait _ => exitStage inWait
  | .fast _ => .outside
  | .wait _ .readOwner => .outside
  | .wait _ .createEvent => .outside
  | .wait frame .appendEvent => .created frame.event
  | .wait frame .readNest => .waiting frame.event false
  | .wait frame .writeNest => .waiting frame.event false
  | .wait frame .waitEvent => .waiting frame.event false
  | .wait frame .checkInterruption => .waiting frame.event (decide (frame.ret = .object0))
  | .wait frame .regainInterrupted => .waiting frame.event (decide (frame.ret = .object0))
  | .wait frame .restoreNest => .waiting frame.event (decide (frame.ret = .object0))
  | .wait frame .pollEvent => .polls frame.event
  | .wait frame .removeEvent => .removes frame.event (decide (frame.ret = .timeout))
  | .wait frame (.returns success) => .returns frame.event success
  | .pulse all .readOwner => .pulseCalled all
  | .pulse all .readList => .pulseReads all
  | .pulse all (.removeEvent event) => .pulseRemoves all event

/-- The event of a stage. -/
def Stage.event (stage : Stage) : Option Nat :=
  match stage with
  | .created event => some event
  | .waiting event _ => some event
  | .polls event => some event
  | .removes event _ => some event
  | .returns event _ => some event
  | _ => none

/-- The event that still waits. -/
def Stage.waitsFor (stage : Stage) : Option Nat :=
  match stage with
  | .waiting event _ => some event
  | .polls event => some event
  | .removes event _ => some event
  | _ => none

/-- The event that was signaled and not yet dequeued. -/
def Stage.signalling (stage : Stage) : Option Nat :=
  match stage with
  | .pulseRemoves _ event => some event
  | _ => none

/-- A thread waits, or neither waits nor pulses. -/
def Stage.plain (stage : Stage) : Bool :=
  match stage with
  | .outside => true
  | .waiting _ _ => true
  | _ => false

/-- A pulse is at the list. -/
def Stage.pulses (stage : Stage) : Bool :=
  match stage with
  | .pulseReads _ => true
  | .pulseRemoves _ _ => true
  | _ => false

/-- The lock is held. -/
def Stage.locked (stage : Stage) : Bool :=
  match stage with
  | .polls _ => true
  | .removes _ _ => true
  | .returns _ _ => true
  | .pulseReads _ => true
  | .pulseRemoves _ _ => true
  | _ => false

theorem Pc.waitsFor_stage (pc : Pc) : pc.stage.waitsFor = pc.waitsFor := by
  cases pc with
  | idle | fast pc => rfl
  | enter call pc =>
    obtain ⟨ms, allowInterruption, wait⟩ := call
    cases wait
    all_goals rfl
  | exit inWait pc =>
    cases inWait
    all_goals rfl
  | wait frame pc =>
    cases pc
    all_goals rfl
  | pulse all pc =>
    cases pc
    all_goals rfl

theorem Pc.holds_of_locked {pc : Pc} (locked : pc.stage.locked = true) : pc.holds = true := by
  cases pc with
  | idle | fast pc => cases locked
  | enter call pc =>
    obtain ⟨ms, allowInterruption, wait⟩ := call
    cases wait
    all_goals cases locked
  | exit inWait pc =>
    cases inWait
    all_goals cases locked
  | wait frame pc =>
    cases pc
    all_goals first | rfl | cases locked
  | pulse all pc =>
    cases pc
    all_goals first | rfl | cases locked

variable {stage : Stage} {s : Sync Tid} {h : History Tid}

theorem Stage.event_of_waitsFor {event : Nat} (waits : stage.waitsFor = some event) : stage.event = some event := by
  cases stage
  case waiting | polls | removes => exact waits
  all_goals cases waits

/-! ### Turns -/

/-- A call that regains the lock for a wait has no limit, only a wait that timed out polls its event, and none that took the
signal removes it. -/
def Pc.sound (pc : Pc) : Prop :=
  match pc with
  | .enter call _ => call.wait ≠ none → call.ms = none
  | .wait frame .pollEvent => frame.ret = .timeout
  | .wait frame .removeEvent => frame.ret ≠ .object0
  | _ => True

/-- A function that is set at one place. -/
def setSignal (signaled : Nat → Bool) (event : Nat) (value : Bool) : Nat → Bool :=
  fun other => if other = event then value else signaled other

section Turns

variable [DecidableEq Tid] {t : Tid} {choice : Choice} {s s' : Sync Tid} {h : History Tid} {levels : Nat}
  {thread' : Thread}

/-- What the steps of a thread do to the list, the events, the history and its stage. -/
inductive Turn (t : Tid) (s : Sync Tid) (h : History Tid) : Stage → Sync Tid → History Tid → Stage → Prop where
  | quiet {s' : Sync Tid} {stage : Stage} (plain : stage.plain = true) (waitList : s'.waitList = s.waitList)
      (signaled : s'.signaled = s.signaled) (events : s'.events = s.events) :
      Turn t s h stage s' h stage
  | creates : Turn t s h .outside { s with events := s.events + 1 } h (.created s.events)
  | drops {event : Nat} : Turn t s h (.created event) s h .outside
  | appends {event : Nat} (owner : s.owner = some t) :
      Turn t s h (.created event) { s with waitList := s.waitList ++ [event] }
        { h with queued := h.queued ++ [event], waiting := h.waiting ++ [event] } (.waiting event false)
  | takes {event : Nat} (signaled : s.signaled event = true) :
      Turn t s h (.waiting event false) { s with signaled := setSignal s.signaled event false } h (.waiting event true)
  | regains {event nest : Nat} (owner : s.owner = some t) :
      Turn t s h (.waiting event false) { s with nest := nest } h (.polls event)
  | regainsTaken {event nest : Nat} (owner : s.owner = some t) :
      Turn t s h (.waiting event true) { s with nest := nest } h (.returns event true)
  | givesUp {event nest : Nat} (owner : s.owner = some t) :
      Turn t s h (.waiting event false) { s with nest := nest } h (.removes event false)
  | polled {event : Nat} (owner : s.owner = some t) (signaled : s.signaled event = true) :
      Turn t s h (.polls event) { s with signaled := setSignal s.signaled event false } h (.returns event true)
  | unpolled {event : Nat} (owner : s.owner = some t) (quiet : s.signaled event = false) :
      Turn t s h (.polls event) s h (.removes event true)
  | removes {event : Nat} {timedOut : Bool} (owner : s.owner = some t)
      (listed : timedOut = false → event ∈ s.waitList) :
      Turn t s h (.removes event timedOut) { s with waitList := s.waitList.erase event }
        { h with waiting := h.waiting.erase event } (.returns event false)
  | returns {event : Nat} {success : Bool} (owner : s.owner = some t) :
      Turn t s h (.returns event success) s { h with returned := h.returned ++ [(event, success)] } .outside
  | issues (all : Bool) : Turn t s h .outside s (h.issue t all) (.pulseCalled all)
  | refused {all : Bool} : Turn t s h (.pulseCalled all) s h .outside
  | accepted {all : Bool} (owner : s.owner = some t) : Turn t s h (.pulseCalled all) s h (.pulseReads all)
  | signals {all : Bool} {event : Nat} {rest : List Nat} (owner : s.owner = some t) (list : s.waitList = event :: rest) :
      Turn t s h (.pulseReads all) { s with signaled := setSignal s.signaled event true }
        { h with signalling := some event } (.pulseRemoves all event)
  | ends {all : Bool} (owner : s.owner = some t) (list : s.waitList = []) :
      Turn t s h (.pulseReads all) s (h.finish t) .outside
  | dequeues {event : Nat} (owner : s.owner = some t) :
      Turn t s h (.pulseRemoves true event) { s with waitList := s.waitList.erase event } (h.dequeue t event)
        (.pulseReads true)
  | dequeuesOne {event : Nat} (owner : s.owner = some t) :
      Turn t s h (.pulseRemoves false event) { s with waitList := s.waitList.erase event }
        ((h.dequeue t event).finish t) .outside

theorem EnterCall.entered_stage (call : EnterCall) : call.entered.stage = call.stage := by
  unfold EnterCall.entered EnterCall.stage
  cases call.wait
  all_goals rfl

theorem EnterCall.interrupted_stage (call : EnterCall) : call.interrupted.stage = call.stage := by
  unfold EnterCall.interrupted EnterCall.stage
  cases call.wait
  all_goals rfl

theorem EnterCall.limited_stage {call : EnterCall} (unlimited : call.wait ≠ none → call.ms = none)
    (limited : call.ms ≠ none) : call.stage = .outside := by
  unfold EnterCall.stage
  split
  · rfl
  · rename_i frame inWait
    exact absurd (unlimited (by rw [inWait]; exact nofun)) limited

theorem EnterCall.stage_plain (call : EnterCall) : call.stage.plain = true := by
  unfold EnterCall.stage
  split
  all_goals rfl

theorem exitStage_plain (wait : Option WaitFrame) : (exitStage wait).plain = true := by
  cases wait
  all_goals rfl

theorem exited_stage (wait : Option WaitFrame) : (exited wait).stage = exitStage wait := by
  cases wait
  all_goals rfl

theorem stepEnter_quiet {call : EnterCall} {pc : EnterPc}
    (run : stepEnter t choice s levels call pc = some (s', thread')) (unlimited : (Pc.enter call pc).sound) :
    (s'.waitList = s.waitList ∧ s'.signaled = s.signaled ∧ s'.events = s.events) ∧
      thread'.pc.stage = (Pc.enter call pc).stage ∧ thread'.pc.sound := by
  have entered := call.entered_stage
  have enteredUnlimited : call.entered.sound := by
    unfold EnterCall.entered
    split
    all_goals trivial
  have interruptedUnlimited : call.interrupted.sound := by
    unfold EnterCall.interrupted
    split
    all_goals trivial
  cases pc
  case decrementCount ret =>
    simp only [stepEnter, Option.map_eq_some_iff, Prod.mk.injEq] at run
    obtain ⟨next, decided, rfl, rfl⟩ := run
    refine ⟨⟨rfl, rfl, rfl⟩, ?_⟩
    obtain ⟨ms, rfl, unlimited'⟩ | ⟨-, rfl | ⟨rfl, limited⟩⟩ := call.decide_spec decided
    · exact ⟨rfl, fun inWait => unlimited' (unlimited inWait)⟩
    · exact ⟨call.interrupted_stage, interruptedUnlimited⟩
    · exact ⟨(call.limited_stage unlimited limited).symm, trivial⟩
  case readOwner =>
    cases choice with
    | go =>
      simp only [stepEnter] at run
      split_ifs at run with free self zero
      · obtain ⟨rfl, rfl⟩ := run
        exact ⟨⟨rfl, rfl, rfl⟩, rfl, unlimited⟩
      · obtain ⟨rfl, rfl⟩ := run
        exact ⟨⟨rfl, rfl, rfl⟩, rfl, unlimited⟩
      · obtain ⟨rfl, rfl⟩ := run
        exact ⟨⟨rfl, rfl, rfl⟩, (call.limited_stage unlimited (by rw [zero]; exact Option.some_ne_none 0)).symm, trivial⟩
      · obtain ⟨rfl, rfl⟩ := run
        exact ⟨⟨rfl, rfl, rfl⟩, rfl, unlimited⟩
    | call | timeout | interrupt | left => cases run
  case blocked =>
    cases choice with
    | go =>
      simp only [stepEnter] at run
      split at run
      · obtain ⟨rfl, rfl⟩ := run
        exact ⟨⟨rfl, rfl, rfl⟩, rfl, unlimited⟩
      · cases run
    | timeout | interrupt =>
      obtain ⟨rfl, rfl⟩ := run
      exact ⟨⟨rfl, rfl, rfl⟩, rfl, unlimited⟩
    | call | left => cases run
  all_goals
    cases choice
    case go =>
      simp only [stepEnter] at run
      try split_ifs at run
      all_goals
        obtain ⟨rfl, rfl⟩ := run
        first
        | exact ⟨⟨rfl, rfl, rfl⟩, rfl, unlimited⟩
        | exact ⟨⟨rfl, rfl, rfl⟩, entered, enteredUnlimited⟩
    all_goals cases run

theorem stepExit_quiet {wait : Option WaitFrame} {pc : ExitPc}
    (run : stepExit t choice s levels wait pc = some (s', thread')) :
    (s'.waitList = s.waitList ∧ s'.signaled = s.signaled ∧ s'.events = s.events) ∧
      thread'.pc.stage = (Pc.exit wait pc).stage ∧ thread'.pc.sound := by
  have exited := exited_stage wait
  have unlimited : (Monitor.exited wait).sound := by
    unfold Monitor.exited
    split
    all_goals trivial
  cases pc
  all_goals
    cases choice
    case go =>
      simp only [stepExit] at run
      try split_ifs at run
      all_goals
        obtain ⟨rfl, rfl⟩ := run
        first
        | exact ⟨⟨rfl, rfl, rfl⟩, rfl, trivial⟩
        | exact ⟨⟨rfl, rfl, rfl⟩, exited, unlimited⟩
    all_goals cases run

theorem stepFast_quiet {pc : FastPc} (run : stepFast t choice s levels pc = some (s', thread')) :
    (s'.waitList = s.waitList ∧ s'.signaled = s.signaled ∧ s'.events = s.events) ∧
      thread'.pc.stage = .outside ∧ thread'.pc.sound := by
  cases pc
  all_goals
    cases choice
    case go =>
      simp only [stepFast] at run
      try split_ifs at run
      all_goals
        obtain ⟨rfl, rfl⟩ := run
        first
        | exact ⟨⟨rfl, rfl, rfl⟩, rfl, trivial⟩
        | exact ⟨⟨rfl, rfl, rfl⟩, rfl, fun _ => rfl⟩
    all_goals cases run

theorem stepWait_turn {frame : WaitFrame} {pc : WaitPc} (run : stepWait t choice s levels frame pc = some (s', thread'))
    (uninterrupted : Uninterrupted t choice (s, h) ⟨.wait frame pc, levels⟩) (sound : (Pc.wait frame pc).sound)
    (owner : (Pc.wait frame pc).holds = true → s.owner = some t) :
    Turn t s h (Pc.wait frame pc).stage s' (h.record t choice s (.wait frame pc)) thread'.pc.stage ∧ thread'.pc.sound := by
  cases choice
  case go =>
    cases pc with
    | readOwner =>
      simp only [stepWait] at run
      split_ifs at run
      all_goals
        obtain ⟨rfl, rfl⟩ := run
        exact ⟨.quiet rfl rfl rfl rfl, trivial⟩
    | createEvent =>
      obtain ⟨rfl, rfl⟩ := run
      exact ⟨.creates, trivial⟩
    | appendEvent =>
      obtain ⟨rfl, rfl⟩ := run
      exact ⟨.appends (owner rfl), trivial⟩
    | readNest | writeNest =>
      obtain ⟨rfl, rfl⟩ := run
      exact ⟨.quiet rfl rfl rfl rfl, trivial⟩
    | waitEvent =>
      simp only [stepWait] at run
      split_ifs at run with signaled
      obtain ⟨rfl, rfl⟩ := run
      exact ⟨.takes signaled, trivial⟩
    | checkInterruption | regainInterrupted =>
      obtain ⟨rfl, rfl⟩ := run
      exact ⟨.quiet rfl rfl rfl rfl, fun _ => rfl⟩
    | restoreNest =>
      obtain ⟨rfl, rfl⟩ := run
      obtain ⟨ms, event, nest, ret, called, levels'⟩ := frame
      cases ret with
      | object0 => exact ⟨.regainsTaken (owner rfl), trivial⟩
      | timeout => exact ⟨.regains (owner rfl), rfl⟩
      | ioCompletion => exact ⟨.givesUp (owner rfl), (by rintro ⟨⟩)⟩
    | pollEvent =>
      simp only [stepWait] at run
      split_ifs at run with signaled
      · obtain ⟨rfl, rfl⟩ := run
        exact ⟨.polled (owner rfl) signaled, trivial⟩
      · obtain ⟨rfl, rfl⟩ := run
        have timedOut : (Pc.wait frame .removeEvent).stage = .removes frame.event true :=
          congrArg (Stage.removes frame.event) (decide_eq_true sound)
        refine ⟨timedOut ▸ .unpolled (owner rfl) (Bool.eq_false_iff.mpr signaled), fun taken => ?_⟩
        rw [show frame.ret = .timeout from sound] at taken
        cases taken
    | removeEvent =>
      obtain ⟨rfl, rfl⟩ := run
      refine ⟨.removes (owner rfl) fun notTimedOut => uninterrupted.givesUp frame rfl ?_, trivial⟩
      cases ret : frame.ret with
      | object0 => exact absurd ret sound
      | timeout => exact absurd ret (of_decide_eq_false notTimedOut)
      | ioCompletion => rfl
    | returns success =>
      obtain ⟨rfl, rfl⟩ := run
      exact ⟨.returns (owner rfl), trivial⟩
  case timeout =>
    cases pc
    case waitEvent =>
      simp only [stepWait] at run
      split_ifs at run
      obtain ⟨rfl, rfl⟩ := run
      exact ⟨.quiet rfl rfl rfl rfl, trivial⟩
    all_goals cases run
  case interrupt =>
    cases pc
    case createEvent =>
      obtain ⟨rfl, rfl⟩ := run
      exact ⟨.quiet rfl rfl rfl rfl, trivial⟩
    case appendEvent =>
      obtain ⟨rfl, rfl⟩ := run
      exact ⟨.drops, trivial⟩
    case waitEvent =>
      obtain ⟨rfl, rfl⟩ := run
      exact ⟨.quiet rfl rfl rfl rfl, trivial⟩
    case checkInterruption => exact absurd rfl (uninterrupted.check frame rfl)
    case regainInterrupted => exact absurd rfl (uninterrupted.regain frame rfl)
    all_goals cases run
  all_goals
    cases pc
    all_goals cases run

theorem stepPulse_turn {all : Bool} {pc : PulsePc} (run : stepPulse t choice s levels all pc = some (s', thread'))
    (owner : (Pc.pulse all pc).holds = true → s.owner = some t) :
    Turn t s h (Pc.pulse all pc).stage s' (h.record t choice s (.pulse all pc)) thread'.pc.stage ∧ thread'.pc.sound := by
  cases choice with
  | go =>
    cases pc with
    | readOwner =>
      simp only [stepPulse] at run
      split_ifs at run with self
      · obtain ⟨rfl, rfl⟩ := run
        exact ⟨.accepted self, trivial⟩
      · obtain ⟨rfl, rfl⟩ := run
        exact ⟨.refused, trivial⟩
    | readList =>
      simp only [stepPulse] at run
      split at run
      next list =>
        obtain ⟨rfl, rfl⟩ := run
        refine ⟨?_, trivial⟩
        simp only [History.record, list]
        exact .ends (owner rfl) list
      next event rest list =>
        obtain ⟨rfl, rfl⟩ := run
        refine ⟨?_, trivial⟩
        simp only [History.record, list]
        rw [← list]
        exact .signals (owner rfl) list
    | removeEvent event =>
      obtain ⟨rfl, rfl⟩ := run
      cases all with
      | true => exact ⟨.dequeues (owner rfl), trivial⟩
      | false => exact ⟨.dequeuesOne (owner rfl), trivial⟩
  | call | timeout | interrupt | left => cases pc <;> cases run

theorem step_turn {thread : Thread} (run : step t choice s thread = some (s', thread'))
    (uninterrupted : Uninterrupted t choice (s, h) thread) (sound : thread.pc.sound)
    (owner : thread.pc.holds = true → s.owner = some t) :
    Turn t s h thread.pc.stage s' (h.record t choice s thread.pc) thread'.pc.stage ∧ thread'.pc.sound := by
  obtain ⟨pc, levels⟩ := thread
  cases pc with
  | idle =>
    cases choice with
    | call operation =>
      obtain ⟨rfl, rfl⟩ := run
      cases operation with
      | enter ms allowInterruption => exact ⟨.quiet rfl rfl rfl rfl, fun inWait => absurd rfl inWait⟩
      | exit | fastEnter | fastExit | wait ms => exact ⟨.quiet rfl rfl rfl rfl, trivial⟩
      | pulse all => exact ⟨.issues all, trivial⟩
    | go | timeout | interrupt | left => cases run
  | enter call pc =>
    obtain ⟨⟨waitList, signaled, events⟩, stage, sound⟩ := stepEnter_quiet run sound
    refine ⟨?_, sound⟩
    rw [stage]
    exact .quiet call.stage_plain waitList signaled events
  | exit wait pc =>
    obtain ⟨⟨waitList, signaled, events⟩, stage, sound⟩ := stepExit_quiet run
    refine ⟨?_, sound⟩
    rw [stage]
    exact .quiet (exitStage_plain wait) waitList signaled events
  | fast pc =>
    obtain ⟨⟨waitList, signaled, events⟩, stage, sound⟩ := stepFast_quiet run
    refine ⟨?_, sound⟩
    rw [stage]
    exact .quiet rfl waitList signaled events
  | wait frame pc => exact stepWait_turn run uninterrupted sound owner
  | pulse all pc => exact stepPulse_turn run owner

end Turns

/-! ### The invariant -/

/-- An event was queued and has no answer: it is in the list until a pulse dequeues it, and signaled when a pulse has come to
it, unless its wait took the signal. -/
structure Waits (s : Sync Tid) (h : History Tid) (event : Nat) (got : Bool) : Prop where
  queued : event ∈ h.queued
  listed : event ∈ s.waitList ↔ event ∉ h.dequeued
  signaled : s.signaled event = true ∨ got = true ↔ event ∈ h.dequeued ∨ h.signalling = some event

/-- A pulse of the owner has dequeued some of the events that waited when it was issued; the others are the list. -/
structure Pulses (s : Sync Tid) (call : PulseCall) (all : Bool) : Prop where
  whole : call.all = all
  queued : ∀ event ∈ call.waiting, event ∈ call.queued
  waiting : call.waiting = call.dequeued ++ s.waitList
  one : all = false → call.dequeued = []

/-- What a stage says about the list and the history. -/
def Stage.fits (s : Sync Tid) (h : History Tid) (t : Tid) (stage : Stage) : Prop :=
  match stage with
  | .outside => True
  | .created event => event < s.events ∧ event ∉ h.queued
  | .waiting event got => Waits s h event got
  | .polls event => Waits s h event false
  | .removes event timedOut => Waits s h event false ∧ (timedOut = true → s.signaled event = false)
  | .returns event success => event ∈ h.queued ∧ event ∉ s.waitList ∧ (success = true ↔ event ∈ h.dequeued)
  | .pulseCalled all => s.owner = some t → Pulses s (h.pulse t) all
  | .pulseReads all => Pulses s (h.pulse t) all
  | .pulseRemoves all _ => Pulses s (h.pulse t) all

/-- What holds of each thread. -/
structure Each (s : Sync Tid) (h : History Tid) (t : Tid) (stage : Stage) : Prop where
  fits : stage.fits s h t
  signalling : s.owner = some t → h.signalling = stage.signalling
  dequeued : stage.pulses = false → (h.pulse t).dequeued = []
  unanswered : ∀ event, stage.event = some event → event ∉ h.returned.map Prod.fst

/-- What the pulse that is under way has dequeued. -/
def History.underWay (h : History Tid) (owner : Option Tid) : List Nat :=
  match owner with
  | none => []
  | some t => (h.pulse t).dequeued

/-- What a pulse that is over has done. -/
structure Finished (call : PulseCall) : Prop where
  dequeued : call.dequeued = if call.all then call.waiting else call.waiting.take 1
  queued : ∀ event ∈ call.waiting, event ∈ call.queued

/-- What the list and the history have to do with each other. -/
structure Common (s : Sync Tid) (h : History Tid) : Prop where
  waiting : h.waiting = s.waitList
  nodup : s.waitList.Nodup
  fresh : ∀ event ∈ s.waitList, event ∉ h.dequeued
  once : h.dequeued.Nodup
  listedQueued : ∀ event ∈ s.waitList, event ∈ h.queued
  dequeuedQueued : ∀ event ∈ h.dequeued, event ∈ h.queued
  created : ∀ event ∈ h.queued, event < s.events
  signaled : ∀ event, s.signaled event = true → event ∈ h.queued
  signalling : ∀ event, h.signalling = some event → s.waitList.head? = some event
  free : s.owner = none → h.signalling = none
  dequeued : h.dequeued = h.finished.flatMap PulseCall.dequeued ++ h.underWay s.owner
  finished : ∀ call ∈ h.finished, Finished call
  answeredOnce : (h.returned.map Prod.fst).Nodup
  answered : ∀ event success, (event, success) ∈ h.returned →
    event ∈ h.queued ∧ event ∉ s.waitList ∧
      if success then event ∈ h.finished.flatMap PulseCall.dequeued else event ∉ h.dequeued

theorem Common.list_of_signalling {event : Nat} (common : Common s h) (signalling : h.signalling = some event) :
    s.waitList = event :: s.waitList.erase event := by
  obtain ⟨rest, list⟩ := head?_eq_some_iff.mp (common.signalling event signalling)
  rw [list, erase_cons_head]

/-- While no pulse is under way, an event with a signal, or one whose wait took it, was dequeued. -/
theorem Waits.dequeued_of_signaled {event : Nat} {got : Bool} (waits : Waits s h event got)
    (signalling : h.signalling = none) (signaled : s.signaled event = true ∨ got = true) : event ∈ h.dequeued := by
  obtain dequeued | pulse := waits.signaled.mp signaled
  · exact dequeued
  · rw [signalling] at pulse
    cases pulse

section Kept

variable {t : Tid} {s s' : Sync Tid} {h h' : History Tid} {stage stage' : Stage}

/-- A stage fits where nothing changed about its event, and for a pulse nothing about the list. -/
theorem Stage.fits_of {u : Tid} (fits : stage.fits s h u) (events : s.events ≤ s'.events)
    (same : ∀ event, stage.event = some event →
      (event ∈ h'.queued ↔ event ∈ h.queued) ∧ (event ∈ s'.waitList ↔ event ∈ s.waitList) ∧
        s'.signaled event = s.signaled event ∧ (event ∈ h'.dequeued ↔ event ∈ h.dequeued) ∧
        (h'.signalling = some event ↔ h.signalling = some event)) (pulse : h'.pulse u = h.pulse u)
    (list : stage.pulses = true ∨ s'.owner = some u → s'.waitList = s.waitList ∧ (s'.owner = some u → s.owner = some u)) :
    stage.fits s' h' u := by
  have waits : ∀ event got, stage.event = some event → Waits s h event got → Waits s' h' event got := by
    intro event got at_ waits
    obtain ⟨queued, listed, signaled, dequeued, signalling⟩ := same event at_
    exact ⟨queued.mpr waits.queued, by rw [listed, dequeued, waits.listed],
      by rw [signaled, dequeued, signalling, waits.signaled]⟩
  have pulses : ∀ all, s'.waitList = s.waitList → Pulses s (h.pulse u) all → Pulses s' (h'.pulse u) all := by
    intro all list pulses
    rw [pulse]
    exact ⟨pulses.whole, pulses.queued, by rw [list, pulses.waiting], pulses.one⟩
  cases stage with
  | outside => trivial
  | created event =>
    obtain ⟨queued, -⟩ := same event rfl
    exact ⟨Nat.lt_of_lt_of_le fits.1 events, fun is => fits.2 (queued.mp is)⟩
  | waiting event got => exact waits event got rfl fits
  | polls event => exact waits event false rfl fits
  | removes event timedOut =>
    exact ⟨waits event false rfl fits.1, fun is => by rw [(same event rfl).2.2.1, fits.2 is]⟩
  | returns event success =>
    obtain ⟨queued, listed, -, dequeued, -⟩ := same event rfl
    exact ⟨queued.mpr fits.1, fun is => fits.2.1 (listed.mp is), by rw [fits.2.2, dequeued]⟩
  | pulseCalled all =>
    intro owner
    obtain ⟨waitList, was⟩ := list (Or.inr owner)
    exact pulses all waitList (fits (was owner))
  | pulseReads all | pulseRemoves all event => exact pulses all (list (Or.inl rfl)).1 fits

theorem setSignal_of_ne {signaled : Nat → Bool} {event other : Nat} {value : Bool} (ne : other ≠ event) :
    setSignal signaled event value other = signaled other :=
  if_neg ne

theorem of_setSignal_false {signaled : Nat → Bool} {event other : Nat}
    (is : setSignal signaled event false other = true) : signaled other = true := by
  unfold setSignal at is
  split at is
  · cases is
  · exact is

theorem Stage.waiting_of_listed {u : Tid} {event : Nat} (fits : stage.fits s h u) (common : Common s h)
    (unlocked : stage.locked = false) (at_ : stage.event = some event) (listed : event ∈ s.waitList) :
    ∃ got, stage = .waiting event got := by
  cases stage with
  | outside | pulseCalled all | pulseReads all | pulseRemoves all other => cases at_
  | created other =>
    obtain rfl := Option.some.inj at_
    exact absurd (common.listedQueued _ listed) fits.2
  | waiting other got =>
    obtain rfl := Option.some.inj at_
    exact ⟨got, rfl⟩
  | polls other | removes other timedOut | returns other success => cases unlocked

variable [DecidableEq Tid]

theorem Each.finish {u : Tid} (each : Each s h u stage) (ne : u ≠ t) : Each s (h.finish t) u stage := by
  have pulse : (h.finish t).pulse u = h.pulse u := update_of_ne ne ..
  exact ⟨Stage.fits_of each.fits (Nat.le_refl _) (fun e _ => ⟨Iff.rfl, Iff.rfl, rfl, Iff.rfl, Iff.rfl⟩) pulse
    fun _ => ⟨rfl, id⟩, each.signalling, fun is => pulse ▸ each.dequeued is, each.unanswered⟩

/-- A pulse by another thread takes an event from the list and has it as dequeued. -/
theorem Each.dequeue {u : Tid} {event : Nat} (each : Each s h u stage) (ne : u ≠ t) (common : Common s h)
    (owner : s.owner = some t) (signalling : h.signalling = some event) (unlocked : stage.locked = false) :
    Each { s with waitList := s.waitList.erase event } (h.dequeue t event) u stage := by
  have pulse : (h.dequeue t event).pulse u = h.pulse u := update_of_ne ne ..
  have notOwner : s.owner ≠ some u := fun owner' => by
    rw [owner] at owner'
    exact ne (Option.some.inj owner').symm
  have listed : event ∈ s.waitList := mem_of_head? (common.signalling event signalling)
  refine ⟨?_, fun owner' => absurd owner' notOwner, fun is => pulse ▸ each.dequeued is, each.unanswered⟩
  by_cases here : stage.event = some event
  · obtain ⟨got, rfl⟩ := Stage.waiting_of_listed each.fits common unlocked here listed
    have waits : Waits s h event got := each.fits
    refine ⟨waits.queued, ?_, ?_⟩
    · simp [History.dequeue, common.nodup.mem_erase_iff]
    · simp [History.dequeue, waits.signaled, signalling]
  · refine Stage.fits_of each.fits (Nat.le_refl _) (fun e at_ => ?_) pulse fun is => ?_
    · have other : e ≠ event := fun same => here (same ▸ at_)
      refine ⟨Iff.rfl, mem_erase_of_ne other, rfl, ?_, ?_⟩
      · simp [History.dequeue, other]
      · simp [History.dequeue, signalling, other.symm]
    · obtain is | is := is
      · exact absurd unlocked (by cases stage <;> first | exact Bool.noConfusion | cases is)
      · exact absurd is notOwner

theorem Turn.others {u : Tid} {other : Stage} (turn : Turn t s h stage s' h' stage')
    (was : s'.owner = some u → s.owner = some u) (common : Common s h) (self : Each s h t stage) (ne : u ≠ t)
    (each : Each s h u other) (locked : other.locked = true → s.owner = some u)
    (distinct : ∀ event, stage.event = some event → other.event ≠ some event) : Each s' h' u other := by
  have apart : ∀ {event e : Nat}, stage.event = some event → other.event = some e → e ≠ event :=
    fun at_ at' same => distinct _ at_ (same ▸ at')
  have notOwner : s.owner = some t → s.owner ≠ some u := fun owner owner' => by
    rw [owner] at owner'
    exact ne (Option.some.inj owner').symm
  have pulsesOwner : other.pulses = true → s.owner = some u := fun is => locked (by cases other <;> first | rfl | cases is)
  cases turn with
  | quiet plain waitList signaled events =>
    refine ⟨Stage.fits_of each.fits (Nat.le_of_eq events.symm) (fun e _ => ?_) rfl fun _ => ⟨waitList, was⟩,
      fun owner => each.signalling (was owner), each.dequeued, each.unanswered⟩
    rw [waitList, signaled]
    exact ⟨Iff.rfl, Iff.rfl, rfl, Iff.rfl, Iff.rfl⟩
  | creates =>
    exact ⟨Stage.fits_of each.fits (Nat.le_succ _) (fun e _ => ⟨Iff.rfl, Iff.rfl, rfl, Iff.rfl, Iff.rfl⟩) rfl
      fun _ => ⟨rfl, was⟩, fun owner => each.signalling (was owner), each.dequeued, each.unanswered⟩
  | drops => exact each
  | @appends event owner =>
    refine ⟨Stage.fits_of each.fits (Nat.le_refl _) (fun e at_ => ?_) rfl fun is => ?_,
      fun owner => each.signalling (was owner), each.dequeued, each.unanswered⟩
    · have other := apart rfl at_
      simp [other]
    · obtain is | is := is
      · exact absurd (pulsesOwner is) (notOwner owner)
      · exact absurd is (notOwner owner)
  | @takes event signaled =>
    exact ⟨Stage.fits_of each.fits (Nat.le_refl _)
      (fun e at_ => ⟨Iff.rfl, Iff.rfl, setSignal_of_ne (apart rfl at_), Iff.rfl, Iff.rfl⟩) rfl
      fun _ => ⟨rfl, was⟩, fun owner => each.signalling (was owner), each.dequeued, each.unanswered⟩
  | regains owner | regainsTaken owner | givesUp owner =>
    exact ⟨Stage.fits_of each.fits (Nat.le_refl _) (fun e _ => ⟨Iff.rfl, Iff.rfl, rfl, Iff.rfl, Iff.rfl⟩) rfl
      fun _ => ⟨rfl, was⟩, each.signalling, each.dequeued, each.unanswered⟩
  | @polled event owner signaled =>
    exact ⟨Stage.fits_of each.fits (Nat.le_refl _)
      (fun e at_ => ⟨Iff.rfl, Iff.rfl, setSignal_of_ne (apart rfl at_), Iff.rfl, Iff.rfl⟩) rfl
      fun _ => ⟨rfl, was⟩, fun owner => each.signalling (was owner), each.dequeued, each.unanswered⟩
  | unpolled owner quiet => exact each
  | @removes event timedOut owner listed =>
    refine ⟨Stage.fits_of each.fits (Nat.le_refl _) (fun e at_ => ?_) rfl fun is => ?_,
      fun owner => each.signalling (was owner), each.dequeued, each.unanswered⟩
    · exact ⟨Iff.rfl, mem_erase_of_ne (apart rfl at_), rfl, Iff.rfl, Iff.rfl⟩
    · obtain is | is := is
      · exact absurd (pulsesOwner is) (notOwner owner)
      · exact absurd is (notOwner owner)
  | @returns event success owner =>
    refine ⟨Stage.fits_of each.fits (Nat.le_refl _) (fun e _ => ⟨Iff.rfl, Iff.rfl, rfl, Iff.rfl, Iff.rfl⟩) rfl
      fun _ => ⟨rfl, was⟩, each.signalling, each.dequeued, fun e at_ is => ?_⟩
    rw [map_append, mem_append, map_singleton, mem_singleton] at is
    exact is.elim (each.unanswered e at_) (apart rfl at_)
  | issues all =>
    have pulse : (h.issue t all).pulse u = h.pulse u := update_of_ne ne ..
    exact ⟨Stage.fits_of each.fits (Nat.le_refl _) (fun e _ => ⟨Iff.rfl, Iff.rfl, rfl, Iff.rfl, Iff.rfl⟩) pulse
      fun _ => ⟨rfl, was⟩, each.signalling, fun is => pulse ▸ each.dequeued is, each.unanswered⟩
  | refused | accepted owner => exact each
  | @signals all event rest owner list =>
    have unlocked : other.locked = false := Bool.eq_false_iff.mpr fun is => notOwner owner (locked is)
    have listed : event ∈ s.waitList := list ▸ mem_cons_self
    have none_ : h.signalling = none := self.signalling owner
    refine ⟨?_, fun owner' => absurd owner' (notOwner owner), each.dequeued, each.unanswered⟩
    by_cases here : other.event = some event
    · obtain ⟨got, rfl⟩ := Stage.waiting_of_listed each.fits common unlocked here listed
      have waits : Waits s h event got := each.fits
      exact ⟨waits.queued, waits.listed, by simp [setSignal]⟩
    · refine Stage.fits_of each.fits (Nat.le_refl _) (fun e at_ => ?_) rfl fun _ => ⟨rfl, was⟩
      have ne' : e ≠ event := fun same => here (same ▸ at_)
      exact ⟨Iff.rfl, Iff.rfl, setSignal_of_ne ne', Iff.rfl, by simp [none_, ne'.symm]⟩
  | ends owner list => exact each.finish ne
  | @dequeues event owner =>
    have unlocked : other.locked = false := Bool.eq_false_iff.mpr fun is => notOwner owner (locked is)
    exact each.dequeue ne common owner (self.signalling owner) unlocked
  | @dequeuesOne event owner =>
    have unlocked : other.locked = false := Bool.eq_false_iff.mpr fun is => notOwner owner (locked is)
    exact (each.dequeue ne common owner (self.signalling owner) unlocked).finish ne

theorem Turn.self (turn : Turn t s h stage s' h' stage')
    (owners : s'.owner = s.owner ∨ s.owner = none ∧ s'.owner = some t ∨ s.owner = some t ∧ s'.owner = none)
    (common : Common s h) (each : Each s h t stage) : Each s' h' t stage' := by
  cases turn with
  | quiet plain waitList signaled events =>
    have none_ : stage.signalling = none := by cases stage <;> first | rfl | cases plain
    have fits : stage.fits s' h t := by
      cases stage with
      | outside => trivial
      | waiting event got =>
        have waits : Waits s h event got := each.fits
        exact ⟨waits.queued, by rw [waitList, waits.listed], by rw [signaled, waits.signaled]⟩
      | created | polls | removes | returns | pulseCalled | pulseReads | pulseRemoves => cases plain
    refine ⟨fits, fun owner' => ?_, each.dequeued, each.unanswered⟩
    obtain same | ⟨free, -⟩ | ⟨-, free⟩ := owners
    · exact each.signalling (same ▸ owner')
    · rw [common.free free, none_]
    · rw [free] at owner'
      cases owner'
  | creates =>
    have new : s.events ∉ h.queued := fun is => Nat.lt_irrefl _ (common.created _ is)
    refine ⟨⟨Nat.lt_succ_self _, new⟩, each.signalling, each.dequeued, fun e at_ is => ?_⟩
    obtain rfl := Option.some.inj at_
    obtain ⟨⟨e, success⟩, is, rfl⟩ := mem_map.mp is
    exact new (common.answered _ _ is).1
  | drops | refused => exact ⟨trivial, each.signalling, each.dequeued, (by rintro _ ⟨⟩)⟩
  | @appends event owner =>
    have new : event ∉ h.queued := each.fits.2
    have undequeued : event ∉ h.dequeued := fun is => new (common.dequeuedQueued _ is)
    have unsignaled : s.signaled event = false := Bool.eq_false_iff.mpr fun is => new (common.signaled _ is)
    have none_ : h.signalling = none := each.signalling owner
    refine ⟨⟨?_, ?_, ?_⟩, each.signalling, each.dequeued, each.unanswered⟩
    · simp
    · simp [undequeued]
    · simp [undequeued, unsignaled, none_]
  | @takes event signaled =>
    have waits : Waits s h event false := each.fits
    exact ⟨⟨waits.queued, waits.listed, iff_of_true (Or.inr rfl) (waits.signaled.mp (Or.inl signaled))⟩,
      each.signalling, each.dequeued, each.unanswered⟩
  | regains owner =>
    have waits := each.fits
    exact ⟨⟨waits.queued, waits.listed, waits.signaled⟩, each.signalling, each.dequeued, each.unanswered⟩
  | regainsTaken owner =>
    have waits := each.fits
    have dequeued := waits.dequeued_of_signaled (each.signalling owner) (Or.inr rfl)
    exact ⟨⟨waits.queued, fun is => waits.listed.mp is dequeued, iff_of_true rfl dequeued⟩, each.signalling,
      each.dequeued, each.unanswered⟩
  | givesUp owner =>
    have waits := each.fits
    exact ⟨⟨⟨waits.queued, waits.listed, waits.signaled⟩, (by rintro ⟨⟩)⟩, each.signalling, each.dequeued, each.unanswered⟩
  | polled owner signaled =>
    have waits := each.fits
    have dequeued := waits.dequeued_of_signaled (each.signalling owner) (Or.inl signaled)
    exact ⟨⟨waits.queued, fun is => waits.listed.mp is dequeued, iff_of_true rfl dequeued⟩, each.signalling,
      each.dequeued, each.unanswered⟩
  | unpolled owner quiet => exact ⟨⟨each.fits, fun _ => quiet⟩, each.signalling, each.dequeued, each.unanswered⟩
  | @removes event timedOut owner listed =>
    have waits : Waits s h event false := each.fits.1
    have undequeued : event ∉ h.dequeued := by
      cases timedOut with
      | false => exact waits.listed.mp (listed rfl)
      | true =>
        intro dequeued
        obtain signaled | got := waits.signaled.mpr (Or.inl dequeued)
        · rw [each.fits.2 rfl] at signaled
          cases signaled
        · cases got
    exact ⟨⟨waits.queued, common.nodup.not_mem_erase, iff_of_false (by rintro ⟨⟩) undequeued⟩, each.signalling, each.dequeued,
      each.unanswered⟩
  | returns owner => exact ⟨trivial, each.signalling, each.dequeued, (by rintro _ ⟨⟩)⟩
  | issues all =>
    have pulse : (h.issue t all).pulse t = ⟨all, h.queued, h.waiting, []⟩ := update_self ..
    refine ⟨fun _ => ?_, each.signalling, fun _ => by rw [pulse], (by rintro _ ⟨⟩)⟩
    rw [pulse]
    exact ⟨rfl, fun e is => common.listedQueued e (common.waiting ▸ is), common.waiting, fun _ => rfl⟩
  | accepted owner => exact ⟨each.fits owner, each.signalling, (by rintro ⟨⟩), (by rintro _ ⟨⟩)⟩
  | signals owner list =>
    have pulses := each.fits
    exact ⟨⟨pulses.whole, pulses.queued, pulses.waiting, pulses.one⟩, fun _ => rfl, (by rintro ⟨⟩), (by rintro _ ⟨⟩)⟩
  | ends owner list =>
    have pulse : (h.finish t).pulse t = .empty := update_self ..
    exact ⟨trivial, each.signalling, fun _ => by rw [pulse]; rfl, (by rintro _ ⟨⟩)⟩
  | @dequeues event owner =>
    have pulses : Pulses s (h.pulse t) true := each.fits
    have pulse : (h.dequeue t event).pulse t = { h.pulse t with dequeued := (h.pulse t).dequeued ++ [event] } :=
      update_self ..
    refine ⟨?_, fun _ => rfl, (by rintro ⟨⟩), (by rintro _ ⟨⟩)⟩
    change Pulses _ ((h.dequeue t event).pulse t) true
    rw [pulse]
    refine ⟨pulses.whole, pulses.queued, ?_, (by rintro ⟨⟩)⟩
    rw [append_assoc, pulses.waiting]
    exact congrArg ((h.pulse t).dequeued ++ ·) (common.list_of_signalling (each.signalling owner))
  | @dequeuesOne event owner =>
    have pulse : ((h.dequeue t event).finish t).pulse t = .empty := update_self ..
    exact ⟨trivial, fun _ => rfl, fun _ => by rw [pulse]; rfl, (by rintro _ ⟨⟩)⟩

theorem Common.finish (common : Common s h) (owner : s.owner = some t) (done : Finished (h.pulse t)) :
    Common s (h.finish t) :=
  { common with
    dequeued := by
      have pulse : (h.finish t).pulse t = .empty := update_self ..
      have pulse : (h.finish t).underWay s.owner = [] := by
        rw [owner, History.underWay, pulse]
        rfl
      rw [pulse]
      simp [History.finish, common.dequeued, owner, History.underWay]
    finished := fun call member => by
      obtain before | rfl := mem_append.mp member |>.imp_right mem_singleton.mp
      · exact common.finished call before
      · exact done
    answered := fun event success is => by
      obtain ⟨queued, unlisted, answer⟩ := common.answered event success is
      refine ⟨queued, unlisted, ?_⟩
      cases success with
      | true =>
        change event ∈ (h.finished ++ [h.pulse t]).flatMap PulseCall.dequeued
        rw [flatMap_append]
        exact mem_append_left _ answer
      | false => exact answer }

theorem Common.dequeue {event : Nat} (common : Common s h) (owner : s.owner = some t)
    (signalling : h.signalling = some event) :
    Common { s with waitList := s.waitList.erase event } (h.dequeue t event) where
  waiting := congrArg (List.erase · event) common.waiting
  nodup := common.nodup.erase _
  fresh e member := by
    obtain ⟨other, member⟩ := common.nodup.mem_erase_iff.mp member
    simp [History.dequeue, common.fresh e member, other]
  once := by
    have listed : event ∈ s.waitList := mem_of_head? (common.signalling event signalling)
    refine nodup_append.mpr ⟨common.once, nodup_singleton _, fun e dequeued e' is same => ?_⟩
    rw [mem_singleton] at is
    exact common.fresh event listed (is ▸ same ▸ dequeued)
  listedQueued e member := common.listedQueued e (mem_of_mem_erase member)
  dequeuedQueued e member := by
    obtain before | rfl := mem_append.mp member |>.imp_right mem_singleton.mp
    · exact common.dequeuedQueued e before
    · exact common.listedQueued e (mem_of_head? (common.signalling e signalling))
  created := common.created
  signaled := common.signaled
  signalling _ is := nomatch is
  free _ := rfl
  dequeued := by
    simp [History.dequeue, History.underWay, owner, common.dequeued]
  finished := common.finished
  answeredOnce := common.answeredOnce
  answered e success is := by
    obtain ⟨queued, unlisted, answer⟩ := common.answered e success is
    refine ⟨queued, fun member => unlisted (mem_of_mem_erase member), ?_⟩
    cases success with
    | true => exact answer
    | false =>
      have listed : event ∈ s.waitList := mem_of_head? (common.signalling event signalling)
      have other : e ≠ event := fun same => unlisted (same ▸ listed)
      have undequeued : e ∉ h.dequeued := answer
      simp [History.dequeue, undequeued, other]

theorem Turn.common (turn : Turn t s h stage s' h' stage')
    (owners : s'.owner = s.owner ∨ s.owner = none ∧ s'.owner = some t ∨ s.owner = some t ∧ s'.owner = none)
    (common : Common s h) (each : Each s h t stage) : Common s' h' := by
  cases turn with
  | quiet plain waitList signaled events =>
    have none_ : stage.signalling = none := by cases stage <;> first | rfl | cases plain
    have dequeued : (h.pulse t).dequeued = [] := each.dequeued (by cases stage <;> first | rfl | cases plain)
    have underWay : h.underWay s'.owner = h.underWay s.owner := by
      obtain same | ⟨free, self⟩ | ⟨self, free⟩ := owners
      · rw [same]
      · rw [free, self]
        exact dequeued
      · rw [free, self]
        exact dequeued.symm
    constructor
    · rw [waitList, common.waiting]
    · rw [waitList]
      exact common.nodup
    · rw [waitList]
      exact common.fresh
    · exact common.once
    · rw [waitList]
      exact common.listedQueued
    · exact common.dequeuedQueued
    · rw [events]
      exact common.created
    · rw [signaled]
      exact common.signaled
    · rw [waitList]
      exact common.signalling
    · intro free
      obtain same | ⟨-, self⟩ | ⟨self, -⟩ := owners
      · exact common.free (same ▸ free)
      · rw [self] at free
        cases free
      · rw [each.signalling self, none_]
    · rw [underWay, ← common.dequeued]
    · exact common.finished
    · exact common.answeredOnce
    · rw [waitList]
      exact common.answered
  | creates => exact { common with created := fun e is => Nat.lt_succ_of_lt (common.created e is) }
  | @appends event owner =>
    have new : event ∉ h.queued := each.fits.2
    have none_ : h.signalling = none := each.signalling owner
    have fresh : ∀ e, e ∈ s.waitList ++ [event] → e ∈ s.waitList ∨ e = event :=
      fun e member => (mem_append.mp member).imp_right mem_singleton.mp
    exact
      { common with
        waiting := congrArg (· ++ [event]) common.waiting
        nodup := nodup_append.mpr ⟨common.nodup, nodup_singleton _, fun e member e' is same =>
          new (mem_singleton.mp is ▸ same ▸ common.listedQueued e member)⟩
        fresh := fun e member => by
          obtain before | rfl := fresh e member
          · exact common.fresh e before
          · exact fun is => new (common.dequeuedQueued e is)
        listedQueued := fun e member => by
          obtain before | rfl := fresh e member
          · exact mem_append_left _ (common.listedQueued e before)
          · exact mem_append_right _ (mem_singleton_self _)
        dequeuedQueued := fun e member => mem_append_left _ (common.dequeuedQueued e member)
        created := fun e member => by
          obtain before | rfl := mem_append.mp member |>.imp_right mem_singleton.mp
          · exact common.created e before
          · exact each.fits.1
        signaled := fun e is => mem_append_left _ (common.signaled e is)
        signalling := fun e is => by
          rw [none_] at is
          cases is
        answered := fun e success is => by
          obtain ⟨queued, unlisted, answer⟩ := common.answered e success is
          refine ⟨mem_append_left _ queued, fun member => ?_, answer⟩
          obtain before | rfl := fresh e member
          · exact unlisted before
          · exact new queued }
  | takes signaled =>
    exact { common with signaled := fun e is => common.signaled e (of_setSignal_false is) }
  | regains owner | regainsTaken owner | givesUp owner => exact { common with }
  | polled owner signaled =>
    exact { common with signaled := fun e is => common.signaled e (of_setSignal_false is) }
  | unpolled owner quiet | refused | accepted owner | drops => exact common
  | @removes event timedOut owner listed =>
    have none_ : h.signalling = none := each.signalling owner
    exact
      { common with
        waiting := congrArg (List.erase · event) common.waiting
        nodup := common.nodup.erase _
        fresh := fun e member => common.fresh e (mem_of_mem_erase member)
        listedQueued := fun e member => common.listedQueued e (mem_of_mem_erase member)
        signalling := fun e is => by
          rw [none_] at is
          cases is
        answered := fun e success is => by
          obtain ⟨queued, unlisted, answer⟩ := common.answered e success is
          exact ⟨queued, fun member => unlisted (mem_of_mem_erase member), answer⟩ }
  | @returns event success owner =>
    have whole : h.dequeued = h.finished.flatMap PulseCall.dequeued := by
      have dequeued := common.dequeued
      rw [owner, History.underWay, each.dequeued rfl, append_nil] at dequeued
      exact dequeued
    obtain ⟨queued, unlisted, answer⟩ := each.fits
    exact
      { common with
        answeredOnce := by
          rw [map_append]
          refine nodup_append.mpr ⟨common.answeredOnce, nodup_singleton _, fun e before e' is same => ?_⟩
          rw [map_singleton, mem_singleton] at is
          have at_ : e = event := same.trans is
          exact each.unanswered event rfl (at_ ▸ before)
        answered := fun e success' is => by
          obtain before | is := mem_append.mp is |>.imp_right mem_singleton.mp
          · exact common.answered e success' before
          · obtain ⟨rfl, rfl⟩ := Prod.mk.inj is
            refine ⟨queued, unlisted, ?_⟩
            cases success' with
            | true => exact whole ▸ answer.mp rfl
            | false => exact fun is => Bool.noConfusion (answer.mpr is) }
  | issues all =>
    have underWay : (h.issue t all).underWay s.owner = h.underWay s.owner := by
      cases owner : s.owner with
      | none => rfl
      | some u =>
        by_cases same : u = t
        · subst same
          exact (congrArg PulseCall.dequeued (update_self ..)).trans (each.dequeued rfl).symm
        · exact congrArg PulseCall.dequeued (update_of_ne same ..)
    exact { common with dequeued := underWay ▸ common.dequeued }
  | @signals all event rest owner list =>
    exact
      { common with
        signaled := fun e is => by
          by_cases same : e = event
          · exact common.listedQueued e (same ▸ list ▸ mem_cons_self)
          · exact common.signaled e ((setSignal_of_ne same).symm.trans is)
        signalling := fun e is => by
          obtain rfl := Option.some.inj is
          rw [list]
          rfl
        free := fun free => by
          rw [owner] at free
          cases free }
  | @ends all owner list =>
    have pulses : Pulses s (h.pulse t) all := each.fits
    have waiting : (h.pulse t).waiting = (h.pulse t).dequeued := by
      rw [pulses.waiting, list, append_nil]
    refine common.finish owner ⟨?_, pulses.queued⟩
    rw [pulses.whole, waiting]
    cases all with
    | true => rfl
    | false =>
      rw [pulses.one rfl]
      rfl
  | dequeues owner => exact common.dequeue owner (each.signalling owner)
  | @dequeuesOne event owner =>
    have pulses : Pulses s (h.pulse t) false := each.fits
    have pulse : (h.dequeue t event).pulse t = { h.pulse t with dequeued := (h.pulse t).dequeued ++ [event] } :=
      update_self ..
    refine (common.dequeue owner (each.signalling owner)).finish owner ?_
    rw [pulse]
    refine ⟨?_, pulses.queued⟩
    rw [pulses.whole, pulses.waiting, pulses.one rfl, common.list_of_signalling (each.signalling owner)]
    rfl

end Kept

/-! ### Runs -/

/-- What holds of every state that is reached. -/
structure PulseInv (s : RecordedState Tid) : Prop where
  owner : OwnerInv s.shared.1 s.own
  sound : ∀ t, (s.own t).pc.sound
  exclusive : Exclusive (fun thread => thread.pc.stage.event) s.own
  executing : ∀ event ∈ s.shared.1.waitList, ∃ t, (s.own t).pc.stage.waitsFor = some event
  common : Common s.shared.1 s.shared.2
  each : ∀ t, Each s.shared.1 s.shared.2 t (s.own t).pc.stage

/-- The event of a wait that has no answer is in the list unless a pulse dequeued it. -/
theorem Each.listed {t : Tid} {event : Nat} (each : Each s h t stage) (waits : stage.waitsFor = some event) :
    event ∈ s.waitList ↔ event ∉ h.dequeued := by
  have fits := each.fits
  cases stage
  case waiting | polls =>
    obtain rfl := Option.some.inj waits
    exact fits.listed
  case removes =>
    obtain rfl := Option.some.inj waits
    exact fits.1.listed
  all_goals cases waits

theorem Each.event_lt {t : Tid} {event : Nat} (each : Each s h t stage) (common : Common s h)
    (at_ : stage.event = some event) : event < s.events := by
  have fits := each.fits
  cases stage
  case created =>
    obtain rfl := Option.some.inj at_
    exact fits.1
  case waiting | polls =>
    obtain rfl := Option.some.inj at_
    exact common.created _ fits.queued
  case removes =>
    obtain rfl := Option.some.inj at_
    exact common.created _ fits.1.queued
  case returns =>
    obtain rfl := Option.some.inj at_
    exact common.created _ fits.1
  all_goals cases at_

section Runs

variable [DecidableEq Tid]

theorem Turn.event {t : Tid} {s s' : Sync Tid} {h h' : History Tid} {stage stage' : Stage} {event : Nat}
    (turn : Turn t s h stage s' h' stage') (at_ : stage'.event = some event) :
    stage.event = some event ∨ event = s.events := by
  cases turn
  case creates => exact Or.inr (Option.some.inj at_).symm
  all_goals first | exact Or.inl at_ | cases at_

/-- An event in the list is that of the thread of the turn, or was in the list and not its own. -/
theorem Turn.executing {t : Tid} {s s' : Sync Tid} {h h' : History Tid} {stage stage' : Stage} {event : Nat}
    (turn : Turn t s h stage s' h' stage') (self : Each s' h' t stage') (listed : event ∈ s'.waitList) :
    stage'.waitsFor = some event ∨ event ∈ s.waitList ∧ stage.waitsFor ≠ some event := by
  have answered : ∀ other success, stage' = .returns other success → some other ≠ some event := by
    rintro other success rfl same
    exact self.fits.2.1 (Option.some.inj same ▸ listed)
  cases turn
  case quiet stage plain waitList signaled events =>
    by_cases waits : stage.waitsFor = some event
    · exact Or.inl waits
    · exact Or.inr ⟨waitList ▸ listed, waits⟩
  case appends other owner =>
    obtain before | rfl := mem_append.mp listed |>.imp_right mem_singleton.mp
    · exact Or.inr ⟨before, nofun⟩
    · exact Or.inl rfl
  case takes other signaled =>
    by_cases same : some other = some event
    · exact Or.inl same
    · exact Or.inr ⟨listed, same⟩
  case regains other nest owner =>
    by_cases same : some other = some event
    · exact Or.inl same
    · exact Or.inr ⟨listed, same⟩
  case givesUp other nest owner =>
    by_cases same : some other = some event
    · exact Or.inl same
    · exact Or.inr ⟨listed, same⟩
  case unpolled other owner quiet =>
    by_cases same : some other = some event
    · exact Or.inl same
    · exact Or.inr ⟨listed, same⟩
  case regainsTaken other nest owner => exact Or.inr ⟨listed, answered other true rfl⟩
  case polled other owner signaled => exact Or.inr ⟨listed, answered other true rfl⟩
  case removes other timedOut owner _ => exact Or.inr ⟨mem_of_mem_erase listed, answered other false rfl⟩
  all_goals exact Or.inr ⟨by first | exact listed | exact mem_of_mem_erase listed, nofun⟩

theorem pulseInv_step {s : RecordedState Tid} {t : Tid} {choice : Choice} {next : (Sync Tid × History Tid) × Thread}
    (inv : PulseInv s) (uninterrupted : Uninterrupted t choice s.shared (s.own t))
    (run : recordedStep t choice s.shared (s.own t) = some next) : PulseInv (s.after t next) := by
  obtain ⟨⟨sync, thread⟩, stepped, rfl⟩ := Option.map_eq_some_iff.mp run
  have ownerStep := step_owner stepped (inv.owner t)
  obtain ⟨turn, sound⟩ := step_turn stepped uninterrupted (inv.sound t) (inv.owner t)
  have common := turn.common ownerStep.owner inv.common (inv.each t)
  have self := turn.self ownerStep.owner inv.common (inv.each t)
  refine ⟨ownerStep.kept inv.owner, fun u => ?_, inv.exclusive.update fun event at_ => ?_, fun event listed => ?_, common,
    fun u => ?_⟩
  · by_cases same : u = t
    · rw [same, State.after_own_self]
      exact sound
    · rw [State.after_own_of_ne same]
      exact inv.sound u
  · obtain had | rfl := turn.event at_
    · exact Or.inl had
    · exact Or.inr fun u at' => Nat.lt_irrefl _ ((inv.each u).event_lt inv.common at')
  · obtain waits | ⟨before, other⟩ := turn.executing self listed
    · exact ⟨t, by rw [State.after_own_self]; exact waits⟩
    · obtain ⟨u, waits⟩ := inv.executing event before
      have ne : u ≠ t := fun same => other (same ▸ waits)
      exact ⟨u, by rw [State.after_own_of_ne ne]; exact waits⟩
  · by_cases same : u = t
    · rw [same, State.after_own_self]
      exact self
    · rw [State.after_own_of_ne same]
      exact turn.others (ownerStep.was same) inv.common (inv.each t) same (inv.each u)
        (fun locked => inv.owner u (Pc.holds_of_locked locked)) fun event at_ at' => same (inv.exclusive u t event at' at_)

theorem InstalledUnrecorded.pulseInv {s : RecordedState Tid} (start : InstalledUnrecorded s) : PulseInv s := by
  obtain ⟨⟨sync, history⟩, own⟩ := s
  obtain ⟨installed, rfl⟩ := start
  obtain ⟨t, -, self, others⟩ := installed.entered
  have idle : ∀ u, (own u).pc = .idle := fun u => by
    by_cases same : u = t
    · exact congrArg Thread.pc (same ▸ self)
    · exact congrArg Thread.pc (others u same)
  have waitList : sync.waitList = [] := installed.waitList
  have unsignaled : ∀ event, sync.signaled event = false := installed.signaled
  refine ⟨fun u holds => ?_, fun u => ?_, fun u v event at_ => ?_, fun event listed => ?_, ?_, fun u => ?_⟩
  · rw [idle] at holds
    cases holds
  · rw [idle]
    trivial
  · change (own u).pc.stage.event = some event at at_
    rw [idle] at at_
    cases at_
  · rw [waitList] at listed
    cases listed
  · constructor
    case waiting => exact waitList.symm
    case nodup => exact waitList ▸ nodup_nil
    case fresh | once | dequeuedQueued | created | finished | answeredOnce | answered | signalling =>
      simp [History.empty]
    case listedQueued => simp [waitList]
    case signaled => simp [unsignaled]
    case free => exact fun _ => rfl
    case dequeued =>
      cases sync.owner
      all_goals rfl
  · rw [idle]
    exact ⟨trivial, fun _ => rfl, fun _ => rfl, nofun⟩

/-- In a run in which no wait ends by an interruption no pulse is lost and none counts twice. -/
theorem pulsesKept_of_uninterrupted {s : RecordedState Tid}
    (reached : Reached recordedStep Uninterrupted InstalledUnrecorded s) :
    PulsesKept s := by
  have inv : PulseInv s := reached.invariant (fun _ => InstalledUnrecorded.pulseInv)
    fun _ _ _ _ inv uninterrupted run => pulseInv_step inv uninterrupted run
  have stage : ∀ {t event}, (s.own t).pc.waitsFor = some event → (s.own t).pc.stage.waitsFor = some event :=
    fun {t} _ waits => (Pc.waitsFor_stage (s.own t).pc).trans waits
  have executing : ∀ event ∈ s.shared.1.waitList, ∃ t, (s.own t).pc.waitsFor = some event := fun event listed => by
    obtain ⟨t, waits⟩ := inv.executing event listed
    exact ⟨t, (Pc.waitsFor_stage _).symm.trans waits⟩
  have dequeued : ∀ call ∈ s.shared.2.finished, ∀ event ∈ call.dequeued, event ∈ s.shared.2.dequeued := by
    intro call finished event member
    rw [inv.common.dequeued]
    exact mem_append_left _ (mem_flatMap.mpr ⟨call, finished, member⟩)
  constructor
  case executing => exact executing
  case alone =>
    intro t u event waitsT waitsU
    exact inv.exclusive t u event (Stage.event_of_waitsFor (stage waitsT)) (Stage.event_of_waitsFor (stage waitsU))
  case waiting =>
    intro event
    rw [inv.common.waiting]
    constructor
    · exact fun listed => ⟨executing event listed, inv.common.fresh event listed⟩
    · rintro ⟨⟨t, waits⟩, undequeued⟩
      exact ((inv.each t).listed (stage waits)).mpr undequeued
  case pulses => exact fun call finished => (inv.common.finished call finished).dequeued
  case queued => exact fun call finished => (inv.common.finished call finished).queued
  case once =>
    have once := inv.common.once
    rw [inv.common.dequeued] at once
    exact once.of_append_left
  case answeredOnce => exact inv.common.answeredOnce
  case woken =>
    intro call finished event member is
    exact (inv.common.answered event false is).2.2 (dequeued call finished event member)
  case byPulse =>
    intro event is
    obtain ⟨call, finished, member⟩ := mem_flatMap.mp (inv.common.answered event true is).2.2
    exact ⟨call, finished, member⟩

end Runs

/-! ### A pulse, and one that is lost -/

/-- A thread has put a new record into the object, and nothing is recorded. -/
def unrecordedBy {n : Nat} (t : Fin n) : RecordedState (Fin n) where
  shared := ((installedBy t).shared, .empty)
  own := (installedBy t).own

theorem unrecordedBy_start {n : Nat} (t : Fin n) : InstalledUnrecorded (unrecordedBy t) :=
  ⟨installedBy_installed t, rfl⟩

/-- A thread that owns the monitor calls `Monitor_wait` and gets to the wait on its event. -/
def waits {n : Nat} (t : Fin n) : List (Fin n × Choice) :=
  (t, .call (.wait none)) :: List.replicate 9 (t, .go)

/-- A thread enters a monitor that nobody owns. -/
def enters {n : Nat} (t : Fin n) : List (Fin n × Choice) :=
  (t, .call (.enter none false)) :: List.replicate 3 (t, .go)

/-- A thread pulses one event. -/
def pulsesOne {n : Nat} (t : Fin n) : List (Fin n × Choice) :=
  (t, .call (.pulse false)) :: List.replicate 3 (t, .go)

/-- A thread exits by the C function where nobody is counted. -/
def exits {n : Nat} (t : Fin n) : List (Fin n × Choice) :=
  (t, .call .exit) :: List.replicate 4 (t, .go)

/-- The condition of a run without interrupted waits, computed. -/
def uninterrupted {n : Nat} (_t : Fin n) (choice : Choice) (shared : Sync (Fin n) × History (Fin n)) (thread : Thread) :
    Bool :=
  match thread.pc, choice with
  | .wait _ .checkInterruption, .interrupt => false
  | .wait _ .regainInterrupted, .interrupt => false
  | .wait frame .removeEvent, _ => decide (frame.ret = .ioCompletion → frame.event ∈ shared.1.waitList)
  | _, _ => true

theorem uninterrupted_sound {n : Nat} {t : Fin n} {choice : Choice} {shared : Sync (Fin n) × History (Fin n)}
    {thread : Thread} (check : uninterrupted t choice shared thread = true) : Uninterrupted t choice shared thread where
  check frame at_ interrupt := by
    simp [uninterrupted, at_, interrupt] at check
  regain frame at_ interrupt := by
    simp [uninterrupted, at_, interrupt] at check
  givesUp frame at_ ret := by
    simp only [uninterrupted, at_] at check
    exact of_decide_eq_true check ret

/-- The first thread waits, the second pulses it and exits, and the first regains the lock and returns true. -/
theorem pulsesKept_of_uninterrupted_pulse :
    ∃ s, exec recordedStep uninterrupted
        (waits 0 ++ enters 1 ++ pulsesOne 1 ++ exits 1 ++ List.replicate 7 (0, .go)) (unrecordedBy (0 : Fin 2)) = some s ∧
      s.shared.2.returned = [(0, true)] ∧ s.shared.2.finished.map PulseCall.dequeued = [[0]] ∧ PulsesKept s := by
  have facts : (exec recordedStep uninterrupted
      (waits 0 ++ enters 1 ++ pulsesOne 1 ++ exits 1 ++ List.replicate 7 (0, .go)) (unrecordedBy (0 : Fin 2))).any
        (fun s => s.shared.2.returned = [(0, true)] ∧ s.shared.2.finished.map PulseCall.dequeued = [[0]]) = true := by
    decide
  obtain ⟨s, run, facts⟩ := (Option.any_eq_true ..).mp facts
  obtain ⟨returned, dequeued⟩ := of_decide_eq_true facts
  exact ⟨s, run, returned, dequeued, pulsesKept_of_uninterrupted
    (.of_exec (fun _ _ _ _ => uninterrupted_sound) (.start (unrecordedBy_start 0)) run)⟩

/-- The wait of the first thread is interrupted and leaves its event in the list. The pulse of the third is spent on that
event, though the second thread waits. -/
theorem interruptedWait_takes_pulse :
    ∃ s : RecordedState (Fin 3), Reached recordedStep (fun _ _ _ _ => True) InstalledUnrecorded s ∧
      s.shared.2.returned = [(0, false)] ∧ (s.own 1).pc.waitsFor = some 1 ∧
      s.shared.2.finished.map (fun call => (call.waiting, call.dequeued)) = [([1], [0])] ∧ ¬ PulsesKept s := by
  have facts : (exec recordedStep (fun _ _ _ _ => true)
      (waits 0 ++ [(0, .interrupt), (0, .interrupt)] ++ enters 1 ++ waits 1 ++ enters 2 ++ pulsesOne 2)
        (unrecordedBy (0 : Fin 3))).any
        (fun s => s.shared.2.returned = [(0, false)] ∧ (s.own 1).pc.waitsFor = some 1 ∧
          s.shared.2.finished.map (fun call => (call.waiting, call.dequeued)) = [([1], [0])] ∧
          s.shared.2.finished.map PulseCall.all = [false]) = true := by
    decide
  obtain ⟨s, run, facts⟩ := (Option.any_eq_true ..).mp facts
  obtain ⟨returned, waits, finished, all⟩ := of_decide_eq_true facts
  refine ⟨s, .of_exec (fun _ _ _ _ _ => trivial) (.start (unrecordedBy_start 0)) run, returned, waits, finished, fun kept => ?_⟩
  obtain ⟨call, list⟩ : ∃ call, s.shared.2.finished = [call] :=
    length_eq_one_iff.mp (by simpa using congrArg List.length finished)
  have dequeues := kept.pulses call (by rw [list]; exact mem_singleton_self _)
  rw [list] at finished all
  obtain ⟨waiting, dequeued⟩ := Prod.mk.inj (singleton_inj.mp finished)
  have one : call.all = false := singleton_inj.mp all
  rw [waiting, dequeued, one] at dequeues
  cases dequeues

end MonoRuntime.Monitor
