/-
Module: MonoRuntime.Metadata.MonitorPulses
Purpose: What is said about `Monitor_wait`, `Monitor_pulse` and `Monitor_pulse_all` in the runs of any number of threads on
  the monitor of one object: the runs with a history of who waited, what the pulses dequeued and what the waits returned.
Trusted boundary: none
Main exports: PulseCall
-/
import MonoRuntime.Metadata.MonitorRuns

namespace MonoRuntime.Monitor

open Interleaving

/-! ### The history -/

/-- A call of `Monitor_pulse` or `Monitor_pulse_all`: what had been queued and what was waiting when it was issued, and what
it dequeued. -/
structure PulseCall where
  all : Bool
  queued : List Nat
  waiting : List Nat
  dequeued : List Nat

/-- No call. -/
def PulseCall.empty : PulseCall :=
  { all := false, queued := [], waiting := [], dequeued := [] }

/-- The events that were queued; those whose waits go on, undisturbed by a pulse; the one that a pulse has signaled and not
yet dequeued; those that pulses dequeued; what the waits returned; the pulse that each thread is in; the pulses that are
over. -/
structure History (Tid : Type) where
  queued : List Nat
  waiting : List Nat
  signalling : Option Nat
  dequeued : List Nat
  returned : List (Nat × Bool)
  pulse : Tid → PulseCall
  finished : List PulseCall

/-- Before the first step. -/
def History.empty {Tid : Type} : History Tid :=
  { queued := [], waiting := [], signalling := none, dequeued := [], returned := [], pulse := fun _ => .empty,
    finished := [] }

section Steps

variable {Tid : Type} [DecidableEq Tid]

/-- A thread issues a pulse. -/
def History.issue (h : History Tid) (t : Tid) (all : Bool) : History Tid :=
  { h with
    pulse := Function.update h.pulse t { all := all, queued := h.queued, waiting := h.waiting, dequeued := [] } }

/-- The pulse of a thread dequeues an event. -/
def History.dequeue (h : History Tid) (t : Tid) (event : Nat) : History Tid :=
  { h with
    waiting := h.waiting.erase event
    signalling := none
    dequeued := h.dequeued ++ [event]
    pulse := Function.update h.pulse t { h.pulse t with dequeued := (h.pulse t).dequeued ++ [event] } }

/-- The pulse of a thread is over. -/
def History.finish (h : History Tid) (t : Tid) : History Tid :=
  { h with
    finished := h.finished ++ [h.pulse t]
    pulse := Function.update h.pulse t .empty }

/-- The history behind a step of a thread. A wait goes on from where it queues its event to where it takes it back, or to an
interruption. -/
def History.record (h : History Tid) (t : Tid) (choice : Choice) (s : Sync Tid) (pc : Pc) : History Tid :=
  match pc, choice with
  | .idle, .call (.pulse all) => h.issue t all
  | .wait frame .appendEvent, .go =>
      { h with queued := h.queued ++ [frame.event], waiting := h.waiting ++ [frame.event] }
  | .wait frame .checkInterruption, .interrupt =>
      { h with waiting := h.waiting.erase frame.event, returned := h.returned ++ [(frame.event, false)] }
  | .wait frame .regainInterrupted, .interrupt => { h with waiting := h.waiting.erase frame.event }
  | .wait frame .removeEvent, .go => { h with waiting := h.waiting.erase frame.event }
  | .wait frame (.returns success), .go => { h with returned := h.returned ++ [(frame.event, success)] }
  | .pulse _ .readList, .go =>
      match s.waitList with
      | [] => h.finish t
      | event :: _ => { h with signalling := some event }
  | .pulse all (.removeEvent event), .go => if all then h.dequeue t event else (h.dequeue t event).finish t
  | _, _ => h

/-- A step with the history. -/
def recordedStep : LocalStep Tid Choice (Sync Tid × History Tid) Thread :=
  fun t choice shared thread =>
    (step t choice shared.1 thread).map fun next =>
      ((next.1, shared.2.record t choice shared.1 thread.pc), next.2)

end Steps

/-- The sync record of an object with the history, and the threads. -/
abbrev RecordedState (Tid : Type) := Interleaving.State Tid (Sync Tid × History Tid) Thread

/-- The record was just installed, and nothing is recorded. -/
structure InstalledUnrecorded {Tid : Type} (s : RecordedState Tid) : Prop where
  installed : Installed { shared := s.shared.1, own := s.own }
  unrecorded : s.shared.2 = .empty

/-! ### What is kept -/

/-- The event of the wait that a thread executes, from where it is queued to where the wait has its answer. -/
def Pc.waitsFor (pc : Pc) : Option Nat :=
  match pc with
  | .wait _ .readOwner => none
  | .wait _ .createEvent => none
  | .wait _ .appendEvent => none
  | .wait _ (.returns _) => none
  | .wait frame _ => some frame.event
  | .enter call _ => call.wait.map WaitFrame.event
  | .exit inWait _ => inWait.map WaitFrame.event
  | _ => none

/-- No pulse is lost and none counts twice. -/
structure PulsesKept {Tid : Type} (s : RecordedState Tid) : Prop where
  /-- The list has the events of threads that execute `Monitor_wait`, -/
  executing : ∀ event ∈ s.shared.1.waitList, ∃ t, (s.own t).pc.waitsFor = some event
  /-- each of them its own. -/
  alone : ∀ t u event, (s.own t).pc.waitsFor = some event → (s.own u).pc.waitsFor = some event → t = u
  /-- Who still waits is who executes a wait whose event no pulse dequeued. -/
  waiting : ∀ event, event ∈ s.shared.2.waiting ↔
    (∃ t, (s.own t).pc.waitsFor = some event) ∧ event ∉ s.shared.2.dequeued
  /-- A pulse dequeues one event of those that still waited when it was issued, if there was one; a pulse of all dequeues
  those. -/
  pulses : ∀ call ∈ s.shared.2.finished, call.dequeued = if call.all then call.waiting else call.waiting.take 1
  /-- These had been queued before. -/
  queued : ∀ call ∈ s.shared.2.finished, ∀ event ∈ call.waiting, event ∈ call.queued
  /-- No event is dequeued twice, -/
  once : (s.shared.2.finished.flatMap PulseCall.dequeued).Nodup
  /-- and no wait returns twice. -/
  answeredOnce : (s.shared.2.returned.map Prod.fst).Nodup
  /-- A wait whose event a pulse dequeued does not return false, -/
  woken : ∀ call ∈ s.shared.2.finished, ∀ event ∈ call.dequeued, (event, false) ∉ s.shared.2.returned
  /-- and one that returns true had its event dequeued by a pulse. -/
  byPulse : ∀ event, (event, true) ∈ s.shared.2.returned → ∃ call ∈ s.shared.2.finished, event ∈ call.dequeued

/-- A step of a run in which no wait ends by an interruption: neither by a request that is seen behind the wait on the event,
nor by an exception before the lock is regained, nor by giving up, on account of a request that went away, an event that a
pulse has dequeued. -/
structure Uninterrupted {Tid : Type} (_t : Tid) (choice : Choice) (shared : Sync Tid × History Tid) (thread : Thread) :
    Prop where
  check : ∀ frame, thread.pc = .wait frame .checkInterruption → choice ≠ .interrupt
  regain : ∀ frame, thread.pc = .wait frame .regainInterrupted → choice ≠ .interrupt
  givesUp : ∀ frame, thread.pc = .wait frame .removeEvent → frame.ret = .ioCompletion →
    frame.event ∈ shared.1.waitList

end MonoRuntime.Monitor
