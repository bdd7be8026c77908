/-
Module: MonoRuntime.Metadata.MonitorRuns
Purpose: What is said about the runs of any number of threads on the monitor of one object: where a run starts, and what a
  lost wake-up is.
Trusted boundary: none
Main exports: MonitorState
-/
import MonoRuntime.Metadata.Monitor
import MonoRuntime.Lib.Interleaving

namespace MonoRuntime.Monitor

open Interleaving

/-- The sync record of an object and the threads. -/
abbrev MonitorState (Tid : Type) := Interleaving.State Tid (Sync Tid) Thread

/-- A thread that is not in a call and has not entered. -/
def Thread.outside : Thread :=
  { pc := .idle, levels := 0 }

/-- A thread has just put a record into the object, and by that entered; it may have a semaphore from before. -/
structure Installed {Tid : Type} (s : MonitorState Tid) : Prop where
  entered : ∃ t, s.shared.owner = some t ∧ s.own t = { pc := .idle, levels := 1 } ∧ ∀ u, u ≠ t → s.own u = .outside
  nest : s.shared.nest = 1
  entryCount : s.shared.entryCount = 0
  waitList : s.shared.waitList = []
  signaled : ∀ event, s.shared.signaled event = false
  events : s.shared.events = 0

/-- A thread has put a new record into the object. -/
def installedBy {Tid : Type} [DecidableEq Tid] (t : Tid) : MonitorState Tid where
  shared :=
    { owner := some t, nest := 1, entryCount := 0, entrySem := none, waitList := [], signaled := fun _ => false, events := 0 }
  own u := if u = t then { pc := .idle, levels := 1 } else .outside

theorem installedBy_installed {Tid : Type} [DecidableEq Tid] (t : Tid) : Installed (installedBy t) where
  entered := ⟨t, rfl, if_pos rfl, fun _ other => if_neg other⟩
  nest := rfl
  entryCount := rfl
  waitList := rfl
  signaled _ := rfl
  events := rfl

/-! ### Wake-ups -/

/-- A thread is blocked on the semaphore. -/
def Pc.blocked (pc : Pc) : Bool :=
  match pc with
  | .enter _ .blocked => true
  | _ => false

/-- A thread is in the middle of an enter or an exit. -/
def Pc.entersOrExits (pc : Pc) : Bool :=
  match pc with
  | .enter _ _ => true
  | .exit _ _ => true
  | .fast _ => true
  | _ => false

/-- A wake-up was lost: nobody has the lock, somebody is blocked and there is no permit, and whoever is in the middle of an
enter or an exit is blocked, too. -/
structure LostWakeup {Tid : Type} (s : MonitorState Tid) : Prop where
  free : s.shared.owner = none
  waiting : ∃ t, (s.own t).pc.blocked = true
  noPermit : s.shared.entrySem.getD 0 = 0
  nobody : ∀ t, (s.own t).pc.entersOrExits = true → (s.own t).pc.blocked = true

/-- A step of a run in which `FastMonitorExit` does not clear the owner while a thread is counted in `entry_count`, and in
which that count does not overflow. -/
structure Unraced {Tid : Type} (_t : Tid) (_choice : Choice) (s : Sync Tid) (thread : Thread) : Prop where
  clears : thread.pc = .fast .exitClearOwner → s.entryCount = 0
  counts : ∀ call, thread.pc = .enter call .incrementCount → s.entryCount < 2147483647

end MonoRuntime.Monitor
