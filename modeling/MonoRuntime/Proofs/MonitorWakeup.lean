/-
Module: MonoRuntime.Proofs.MonitorWakeup
Purpose: No wake-up of a monitor is lost in a run in which the generated exit does not race with a thread that starts to
  wait: while nobody has the lock and somebody is blocked without a permit, some thread is on its way to the lock or to the
  release of a permit. A run in which the two race loses one.
Trusted boundary: none
Main exports: noLostWakeup_of_unraced, fastExit_loses_wakeup
-/
import MonoRuntime.Proofs.MonitorOwner

namespace MonoRuntime.Monitor

open Interleaving

variable {Tid : Type}

/-! ### Kinds of places -/

/-- A thread is counted in `entry_count`. -/
def Pc.counted (pc : Pc) : Bool :=
  match pc with
  | .enter _ .countedSwapOwner => true
  | .enter _ .blocked => true
  | .enter _ (.decrementCount _) => true
  | .enter _ .countedAssertNest => true
  | .enter _ .ownedDecrementCount => true
  | _ => false

/-- A thread that does not have the lock will try to take it before it blocks or leaves, or is between giving up the lock
and the release of a permit. -/
def Pc.owing (pc : Pc) : Bool :=
  match pc with
  | .enter _ .contendedReadOwner => true
  | .enter _ .contendedSwapOwner => true
  | .enter _ .readSem => true
  | .enter _ .installSem => true
  | .enter _ .incrementCount => true
  | .enter _ .countedSwapOwner => true
  | .enter _ (.decrementCount .object0) => true
  | .exit _ .readCount => true
  | .exit _ .releaseSem => true
  | _ => false

/-- A thread has seen that there is a semaphore, or that somebody is counted. -/
def Pc.hasSem (pc : Pc) : Bool :=
  match pc with
  | .enter _ .incrementCount => true
  | .exit _ .releaseSem => true
  | pc => pc.counted

/-- What a counted thread adds to the count. -/
def countWeight (thread : Thread) : Int :=
  if thread.pc.counted then 1 else 0

theorem countWeight_nonneg (thread : Thread) : 0 ≤ countWeight thread := by
  unfold countWeight
  split
  · decide
  · decide

variable {pc : Pc} {s : MonitorState Tid}

theorem blocked_counted (blocked : pc.blocked = true) : pc.counted = true := by
  unfold Pc.blocked at blocked
  split at blocked
  · rfl
  · cases blocked

theorem EnterCall.entered_kind (call : EnterCall) :
    call.entered.hasSem = false ∧ call.entered.owing = false ∧ call.entered.blocked = false := by
  unfold EnterCall.entered
  split
  · exact ⟨rfl, rfl, rfl⟩
  · exact ⟨rfl, rfl, rfl⟩

theorem EnterCall.interrupted_kind (call : EnterCall) :
    call.interrupted.hasSem = false ∧ call.interrupted.owing = false ∧ call.interrupted.blocked = false := by
  unfold EnterCall.interrupted
  split
  · exact ⟨rfl, rfl, rfl⟩
  · exact ⟨rfl, rfl, rfl⟩

theorem exited_kind (wait : Option WaitFrame) :
    (exited wait).hasSem = false ∧ (exited wait).owing = false ∧ (exited wait).blocked = false := by
  unfold exited
  split
  · exact ⟨rfl, rfl, rfl⟩
  · exact ⟨rfl, rfl, rfl⟩

theorem counted_of_hasSem (no : pc.hasSem = false) : pc.counted = false := by
  unfold Pc.hasSem at no
  split at no
  · cases no
  · cases no
  · exact no

theorem hasSem_of_counted (counted : pc.counted = true) : pc.hasSem = true := by
  by_contra no
  rw [counted_of_hasSem (Bool.eq_false_iff.mpr no)] at counted
  cases counted

/-! ### One step -/

/-- What a step does to the count, to the semaphore and to what is owed. -/
structure WakeStep (s : Sync Tid) (thread : Thread) (s' : Sync Tid) (thread' : Thread) : Prop where
  count : s'.entryCount = s.entryCount - countWeight thread + countWeight thread'
  sem : s.entrySem ≠ none → s'.entrySem ≠ none
  hasSem : thread'.pc.hasSem = true → s'.entrySem ≠ none
  owed : s'.owner = none → s'.entrySem.getD 0 = 0 → thread'.pc.owing = false →
    s'.entryCount ≤ 0 ∨
      s.owner = none ∧ s.entrySem.getD 0 = 0 ∧ thread.pc.owing = false ∧
        (thread'.pc.blocked = true → thread.pc.blocked = true)

theorem WakeStep.quiet {s s' : Sync Tid} {thread thread' : Thread} (owner : s'.owner = s.owner)
    (entryCount : s'.entryCount = s.entryCount) (entrySem : s'.entrySem = s.entrySem)
    (before : thread.pc.counted = false ∧ thread.pc.owing = false)
    (after : thread'.pc.hasSem = false ∧ thread'.pc.blocked = false) : WakeStep s thread s' thread' where
  count := by
    rw [entryCount, countWeight, countWeight, before.1, counted_of_hasSem after.1]
    simp
  sem some_ := entrySem ▸ some_
  hasSem is := by
    rw [after.1] at is
    cases is
  owed free noPermit _ := by
    refine Or.inr ⟨owner ▸ free, entrySem ▸ noPermit, before.2, fun is => ?_⟩
    rw [after.2] at is
    cases is

section Steps

variable [DecidableEq Tid] {t : Tid} {choice : Choice} {s s' : Sync Tid} {levels : Nat} {thread' : Thread}

theorem stepEnter_wake {call : EnterCall} {pc : EnterPc} (run : stepEnter t choice s levels call pc = some (s', thread'))
    (few : pc = .incrementCount → s.entryCount < 2147483647) (sem : (Pc.enter call pc).hasSem = true → s.entrySem ≠ none)
    (count : (Pc.enter call pc).counted = true → 1 ≤ s.entryCount) : WakeStep s ⟨.enter call pc, levels⟩ s' thread' := by
  have entered := call.entered_kind
  have uncounted := counted_of_hasSem entered.1
  cases pc
  case decrementCount ret =>
    -- A thread with a permit owes a further try; one without does not leave a permit behind.
    simp only [stepEnter, Option.map_eq_some_iff, Prod.mk.injEq] at run
    obtain ⟨next, decided, rfl, rfl⟩ := run
    have positive := count rfl
    have decrement : decrementInt32 s.entryCount = s.entryCount - 1 := if_neg (by omega)
    obtain ⟨ms, rfl, -⟩ | ⟨noPermit, leaves⟩ := call.decide_spec decided
    · constructor <;> simp_all [countWeight, Pc.counted, Pc.hasSem, Pc.owing]
    · have kind : next.hasSem = false ∧ next.blocked = false := by
        obtain rfl | ⟨rfl, -⟩ := leaves
        · exact ⟨call.interrupted_kind.1, call.interrupted_kind.2.2⟩
        · exact ⟨rfl, rfl⟩
      have leaving : countWeight ⟨next, levels⟩ = 0 := by rw [countWeight, counted_of_hasSem kind.1]; rfl
      refine ⟨?_, id, fun is => ?_, fun free empty _ => Or.inr ⟨free, empty, ?_, fun is => ?_⟩⟩
      · rw [decrement, leaving]
        change s.entryCount - 1 = s.entryCount - 1 + 0
        omega
      · rw [kind.1] at is
        cases is
      · cases ret with
        | object0 => exact absurd rfl noPermit
        | timeout | ioCompletion => rfl
      · rw [kind.2] at is
        cases is
  case blocked =>
    cases choice with
    | go =>
      simp only [stepEnter] at run
      split at run
      · obtain ⟨rfl, rfl⟩ := run
        constructor <;> simp_all [countWeight, Pc.counted, Pc.hasSem, Pc.owing, Pc.blocked]
      · cases run
    | timeout | interrupt =>
      obtain ⟨rfl, rfl⟩ := run
      constructor <;> simp_all [countWeight, Pc.counted, Pc.hasSem, Pc.owing, Pc.blocked]
    | call | left => cases run
  all_goals
    cases choice
    case go =>
      simp only [stepEnter] at run
      try split_ifs at run
      all_goals
        obtain ⟨rfl, rfl⟩ := run
        constructor <;>
          simp_all [countWeight, Pc.counted, Pc.hasSem, Pc.owing, Pc.blocked, EnterCall.failed, incrementInt32,
            decrementInt32] <;>
          omega
    all_goals cases run

theorem stepExit_wake {wait : Option WaitFrame} {pc : ExitPc}
    (run : stepExit t choice s levels wait pc = some (s', thread'))
    (sem : (Pc.exit wait pc).hasSem = true → s.entrySem ≠ none) (counted : 0 < s.entryCount → s.entrySem ≠ none) :
    WakeStep s ⟨.exit wait pc, levels⟩ s' thread' := by
  have exited := exited_kind wait
  have uncounted := counted_of_hasSem exited.1
  cases pc
  case releaseSem =>
    obtain ⟨permits, some_⟩ := Option.ne_none_iff_exists'.mp (sem rfl)
    cases choice with
    | go =>
      obtain ⟨rfl, rfl⟩ := run
      constructor <;> simp_all [countWeight, Pc.counted, Pc.hasSem, Pc.owing, Pc.blocked]
    | call | timeout | interrupt | left => cases run
  all_goals
    cases choice
    case go =>
      simp only [stepExit] at run
      try split_ifs at run
      all_goals
        obtain ⟨rfl, rfl⟩ := run
        constructor <;> simp_all [countWeight, Pc.counted, Pc.hasSem, Pc.owing, Pc.blocked]
    all_goals cases run

/-- A step in a generated function. The exit clears the owner without a look at the count; that nobody is counted then is
asked of the run. -/
theorem stepFast_wake {pc : FastPc} (run : stepFast t choice s levels pc = some (s', thread'))
    (clears : pc = .exitClearOwner → s.entryCount = 0) : WakeStep s ⟨.fast pc, levels⟩ s' thread' := by
  cases pc
  all_goals
    cases choice
    case go =>
      simp only [stepFast] at run
      try split_ifs at run
      all_goals
        obtain ⟨rfl, rfl⟩ := run
        constructor <;> simp_all [countWeight, Pc.counted, Pc.hasSem, Pc.owing, Pc.blocked]
    all_goals cases run

theorem stepWait_wake {frame : WaitFrame} {pc : WaitPc} (run : stepWait t choice s levels frame pc = some (s', thread')) :
    WakeStep s ⟨.wait frame pc, levels⟩ s' thread' := by
  cases pc
  all_goals
    cases choice
    all_goals
      simp only [stepWait] at run
      try split_ifs at run
      all_goals
        first
        | cases run; done
        | obtain ⟨rfl, rfl⟩ := run
          exact .quiet rfl rfl rfl ⟨rfl, rfl⟩ ⟨rfl, rfl⟩

theorem stepPulse_wake {all : Bool} {pc : PulsePc} (run : stepPulse t choice s levels all pc = some (s', thread')) :
    WakeStep s ⟨.pulse all pc, levels⟩ s' thread' := by
  cases choice with
  | go =>
    cases pc with
    | readOwner =>
      simp only [stepPulse] at run
      split_ifs at run
      all_goals
        obtain ⟨rfl, rfl⟩ := run
        exact .quiet rfl rfl rfl ⟨rfl, rfl⟩ ⟨rfl, rfl⟩
    | readList =>
      simp only [stepPulse] at run
      split at run
      all_goals
        obtain ⟨rfl, rfl⟩ := run
        exact .quiet rfl rfl rfl ⟨rfl, rfl⟩ ⟨rfl, rfl⟩
    | removeEvent event =>
      obtain ⟨rfl, rfl⟩ := run
      cases all with
      | true | false => exact .quiet rfl rfl rfl ⟨rfl, rfl⟩ ⟨rfl, rfl⟩
  | call | timeout | interrupt | left => cases pc <;> cases run

theorem step_wake {thread : Thread} (run : step t choice s thread = some (s', thread'))
    (unraced : Unraced t choice s thread) (sem : thread.pc.hasSem = true → s.entrySem ≠ none)
    (count : thread.pc.counted = true → 1 ≤ s.entryCount) (counted : 0 < s.entryCount → s.entrySem ≠ none) :
    WakeStep s thread s' thread' := by
  obtain ⟨pc, levels⟩ := thread
  cases pc with
  | idle =>
    cases choice with
    | call operation =>
      obtain ⟨rfl, rfl⟩ := run
      cases operation <;> exact .quiet rfl rfl rfl ⟨rfl, rfl⟩ ⟨rfl, rfl⟩
    | go | timeout | interrupt | left => cases run
  | enter call pc => exact stepEnter_wake run (fun at_ => unraced.counts call (by rw [at_])) sem count
  | exit wait pc => exact stepExit_wake run sem counted
  | fast pc => exact stepFast_wake run fun at_ => unraced.clears (by rw [at_])
  | wait frame pc => exact stepWait_wake run
  | pulse all pc => exact stepPulse_wake run

end Steps

/-! ### Runs -/

/-- Who is counted, who has seen the semaphore, and that a wake-up is owed to the blocked. -/
structure WakeupInv [Fintype Tid] (s : MonitorState Tid) : Prop where
  count : s.shared.entryCount = total countWeight s.own
  sem : ∀ u, (s.own u).pc.hasSem = true → s.shared.entrySem ≠ none
  owed : s.shared.owner = none → s.shared.entrySem.getD 0 = 0 → (∃ u, (s.own u).pc.blocked = true) →
    ∃ u, (s.own u).pc.owing = true

theorem WakeupInv.positive [Fintype Tid] (inv : WakeupInv s) {u : Tid} (counted : (s.own u).pc.counted = true) :
    1 ≤ s.shared.entryCount := by
  have part := weight_le_total countWeight_nonneg s.own u
  rw [← inv.count, countWeight, if_pos counted] at part
  exact part

theorem WakeupInv.someCounted [Fintype Tid] (inv : WakeupInv s) (positive : 0 < s.shared.entryCount) :
    ∃ u, (s.own u).pc.counted = true := by
  by_contra nobody
  have zero : total countWeight s.own = 0 :=
    Finset.sum_eq_zero fun u _ => if_neg fun counted => nobody ⟨u, counted⟩
  rw [inv.count, zero] at positive
  exact absurd positive (by decide)

theorem Installed.wakeupInv [Fintype Tid] (installed : Installed s) : WakeupInv s := by
  obtain ⟨t, -, self, others⟩ := installed.entered
  have idle : ∀ u, (s.own u).pc = .idle := fun u => by
    by_cases same : u = t
    · rw [same, self]
    · rw [others u same]
      rfl
  refine ⟨?_, fun u is => ?_, fun _ _ blocked => ?_⟩
  · rw [installed.entryCount]
    refine (Finset.sum_eq_zero fun u _ => ?_).symm
    rw [countWeight, idle]
    rfl
  · rw [idle] at is
    cases is
  · obtain ⟨u, is⟩ := blocked
    rw [idle] at is
    cases is

/-- Every step keeps it. What another thread owes it still owes; where the thread of the step pays what it owes, it took the
lock, left a permit, or saw that nobody is counted. -/
theorem wakeupInv_step [Fintype Tid] [DecidableEq Tid] {t : Tid} {choice : Choice} {next : Sync Tid × Thread}
    (inv : WakeupInv s) (unraced : Unraced t choice s.shared (s.own t))
    (run : step t choice s.shared (s.own t) = some next) : WakeupInv (s.after t next) := by
  obtain ⟨shared, thread⟩ := next
  have wake := step_wake run unraced (inv.sem t) inv.positive fun positive => by
    obtain ⟨u, counted⟩ := inv.someCounted positive
    exact inv.sem u (hasSem_of_counted counted)
  have count : shared.entryCount = total countWeight (s.after t (shared, thread)).own := by
    rw [State.after, total_update, ← inv.count]
    exact wake.count
  have own : ∀ u, u ≠ t → (s.after t (shared, thread)).own u = s.own u := fun u => State.after_own_of_ne
  have self : (s.after t (shared, thread)).own t = thread := s.after_own_self t _
  refine ⟨count, fun u is => ?_, fun free noPermit blocked => ?_⟩
  · by_cases same : u = t
    · rw [same, self] at is
      exact wake.hasSem is
    · rw [own u same] at is
      exact wake.sem (inv.sem u is)
  · obtain ⟨b, blocked⟩ := blocked
    by_cases owing : thread.pc.owing = true
    · refine ⟨t, ?_⟩
      rw [self]
      exact owing
    obtain few | ⟨free, noPermit, paid, blocks⟩ := wake.owed free noPermit (Bool.eq_false_iff.mpr owing)
    · -- The blocked thread is counted.
      have part := weight_le_total countWeight_nonneg (s.after t (shared, thread)).own b
      rw [← count, countWeight, if_pos (blocked_counted blocked)] at part
      omega
    · have before : ∃ u, (s.own u).pc.blocked = true := by
        by_cases same : b = t
        · rw [same, self] at blocked
          exact ⟨t, blocks blocked⟩
        · rw [own b same] at blocked
          exact ⟨b, blocked⟩
      obtain ⟨u, owes⟩ := inv.owed free noPermit before
      have other : u ≠ t := fun same => by
        rw [same, paid] at owes
        cases owes
      exact ⟨u, (own u other).symm ▸ owes⟩

/-- A thread that owes something is in the middle of an enter or an exit, and not blocked. -/
theorem Pc.owing_spec (owing : pc.owing = true) : pc.entersOrExits = true ∧ pc.blocked = false := by
  unfold Pc.owing at owing
  split at owing
  all_goals first | exact ⟨rfl, rfl⟩ | cases owing

/-- In a run in which `FastMonitorExit` clears the owner only while nobody is counted, no wake-up is lost. -/
theorem noLostWakeup_of_unraced [Fintype Tid] [DecidableEq Tid] {s : MonitorState Tid}
    (reached : Reached step Unraced Installed s) :
    ¬ LostWakeup s := by
  intro lost
  have inv : WakeupInv s := reached.invariant (fun _ => Installed.wakeupInv)
    fun _ _ _ _ inv unraced run => wakeupInv_step inv unraced run
  obtain ⟨u, owing⟩ := inv.owed lost.free lost.noPermit lost.waiting
  obtain ⟨inside, notBlocked⟩ := Pc.owing_spec owing
  rw [lost.nobody u inside] at notBlocked
  cases notBlocked

/-! ### Two threads -/

instance (s : MonitorState (Fin 2)) : Decidable (LostWakeup s) :=
  decidable_of_iff
    ((s.shared.owner = none ∧ s.shared.entrySem.getD 0 = 0) ∧
      (∃ t, (s.own t).pc.blocked = true) ∧ ∀ t, (s.own t).pc.entersOrExits = true → (s.own t).pc.blocked = true)
    ⟨fun ⟨⟨free, noPermit⟩, waiting, nobody⟩ => ⟨free, waiting, noPermit, nobody⟩,
      fun lost => ⟨⟨lost.free, lost.noPermit⟩, lost.waiting, lost.nobody⟩⟩

/-- A thread enters, finds the monitor owned and is about to count itself. -/
def arrives {n : Nat} (t : Fin n) : List (Fin n × Choice) :=
  [(t, .call (.enter none false)), (t, .go), (t, .go), (t, .go), (t, .go)]

/-- It counts itself, fails to take the lock and blocks. -/
def blocks {n : Nat} (t : Fin n) : List (Fin n × Choice) :=
  [(t, .go), (t, .go)]

/-- The C exit: it reads the owner and the nest count, clears the owner, reads the count and releases a permit. -/
def cExits {n : Nat} (t : Fin n) : List (Fin n × Choice) :=
  [(t, .call .exit), (t, .go), (t, .go), (t, .go), (t, .go), (t, .go)]

/-- The generated exit up to where it has read the count. -/
def fastExitReads {n : Nat} (t : Fin n) : List (Fin n × Choice) :=
  [(t, .call .fastExit), (t, .go), (t, .go), (t, .go)]

/-- The condition of a run without the race, computed. -/
def unraced (_t : Fin 2) (_choice : Choice) (s : Sync (Fin 2)) (thread : Thread) : Bool :=
  match thread.pc with
  | .fast .exitClearOwner => s.entryCount == 0
  | .enter _ .incrementCount => decide (s.entryCount < 2147483647)
  | _ => true

theorem unraced_sound {t : Fin 2} {choice : Choice} {s : Sync (Fin 2)} {thread : Thread}
    (check : unraced t choice s thread = true) : Unraced t choice s thread where
  clears at_ := by
    simp only [unraced, at_] at check
    exact eq_of_beq check
  counts call at_ := by
    simp only [unraced, at_] at check
    exact of_decide_eq_true check

/-- Behind the C exit the lock is free and the second thread still blocked, but it has its permit. -/
theorem noLostWakeup_of_unraced_cExit :
    ∃ s, exec step unraced (arrives 1 ++ blocks 1 ++ cExits 0) (installedBy 0) = some s ∧
      s.shared.owner = none ∧ (s.own 1).pc.blocked = true ∧ s.shared.entrySem = some 1 ∧ ¬ LostWakeup s := by
  obtain ⟨s, run⟩ : ∃ s, exec step unraced (arrives 1 ++ blocks 1 ++ cExits 0) (installedBy 0) = some s :=
    Option.isSome_iff_exists.mp (by decide)
  have reached : Reached step Unraced Installed s :=
    .of_exec (fun _ _ _ _ => unraced_sound) (.start (installedBy_installed 0)) run
  have facts : (exec step unraced (arrives 1 ++ blocks 1 ++ cExits 0) (installedBy 0)).all (fun s =>
      s.shared.owner = none ∧ (s.own 1).pc.blocked = true ∧ s.shared.entrySem = some 1) = true := by decide
  rw [run] at facts
  obtain ⟨free, blocked, permit⟩ := of_decide_eq_true facts
  exact ⟨s, run, free, blocked, permit, noLostWakeup_of_unraced reached⟩

/-- The generated exit reads the count before the second thread adds to it, and clears the owner when that thread has
failed to take the lock: it stays blocked without a permit. -/
theorem fastExit_loses_wakeup :
    ∃ s : MonitorState (Fin 2), Reached step (fun _ _ _ _ => True) Installed s ∧ LostWakeup s := by
  have lost : (exec step (fun _ _ _ _ => true) (arrives (1 : Fin 2) ++ fastExitReads 0 ++ blocks 1 ++ [(0, .go)])
      (installedBy 0)).any (fun s => LostWakeup s) = true := by decide
  obtain ⟨s, run, lost⟩ := (Option.any_eq_true ..).mp lost
  exact ⟨s, .of_exec (fun _ _ _ _ _ => trivial) (.start (installedBy_installed 0)) run, of_decide_eq_true lost⟩

end MonoRuntime.Monitor
