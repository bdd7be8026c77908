/-
Module: MonoRuntime.Proofs.MonitorOwner
Purpose: A thread that is where only the owner of a monitor gets is the owner: what one step does to the owner, and that the
  other threads cannot take the lock from it.
Trusted boundary: none
Main exports: Pc.holds
-/
import MonoRuntime.Metadata.MonitorRuns

namespace MonoRuntime.Monitor

open Interleaving

variable {Tid : Type}

/-! ### Where only the owner is -/

/-- A thread has seen that it is the owner, and has not given up the lock since. -/
def Pc.holds (pc : Pc) : Bool :=
  match pc with
  | .enter _ .assertNest => true
  | .enter _ .countedAssertNest => true
  | .enter _ .ownedDecrementCount => true
  | .enter _ .readNest => true
  | .enter _ (.writeNest _) => true
  | .exit _ .readNest => true
  | .exit _ (.writeNest _) => true
  | .exit _ .clearOwner => true
  | .exit (some _) .readOwner => true
  | .fast .enterReadNest => true
  | .fast (.enterWriteNest _) => true
  | .fast .exitReadNest => true
  | .fast (.exitWriteNest _) => true
  | .fast .exitReadCount => true
  | .fast .exitClearOwner => true
  | .wait _ .createEvent => true
  | .wait _ .appendEvent => true
  | .wait _ .readNest => true
  | .wait _ .writeNest => true
  | .wait _ .restoreNest => true
  | .wait _ .pollEvent => true
  | .wait _ .removeEvent => true
  | .wait _ (.returns _) => true
  | .pulse _ .readList => true
  | .pulse _ (.removeEvent _) => true
  | _ => false

/-- What a step of a thread does to the owner. -/
structure OwnerStep (t : Tid) (s : Sync Tid) (thread : Thread) (s' : Sync Tid) (thread' : Thread) : Prop where
  owner : s'.owner = s.owner ∨ s.owner = none ∧ s'.owner = some t ∨ s.owner = some t ∧ s'.owner = none
  holds : thread'.pc.holds = true → s'.owner = some t

theorem OwnerStep.other {t u : Tid} {s s' : Sync Tid} {thread thread' : Thread}
    (turn : OwnerStep t s thread s' thread') (other : u ≠ t) (owner : s.owner = some u) : s'.owner = some u := by
  obtain same | ⟨free, -⟩ | ⟨self, -⟩ := turn.owner
  · rw [same, owner]
  · rw [free] at owner
    cases owner
  · rw [self] at owner
    exact absurd (Option.some.inj owner).symm other

theorem OwnerStep.was {t u : Tid} {s s' : Sync Tid} {thread thread' : Thread} (turn : OwnerStep t s thread s' thread')
    (other : u ≠ t) (owner : s'.owner = some u) : s.owner = some u := by
  obtain same | ⟨-, self⟩ | ⟨-, free⟩ := turn.owner
  · rw [← same, owner]
  · rw [self] at owner
    exact absurd (Option.some.inj owner).symm other
  · rw [free] at owner
    cases owner

/-! ### One step -/

section Steps

variable [DecidableEq Tid] {t : Tid} {choice : Choice} {s s' : Sync Tid} {levels : Nat} {thread' : Thread}

/-- Behind the wait on the semaphore a thread tries again, without a limit where it had none, or it leaves, and not with a
permit. -/
theorem EnterCall.decide_spec {call : EnterCall} {ret : WaitRet} {next : Pc}
    (decided : call.decide_ ret choice = some next) :
    (∃ ms, next = .enter { call with ms := ms } .contendedReadOwner ∧ (call.ms = none → ms = none)) ∨
      ret ≠ .object0 ∧ (next = call.interrupted ∨ next = .idle ∧ call.ms ≠ none) := by
  unfold EnterCall.decide_ at decided
  obtain ⟨ms, allowInterruption, wait⟩ := call
  cases ms with
  | some ms =>
    cases choice with
    | left left =>
      simp only at decided
      split_ifs at decided with bound again io
      · exact Or.inl ⟨some left, (Option.some.inj decided).symm, nofun⟩
      · exact Or.inr ⟨fun object0 => again (Or.inr object0), Or.inl (Option.some.inj decided).symm⟩
      · exact Or.inr ⟨fun object0 => again (Or.inr object0), Or.inr ⟨(Option.some.inj decided).symm, nofun⟩⟩
    | call | go | timeout | interrupt => cases decided
  | none =>
    cases choice with
    | go =>
      simp only at decided
      split_ifs at decided with again
      · exact Or.inl ⟨none, (Option.some.inj decided).symm, fun _ => rfl⟩
      · exact Or.inr ⟨fun object0 => again (Or.inr object0), Or.inl (Option.some.inj decided).symm⟩
    | interrupt =>
      simp only at decided
      split_ifs at decided with again
      refine Or.inr ⟨fun object0 => ?_, Or.inl (Option.some.inj decided).symm⟩
      rw [object0] at again
      cases again.2
    | call | timeout | left => cases decided

theorem EnterCall.decide_holds {call : EnterCall} {ret : WaitRet} {next : Pc}
    (decided : call.decide_ ret choice = some next) : next.holds = false := by
  obtain ⟨ms, rfl, -⟩ | ⟨-, rfl | ⟨rfl, -⟩⟩ := call.decide_spec decided
  · rfl
  · unfold EnterCall.interrupted
    split
    · rfl
    · rfl
  · rfl

theorem stepEnter_owner {call : EnterCall} {pc : EnterPc} (run : stepEnter t choice s levels call pc = some (s', thread'))
    (holds : (Pc.enter call pc).holds = true → s.owner = some t) : OwnerStep t s ⟨.enter call pc, levels⟩ s' thread' := by
  cases pc
  case decrementCount ret =>
    simp only [stepEnter, Option.map_eq_some_iff, Prod.mk.injEq] at run
    obtain ⟨next, decided, rfl, rfl⟩ := run
    refine ⟨Or.inl rfl, fun is => ?_⟩
    rw [EnterCall.decide_holds decided] at is
    cases is
  case blocked =>
    cases choice with
    | go =>
      simp only [stepEnter] at run
      split at run
      · obtain ⟨rfl, rfl⟩ := run
        exact ⟨Or.inl rfl, nofun⟩
      · cases run
    | timeout | interrupt =>
      obtain ⟨rfl, rfl⟩ := run
      exact ⟨Or.inl rfl, nofun⟩
    | call | left => cases run
  all_goals
    cases choice
    case go =>
      simp only [stepEnter] at run
      try split_ifs at run
      all_goals
        obtain ⟨rfl, rfl⟩ := run
        constructor <;> simp_all [Pc.holds, EnterCall.failed]
    all_goals cases run

theorem stepExit_owner {wait : Option WaitFrame} {pc : ExitPc}
    (run : stepExit t choice s levels wait pc = some (s', thread'))
    (holds : (Pc.exit wait pc).holds = true → s.owner = some t) : OwnerStep t s ⟨.exit wait pc, levels⟩ s' thread' := by
  have exited : (exited wait).holds = false := by
    unfold exited
    split
    · rfl
    · rfl
  cases pc
  all_goals
    cases choice
    case go =>
      simp only [stepExit] at run
      try split_ifs at run
      all_goals
        obtain ⟨rfl, rfl⟩ := run
        constructor
        · first | exact Or.inl rfl | exact Or.inr (Or.inr ⟨holds rfl, rfl⟩)
        · intro is
          first | (cases is; done) | (rw [exited] at is; cases is) | exact holds rfl | assumption
    all_goals cases run

theorem stepFast_owner {pc : FastPc} (run : stepFast t choice s levels pc = some (s', thread'))
    (holds : (Pc.fast pc).holds = true → s.owner = some t) : OwnerStep t s ⟨.fast pc, levels⟩ s' thread' := by
  cases pc
  all_goals
    cases choice
    case go =>
      simp only [stepFast] at run
      try split_ifs at run
      all_goals
        obtain ⟨rfl, rfl⟩ := run
        constructor <;> simp_all [Pc.holds]
    all_goals cases run

theorem stepWait_owner {frame : WaitFrame} {pc : WaitPc} (run : stepWait t choice s levels frame pc = some (s', thread'))
    (holds : (Pc.wait frame pc).holds = true → s.owner = some t) : OwnerStep t s ⟨.wait frame pc, levels⟩ s' thread' := by
  cases pc
  all_goals
    cases choice
    all_goals
      simp only [stepWait] at run
      try split_ifs at run
      all_goals
        first
        | cases run; done
        | obtain ⟨rfl, rfl⟩ := run
          constructor <;> simp_all [Pc.holds]

theorem stepPulse_owner {all : Bool} {pc : PulsePc} (run : stepPulse t choice s levels all pc = some (s', thread'))
    (holds : (Pc.pulse all pc).holds = true → s.owner = some t) : OwnerStep t s ⟨.pulse all pc, levels⟩ s' thread' := by
  cases choice with
  | go =>
    cases pc with
    | readOwner =>
      simp only [stepPulse] at run
      split_ifs at run with self
      · obtain ⟨rfl, rfl⟩ := run
        exact ⟨Or.inl rfl, fun _ => self⟩
      · obtain ⟨rfl, rfl⟩ := run
        exact ⟨Or.inl rfl, nofun⟩
    | readList =>
      simp only [stepPulse] at run
      split at run
      · obtain ⟨rfl, rfl⟩ := run
        exact ⟨Or.inl rfl, nofun⟩
      · obtain ⟨rfl, rfl⟩ := run
        exact ⟨Or.inl rfl, fun _ => holds rfl⟩
    | removeEvent event =>
      obtain ⟨rfl, rfl⟩ := run
      exact ⟨Or.inl rfl, fun _ => holds rfl⟩
  | call | timeout | interrupt | left => cases pc <;> cases run

theorem step_owner {thread : Thread} (run : step t choice s thread = some (s', thread'))
    (holds : thread.pc.holds = true → s.owner = some t) : OwnerStep t s thread s' thread' := by
  obtain ⟨pc, levels⟩ := thread
  cases pc with
  | idle =>
    cases choice with
    | call operation =>
      obtain ⟨rfl, rfl⟩ := run
      cases operation <;> exact ⟨Or.inl rfl, nofun⟩
    | go | timeout | interrupt | left => cases run
  | enter call pc => exact stepEnter_owner run holds
  | exit wait pc => exact stepExit_owner run holds
  | fast pc => exact stepFast_owner run holds
  | wait frame pc => exact stepWait_owner run holds
  | pulse all pc => exact stepPulse_owner run holds

/-- Whoever is where only the owner gets is the owner. -/
def OwnerInv (s : Sync Tid) (own : Tid → Thread) : Prop :=
  ∀ t, (own t).pc.holds = true → s.owner = some t

theorem OwnerStep.kept {own : Tid → Thread} (turn : OwnerStep t s (own t) s' thread') (inv : OwnerInv s own) :
    OwnerInv s' (Function.update own t thread') := by
  intro u holds
  by_cases same : u = t
  · subst same
    rw [Function.update_self] at holds
    exact turn.holds holds
  · rw [Function.update_of_ne same] at holds
    exact turn.other same (inv u holds)

end Steps

end MonoRuntime.Monitor
