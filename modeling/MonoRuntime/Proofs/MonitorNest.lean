/-
Module: MonoRuntime.Proofs.MonitorNest
Purpose: The nest count of a monitor is what its owner has entered minus what it has exited, as long as the count does not
  overflow: what holds of the owner and of another thread at every place, and that the steps keep it.
Trusted boundary: none
Main exports: WaitFrame.Sound
-/
import MonoRuntime.Proofs.MonitorOwner

namespace MonoRuntime.Monitor

variable {Tid : Type}

/-! ### Numbers -/

theorem addUint32_of_lt {nest : Nat} (few : nest + 1 < uint32Size) : addUint32 nest 1 = nest + 1 :=
  Nat.mod_eq_of_lt few

theorem predUint32_of_pos {nest : Nat} (positive : 1 ≤ nest) (few : nest < uint32Size) : predUint32 nest = nest - 1 := by
  unfold predUint32
  unfold uint32Size at *
  omega

/-! ### What holds at a place -/

/-- A wait has kept the nest count and the levels it was called with. -/
structure WaitFrame.Sound (frame : WaitFrame) : Prop where
  nest : frame.nest = frame.called
  levels : frame.levels = frame.called
  positive : 1 ≤ frame.called
  few : frame.called < uint32Size

/-- What the nest count and the levels of the owner are at a place. -/
def Pc.owned (pc : Pc) (nest levels : Nat) : Prop :=
  match pc with
  | .enter call .assertNest => nest = 1 ∧ levels = 1 ∧ ∀ frame, call.wait = some frame → frame.Sound
  | .enter call .countedAssertNest => nest = 1 ∧ levels = 1 ∧ ∀ frame, call.wait = some frame → frame.Sound
  | .enter call .ownedDecrementCount => nest = 1 ∧ levels = 1 ∧ ∀ frame, call.wait = some frame → frame.Sound
  | .enter call (.writeNest read) => call.wait = none ∧ nest = levels ∧ read = nest
  | .enter call _ => call.wait = none ∧ nest = levels
  | .exit none (.writeNest wrote) => nest = levels ∧ wrote = nest - 1 ∧ 2 ≤ nest
  | .exit none .clearOwner => nest = 1 ∧ levels = 1
  | .exit none _ => nest = levels
  | .exit (some frame) .readOwner => nest = 1 ∧ frame.Sound
  | .exit (some frame) .readNest => nest = 1 ∧ frame.Sound
  | .exit (some frame) .clearOwner => nest = 1 ∧ frame.Sound
  | .exit (some _) _ => False
  | .fast (.enterWriteNest read) => nest = levels ∧ read = nest
  | .fast (.exitWriteNest read) => nest = levels ∧ read = nest ∧ 2 ≤ nest
  | .fast .exitReadCount => nest = 1 ∧ levels = 1
  | .fast .exitClearOwner => nest = 1 ∧ levels = 1
  | .wait _ .readOwner => nest = levels
  | .wait frame .createEvent => nest = levels ∧ frame.called = nest ∧ frame.levels = levels
  | .wait frame .appendEvent => nest = levels ∧ frame.called = nest ∧ frame.levels = levels
  | .wait frame .readNest => nest = levels ∧ frame.called = nest ∧ frame.levels = levels
  | .wait frame .writeNest => frame.Sound
  | .wait frame .restoreNest => nest = 1 ∧ levels = 1 ∧ frame.Sound
  | .wait frame .pollEvent => nest = levels ∧ frame.called = nest ∧ frame.levels = levels
  | .wait frame .removeEvent => nest = levels ∧ frame.called = nest ∧ frame.levels = levels
  | .wait frame (.returns _) => nest = levels ∧ frame.called = nest ∧ frame.levels = levels
  | .wait _ _ => False
  | _ => nest = levels

/-- The wait that has given up the lock at a place. -/
def Pc.released (pc : Pc) : Option WaitFrame :=
  match pc with
  | .enter call _ => call.wait
  | .exit inWait _ => inWait
  | .wait frame .waitEvent => some frame
  | .wait frame .checkInterruption => some frame
  | .wait frame .regainInterrupted => some frame
  | _ => none

/-- The owner is where its levels fit the nest count. -/
structure Owns (nest : Nat) (thread : Thread) : Prop where
  positive : 1 ≤ thread.levels
  few : thread.levels < uint32Size
  owned : thread.pc.owned nest thread.levels

/-- A thread that is not the owner has no levels, and its wait has kept what it was called with. -/
structure Lacks (thread : Thread) : Prop where
  levels : thread.levels = 0
  holds : thread.pc.holds = false
  released : ∀ frame, thread.pc.released = some frame → frame.Sound

/-- What holds of a thread. -/
structure Fits (s : Sync Tid) (t : Tid) (thread : Thread) : Prop where
  owns : s.owner = some t → Owns s.nest thread
  lacks : s.owner ≠ some t → Lacks thread

variable {s s' : Sync Tid} {t : Tid} {thread thread' : Thread} {call : EnterCall} {levels : Nat}

theorem Fits.holds (fits : Fits s t thread) (holds : thread.pc.holds = true) : s.owner = some t := by
  by_contra other
  rw [(fits.lacks other).holds] at holds
  cases holds

theorem Fits.idle_of_enter {sync : Sync Tid} (fits : Fits sync t ⟨.enter call .readOwner, levels⟩) :
    Fits sync t ⟨.idle, levels⟩ where
  owns owner :=
    have owns := fits.owns owner
    ⟨owns.positive, owns.few, owns.owned.2⟩
  lacks other := ⟨(fits.lacks other).levels, rfl, nofun⟩

/-- What a step does to the nest count. -/
structure NestStep (t : Tid) (s s' : Sync Tid) (thread' : Thread) : Prop where
  fits : Fits s' t thread'
  free : s'.owner = none → s'.nest = 1
  kept : s.owner ≠ some t → s'.nest = s.nest

theorem NestStep.other {u : Tid} {other : Thread} (turn : OwnerStep t s thread s' thread')
    (nest : NestStep t s s' thread') (ne : u ≠ t) (fits : Fits s u other) : Fits s' u other where
  owns owner := by
    have was := turn.was ne owner
    have notSelf : s.owner ≠ some t := fun self => ne (Option.some.inj (was.symm.trans self))
    rw [nest.kept notSelf]
    exact fits.owns was
  lacks notOwner := fits.lacks fun owner => notOwner (turn.other ne owner)

theorem NestStep.still (free : s.owner = none → s.nest = 1) (fits : Fits s t thread) (owner : s'.owner = s.owner)
    (nest : s'.nest = s.nest) (owns : s.owner = some t → Owns s.nest thread → Owns s.nest thread')
    (lacks : s.owner ≠ some t → Lacks thread → Lacks thread') : NestStep t s s' thread' where
  fits :=
    { owns := fun self => by
        rw [owner] at self
        rw [nest]
        exact owns self (fits.owns self)
      lacks := fun other => by
        rw [owner] at other
        exact lacks other (fits.lacks other) }
  free none_ := by
    rw [nest]
    exact free (owner ▸ none_)
  kept _ := nest

/-- A step of the owner that leaves the monitor as it is. -/
theorem NestStep.owning {pc pc' : Pc} (free : s.owner = none → s.nest = 1) (fits : Fits s t ⟨pc, levels⟩)
    (self : s.owner = some t) (owner : s'.owner = s.owner) (nest : s'.nest = s.nest)
    (owned : pc.owned s.nest levels → pc'.owned s.nest levels) : NestStep t s s' ⟨pc', levels⟩ :=
  .still free fits owner nest (fun _ owns => ⟨owns.positive, owns.few, owned owns.owned⟩) fun other _ =>
    absurd self other

/-- A step of another thread, to a place where it has not given up the lock. -/
theorem NestStep.lacking {pc pc' : Pc} (free : s.owner = none → s.nest = 1) (fits : Fits s t ⟨pc, levels⟩)
    (other : s.owner ≠ some t) (owner : s'.owner = s.owner) (nest : s'.nest = s.nest) (holds : pc'.holds = false)
    (released : ∀ frame, pc'.released ≠ some frame) : NestStep t s s' ⟨pc', levels⟩ :=
  .still free fits owner nest (fun self => absurd self other) fun _ lacks =>
    ⟨lacks.levels, holds, fun frame is => absurd is (released frame)⟩

theorem NestStep.takes (free : s.owner = none → s.nest = 1) (fits : Fits s t thread) (none_ : s.owner = none)
    (owner : s'.owner = some t) (nest : s'.nest = s.nest) (levels : thread'.levels = thread.levels + 1)
    (owned : Lacks thread → thread'.pc.owned 1 1) : NestStep t s s' thread' where
  fits :=
    { owns := fun _ => by
        have lacks := fits.lacks (by rw [none_]; exact nofun)
        have one : thread'.levels = 1 := by rw [levels, lacks.levels]
        refine ⟨Nat.le_of_eq one.symm, by rw [one]; decide, ?_⟩
        rw [one, nest, free none_]
        exact owned lacks
      lacks := fun other => absurd owner other }
  free is := by
    rw [owner] at is
    cases is
  kept _ := nest

theorem NestStep.writes (self : s.owner = some t) (owner : s'.owner = s.owner) (owns : Owns s'.nest thread') :
    NestStep t s s' thread' where
  fits :=
    { owns := fun _ => owns
      lacks := fun other => absurd (owner.trans self) other }
  free none_ := by
    rw [owner, self] at none_
    cases none_
  kept other := absurd self other

theorem NestStep.gives (self : s.owner = some t) (owner : s'.owner = none) (one : s'.nest = 1)
    (lacks : Lacks thread') : NestStep t s s' thread' where
  fits :=
    { owns := fun is => by
        rw [owner] at is
        cases is
      lacks := fun _ => lacks }
  free _ := one
  kept other := absurd self other

theorem EnterCall.entered_owned (sound : ∀ frame, call.wait = some frame → frame.Sound) : call.entered.owned 1 1 := by
  unfold EnterCall.entered
  split
  · rfl
  · exact ⟨rfl, rfl, sound _ (by assumption)⟩

theorem EnterCall.leaves_lacks {pc : EnterPc} {next : Pc} (leaves : next = call.interrupted ∨ next = .idle)
    (lacks : Lacks ⟨.enter call pc, 0⟩) : Lacks ⟨next, 0⟩ := by
  obtain rfl | rfl := leaves
  · refine ⟨rfl, ?_, fun frame is => lacks.released frame ?_⟩
    · unfold EnterCall.interrupted
      split
      · rfl
      · rfl
    · unfold EnterCall.interrupted at is
      split at is
      · cases is
      · rename_i wait
        exact wait.trans is
  · exact ⟨rfl, rfl, nofun⟩

theorem exited_lacks {wait : Option WaitFrame} {pc : ExitPc} (lacks : Lacks ⟨.exit wait pc, 0⟩) :
    Lacks ⟨exited wait, 0⟩ := by
  cases wait with
  | none => exact ⟨rfl, rfl, nofun⟩
  | some frame => exact ⟨rfl, rfl, lacks.released⟩

/-- A step between places of an enter where a thread that owns the monitor already has nothing special. -/
theorem NestStep.goTo {call' : EnterCall} {pc pc' : EnterPc} (free : s.owner = none → s.nest = 1)
    (fits : Fits s t ⟨.enter call pc, levels⟩) (owner : s'.owner = s.owner) (nest : s'.nest = s.nest)
    (wait : call'.wait = call.wait)
    (before : ∀ nest levels, (Pc.enter call pc).owned nest levels → call.wait = none ∧ nest = levels)
    (after : ∀ nest levels, call.wait = none ∧ nest = levels → (Pc.enter call' pc').owned nest levels)
    (holds : (Pc.enter call' pc').holds = false) : NestStep t s s' ⟨.enter call' pc', levels⟩ :=
  .still free fits owner nest (fun _ owns => ⟨owns.positive, owns.few, after _ _ (before _ _ owns.owned)⟩)
    fun _ lacks => ⟨lacks.levels, holds, fun frame is => lacks.released frame (wait.symm.trans is)⟩

/-- The end of an exit that gave up the lock, or of one in which the thread has entered again. -/
theorem NestStep.exits {wait : Option WaitFrame} {pc : ExitPc} (free : s.owner = none → s.nest = 1)
    (fits : Fits s t ⟨.exit wait pc, levels⟩) (owner : s'.owner = s.owner) (nest : s'.nest = s.nest)
    (owned : ∀ nest levels, (Pc.exit wait pc).owned nest levels → (exited wait).owned nest levels) :
    NestStep t s s' ⟨exited wait, levels⟩ :=
  .still free fits owner nest (fun _ owns => ⟨owns.positive, owns.few, owned _ _ owns.owned⟩) fun _ lacks => by
    obtain rfl : levels = 0 := lacks.levels
    exact exited_lacks lacks

theorem NestStep.takesEvent {frame frame' : WaitFrame} (free : s.owner = none → s.nest = 1)
    (fits : Fits s t ⟨.wait frame .waitEvent, levels⟩) (owner : s'.owner = s.owner) (nest : s'.nest = s.nest)
    (sound : frame.Sound → frame'.Sound) : NestStep t s s' ⟨.wait frame' .checkInterruption, levels⟩ :=
  .still free fits owner nest (fun _ owns => owns.owned.elim) fun _ lacks =>
    ⟨lacks.levels, rfl, fun _ is => Option.some.inj is ▸ sound (lacks.released frame rfl)⟩

section Steps

variable [DecidableEq Tid] {t : Tid} {choice : Choice} {s s' : Sync Tid} {levels : Nat} {thread' : Thread}

theorem stepEnter_nest {call : EnterCall} {pc : EnterPc} (run : stepEnter t choice s levels call pc = some (s', thread'))
    (few : ∀ nest, pc = .writeNest nest → nest + 1 < uint32Size) (free : s.owner = none → s.nest = 1)
    (fits : Fits s t ⟨.enter call pc, levels⟩) : NestStep t s s' thread' := by
  cases pc
  case readOwner =>
    cases choice with
    | go =>
      simp only [stepEnter] at run
      split_ifs at run with none_ self zero
      · obtain ⟨rfl, rfl⟩ := run
        exact .goTo free fits rfl rfl rfl (fun _ _ => id) (fun _ _ => id) rfl
      · obtain ⟨rfl, rfl⟩ := run
        exact .owning free fits self rfl rfl id
      · obtain ⟨rfl, rfl⟩ := run
        exact .lacking free fits self rfl rfl rfl fun _ => (Option.some_ne_none _).symm
      · obtain ⟨rfl, rfl⟩ := run
        exact .goTo free fits rfl rfl rfl (fun _ _ => id) (fun _ _ => id) rfl
    | call | timeout | interrupt | left => cases run
  case contendedReadOwner =>
    cases choice with
    | go =>
      simp only [stepEnter] at run
      split_ifs at run with none_ self
      · obtain ⟨rfl, rfl⟩ := run
        exact .goTo free fits rfl rfl rfl (fun _ _ => id) (fun _ _ => id) rfl
      · obtain ⟨rfl, rfl⟩ := run
        exact .owning free fits self rfl rfl id
      · obtain ⟨rfl, rfl⟩ := run
        exact .goTo free fits rfl rfl rfl (fun _ _ => id) (fun _ _ => id) rfl
    | call | timeout | interrupt | left => cases run
  case swapOwner | contendedSwapOwner | countedSwapOwner =>
    cases choice with
    | go =>
      simp only [stepEnter] at run
      split_ifs at run with none_
      · obtain ⟨rfl, rfl⟩ := run
        exact .takes free fits none_ rfl rfl rfl fun lacks => ⟨rfl, rfl, lacks.released⟩
      · obtain ⟨rfl, rfl⟩ := run
        exact .goTo free fits rfl rfl rfl (fun _ _ => id) (fun _ _ => id) rfl
    | call | timeout | interrupt | left => cases run
  case readSem | installSem =>
    cases choice with
    | go =>
      simp only [stepEnter] at run
      split_ifs at run
      all_goals
        obtain ⟨rfl, rfl⟩ := run
        exact .goTo free fits rfl rfl rfl (fun _ _ => id) (fun _ _ => id) rfl
    | call | timeout | interrupt | left => cases run
  case incrementCount =>
    cases choice with
    | go =>
      obtain ⟨rfl, rfl⟩ := run
      exact .goTo free fits rfl rfl rfl (fun _ _ => id) (fun _ _ => id) rfl
    | call | timeout | interrupt | left => cases run
  case blocked =>
    cases choice with
    | go =>
      simp only [stepEnter] at run
      split at run
      · obtain ⟨rfl, rfl⟩ := run
        exact .goTo free fits rfl rfl rfl (fun _ _ => id) (fun _ _ => id) rfl
      · cases run
    | timeout | interrupt =>
      obtain ⟨rfl, rfl⟩ := run
      exact .goTo free fits rfl rfl rfl (fun _ _ => id) (fun _ _ => id) rfl
    | call | left => cases run
  case decrementCount ret =>
    simp only [stepEnter, Option.map_eq_some_iff, Prod.mk.injEq] at run
    obtain ⟨next, decided, rfl, rfl⟩ := run
    obtain ⟨ms, rfl, -⟩ | ⟨-, leaves⟩ := call.decide_spec decided
    · exact .goTo free fits rfl rfl rfl (fun _ _ => id) (fun _ _ => id) rfl
    · have leaves : next = call.interrupted ∨ next = .idle := leaves.imp_right And.left
      refine .still free fits rfl rfl (fun _ owns => ⟨owns.positive, owns.few, ?_⟩) fun _ lacks => ?_
      · obtain ⟨wait, nest⟩ := owns.owned
        obtain rfl | rfl := leaves
        · rw [EnterCall.interrupted, wait]
          exact nest
        · exact nest
      · obtain rfl : levels = 0 := lacks.levels
        exact EnterCall.leaves_lacks leaves lacks
  case assertNest =>
    cases choice with
    | go =>
      simp only [stepEnter] at run
      split_ifs at run with one
      obtain ⟨rfl, rfl⟩ := run
      refine .still free fits rfl rfl (fun _ owns => ⟨owns.positive, owns.few, ?_⟩) fun other _ =>
        absurd (fits.holds rfl) other
      obtain ⟨nest, rfl, sound⟩ := owns.owned
      rw [nest]
      exact EnterCall.entered_owned sound
    | call | timeout | interrupt | left => cases run
  case countedAssertNest =>
    cases choice with
    | go =>
      simp only [stepEnter] at run
      split_ifs at run with one
      obtain ⟨rfl, rfl⟩ := run
      exact .owning free fits (fits.holds rfl) rfl rfl id
    | call | timeout | interrupt | left => cases run
  case ownedDecrementCount =>
    cases choice with
    | go =>
      obtain ⟨rfl, rfl⟩ := run
      refine .still free fits rfl rfl (fun _ owns => ⟨owns.positive, owns.few, ?_⟩) fun other _ =>
        absurd (fits.holds rfl) other
      obtain ⟨nest, rfl, sound⟩ := owns.owned
      rw [nest]
      exact EnterCall.entered_owned sound
    | call | timeout | interrupt | left => cases run
  case readNest =>
    cases choice with
    | go =>
      obtain ⟨rfl, rfl⟩ := run
      exact .owning free fits (fits.holds rfl) rfl rfl (fun owned => ⟨owned.1, owned.2, rfl⟩)
    | call | timeout | interrupt | left => cases run
  case writeNest nest =>
    cases choice with
    | go =>
      obtain ⟨rfl, rfl⟩ := run
      have self : s.owner = some t := fits.holds rfl
      have owns := fits.owns self
      obtain ⟨wait, count, rfl⟩ := owns.owned
      have more := few _ rfl
      have count : s.nest = levels := count
      refine .writes self rfl ⟨Nat.le_add_left .., count ▸ more, ?_⟩
      rw [addUint32_of_lt more, EnterCall.entered, wait, count]
      rfl
    | call | timeout | interrupt | left => cases run

theorem stepExit_nest {wait : Option WaitFrame} {pc : ExitPc}
    (run : stepExit t choice s levels wait pc = some (s', thread')) (free : s.owner = none → s.nest = 1)
    (fits : Fits s t ⟨.exit wait pc, levels⟩) : NestStep t s s' thread' := by
  cases choice with
  | call | timeout | interrupt | left => cases pc <;> cases run
  | go =>
    cases pc with
    | readOwner =>
      simp only [stepExit] at run
      split_ifs at run with self
      · obtain ⟨rfl, rfl⟩ := run
        refine .still free fits rfl rfl (fun _ owns => ⟨owns.positive, owns.few, ?_⟩) fun other _ => absurd self other
        cases wait with
        | none | some frame => exact owns.owned
      · obtain ⟨rfl, rfl⟩ := run
        cases wait with
        | none =>
          exact .lacking free fits self rfl rfl rfl fun _ => (Option.some_ne_none _).symm
        | some frame => exact absurd (fits.holds rfl) self
    | readNest =>
      have self : s.owner = some t := fits.holds rfl
      have owns := fits.owns self
      have positive : 1 ≤ levels := owns.positive
      have few : levels < uint32Size := owns.few
      simp only [stepExit] at run
      cases wait with
      | none =>
        have nest : s.nest = levels := owns.owned
        rw [nest, predUint32_of_pos positive few] at run
        split_ifs at run with last
        · obtain ⟨rfl, rfl⟩ := run
          have one : levels = 1 := by omega
          exact .writes self rfl ⟨positive, few, nest.trans one, one⟩
        · obtain ⟨rfl, rfl⟩ := run
          exact .writes self rfl ⟨positive, few, nest, by rw [nest], by rw [nest]; omega⟩
      | some frame =>
        obtain ⟨one, sound⟩ := owns.owned
        rw [one, if_pos (by decide)] at run
        obtain ⟨rfl, rfl⟩ := run
        exact .writes self rfl ⟨positive, few, one, sound⟩
    | writeNest wrote =>
      have self : s.owner = some t := fits.holds rfl
      have owns := fits.owns self
      cases wait with
      | none =>
        obtain ⟨rfl, rfl⟩ := run
        obtain ⟨nest, rfl, two⟩ := owns.owned
        have nest : s.nest = levels := nest
        have few : levels < uint32Size := owns.few
        refine .writes self rfl ⟨?_, ?_, ?_⟩
        · change 1 ≤ levels - 1
          omega
        · change levels - 1 < uint32Size
          omega
        · change s.nest - 1 = levels - 1
          rw [nest]
      | some frame => exact owns.owned.elim
    | clearOwner =>
      have self : s.owner = some t := fits.holds rfl
      have owns := fits.owns self
      obtain ⟨rfl, rfl⟩ := run
      cases wait with
      | none =>
        obtain ⟨one, last⟩ := owns.owned
        have last : levels = 1 := last
        exact .gives self rfl one ⟨by rw [last]; rfl, rfl, (by rintro _ ⟨⟩)⟩
      | some frame =>
        obtain ⟨one, sound⟩ := owns.owned
        refine .gives self rfl one ⟨rfl, rfl, fun frame' is => ?_⟩
        obtain rfl := Option.some.inj is
        exact sound
    | readCount =>
      simp only [stepExit] at run
      split_ifs at run
      · obtain ⟨rfl, rfl⟩ := run
        refine .still free fits rfl rfl (fun _ owns => ⟨owns.positive, owns.few, ?_⟩) fun _ lacks =>
          ⟨lacks.levels, rfl, lacks.released⟩
        cases wait with
        | none | some frame => exact owns.owned
      · obtain ⟨rfl, rfl⟩ := run
        exact .exits free fits rfl rfl (by cases wait <;> exact fun _ _ => id)
    | releaseSem =>
      obtain ⟨rfl, rfl⟩ := run
      exact .exits free fits rfl rfl (by cases wait <;> exact fun _ _ => id)

theorem stepFast_nest {pc : FastPc} (run : stepFast t choice s levels pc = some (s', thread'))
    (few : ∀ nest, pc = .enterWriteNest nest → nest + 1 < uint32Size) (free : s.owner = none → s.nest = 1)
    (fits : Fits s t ⟨.fast pc, levels⟩) : NestStep t s s' thread' := by
  cases choice with
  | call | timeout | interrupt | left => cases pc <;> cases run
  | go =>
    cases pc with
    | enterReadOwner =>
      simp only [stepFast] at run
      split_ifs at run with none_ self
      · obtain ⟨rfl, rfl⟩ := run
        exact .still free fits rfl rfl (fun _ owns => ⟨owns.positive, owns.few, owns.owned⟩) fun _ lacks =>
          ⟨lacks.levels, rfl, (by rintro _ ⟨⟩)⟩
      · obtain ⟨rfl, rfl⟩ := run
        exact .owning free fits self rfl rfl id
      · obtain ⟨rfl, rfl⟩ := run
        exact .still free fits rfl rfl (fun _ owns => ⟨owns.positive, owns.few, rfl, owns.owned⟩) fun _ lacks =>
          ⟨lacks.levels, rfl, (by rintro _ ⟨⟩)⟩
    | enterSwapOwner =>
      simp only [stepFast] at run
      split_ifs at run with none_
      · obtain ⟨rfl, rfl⟩ := run
        exact .takes free fits none_ rfl rfl rfl fun _ => rfl
      · obtain ⟨rfl, rfl⟩ := run
        exact .still free fits rfl rfl (fun _ owns => ⟨owns.positive, owns.few, rfl, owns.owned⟩) fun _ lacks =>
          ⟨lacks.levels, rfl, (by rintro _ ⟨⟩)⟩
    | enterReadNest =>
      obtain ⟨rfl, rfl⟩ := run
      exact .owning free fits (fits.holds rfl) rfl rfl (fun owned => ⟨owned, rfl⟩)
    | enterWriteNest nest =>
      obtain ⟨rfl, rfl⟩ := run
      have self : s.owner = some t := fits.holds rfl
      obtain ⟨count, rfl⟩ := (fits.owns self).owned
      have more := few _ rfl
      have count : s.nest = levels := count
      refine .writes self rfl ⟨Nat.le_add_left .., count ▸ more, ?_⟩
      rw [addUint32_of_lt more, count]
      rfl
    | exitReadOwner =>
      simp only [stepFast] at run
      split_ifs at run with self
      · obtain ⟨rfl, rfl⟩ := run
        exact .owning free fits self rfl rfl id
      · obtain ⟨rfl, rfl⟩ := run
        exact .lacking free fits self rfl rfl rfl fun _ => (Option.some_ne_none _).symm
    | exitReadNest =>
      have self : s.owner = some t := fits.holds rfl
      have owns := fits.owns self
      have nest : s.nest = levels := owns.owned
      have positive : 1 ≤ levels := owns.positive
      simp only [stepFast] at run
      split_ifs at run with nested
      · obtain ⟨rfl, rfl⟩ := run
        exact .writes self rfl ⟨positive, owns.few, nest, rfl, nested⟩
      · obtain ⟨rfl, rfl⟩ := run
        have one : levels = 1 := by omega
        exact .writes self rfl ⟨positive, owns.few, nest.trans one, one⟩
    | exitWriteNest nest =>
      obtain ⟨rfl, rfl⟩ := run
      have self : s.owner = some t := fits.holds rfl
      have owns := fits.owns self
      obtain ⟨count, rfl, two⟩ := owns.owned
      have count : s.nest = levels := count
      have few' : levels < uint32Size := owns.few
      rw [count, predUint32_of_pos (by omega) few']
      refine .writes self rfl ⟨?_, ?_, rfl⟩
      · change 1 ≤ levels - 1
        omega
      · change levels - 1 < uint32Size
        omega
    | exitReadCount =>
      simp only [stepFast] at run
      split_ifs at run with none_
      · obtain ⟨rfl, rfl⟩ := run
        exact .owning free fits (fits.holds rfl) rfl rfl id
      · obtain ⟨rfl, rfl⟩ := run
        exact .owning free fits (fits.holds rfl) rfl rfl (fun owned => owned.1.trans owned.2.symm)
    | exitClearOwner =>
      obtain ⟨rfl, rfl⟩ := run
      have self : s.owner = some t := fits.holds rfl
      obtain ⟨one, last⟩ := (fits.owns self).owned
      have last : levels = 1 := last
      exact .gives self rfl one ⟨by rw [last], rfl, (by rintro _ ⟨⟩)⟩

theorem stepWait_nest {frame : WaitFrame} {pc : WaitPc}
    (run : stepWait t choice s levels frame pc = some (s', thread')) (free : s.owner = none → s.nest = 1)
    (fits : Fits s t ⟨.wait frame pc, levels⟩) : NestStep t s s' thread' := by
  cases choice
  case go =>
    cases pc with
    | readOwner =>
      simp only [stepWait] at run
      split_ifs at run with self
      · obtain ⟨rfl, rfl⟩ := run
        exact .owning free fits self rfl rfl (fun owned => ⟨owned, rfl, rfl⟩)
      · obtain ⟨rfl, rfl⟩ := run
        exact .lacking free fits self rfl rfl rfl fun _ => (Option.some_ne_none _).symm
    | createEvent | appendEvent | removeEvent =>
      obtain ⟨rfl, rfl⟩ := run
      exact .owning free fits (fits.holds rfl) rfl rfl id
    | readNest =>
      obtain ⟨rfl, rfl⟩ := run
      refine .still free fits rfl rfl (fun _ owns => ⟨owns.positive, owns.few, ?_⟩) fun other _ =>
        absurd (fits.holds rfl) other
      obtain ⟨nest, called, kept⟩ := owns.owned
      exact ⟨called.symm, by rw [kept, called, nest], by rw [called, nest]; exact owns.positive,
        by rw [called, nest]; exact owns.few⟩
    | writeNest =>
      obtain ⟨rfl, rfl⟩ := run
      have self : s.owner = some t := fits.holds rfl
      have owns := fits.owns self
      exact .writes self rfl ⟨owns.positive, owns.few, rfl, owns.owned⟩
    | waitEvent =>
      simp only [stepWait] at run
      split_ifs at run
      obtain ⟨rfl, rfl⟩ := run
      exact .takesEvent free fits rfl rfl (fun sound => ⟨sound.nest, sound.levels, sound.positive, sound.few⟩)
    | checkInterruption | regainInterrupted =>
      obtain ⟨rfl, rfl⟩ := run
      exact .still free fits rfl rfl (fun _ owns => owns.owned.elim) fun _ lacks => ⟨lacks.levels, rfl, lacks.released⟩
    | restoreNest =>
      obtain ⟨rfl, rfl⟩ := run
      have self : s.owner = some t := fits.holds rfl
      obtain ⟨-, -, sound⟩ := (fits.owns self).owned
      refine .writes self rfl ⟨?_, ?_, ?_⟩
      · exact sound.levels ▸ sound.positive
      · exact sound.levels ▸ sound.few
      · have all : frame.nest = frame.levels ∧ frame.called = frame.nest ∧ frame.levels = frame.levels :=
          ⟨sound.nest.trans sound.levels.symm, sound.nest.symm, rfl⟩
        cases frame.ret with
        | object0 | timeout | ioCompletion => exact all
    | pollEvent =>
      simp only [stepWait] at run
      split_ifs at run
      all_goals
        obtain ⟨rfl, rfl⟩ := run
        exact .owning free fits (fits.holds rfl) rfl rfl id
    | returns success =>
      obtain ⟨rfl, rfl⟩ := run
      exact .owning free fits (fits.holds rfl) rfl rfl (fun owned => owned.1)
  case timeout =>
    cases pc
    case waitEvent =>
      simp only [stepWait] at run
      split_ifs at run
      obtain ⟨rfl, rfl⟩ := run
      exact .takesEvent free fits rfl rfl (fun sound => ⟨sound.nest, sound.levels, sound.positive, sound.few⟩)
    all_goals cases run
  case interrupt =>
    cases pc
    case createEvent | appendEvent =>
      obtain ⟨rfl, rfl⟩ := run
      exact .owning free fits (fits.holds rfl) rfl rfl (fun owned => owned.1)
    case waitEvent =>
      obtain ⟨rfl, rfl⟩ := run
      exact .takesEvent free fits rfl rfl (fun sound => ⟨sound.nest, sound.levels, sound.positive, sound.few⟩)
    case checkInterruption | regainInterrupted =>
      obtain ⟨rfl, rfl⟩ := run
      exact .still free fits rfl rfl (fun _ owns => owns.owned.elim) fun _ lacks => ⟨lacks.levels, rfl, (by rintro _ ⟨⟩)⟩
    all_goals cases run
  all_goals
    cases pc
    all_goals cases run

theorem stepPulse_nest {all : Bool} {pc : PulsePc} (run : stepPulse t choice s levels all pc = some (s', thread'))
    (free : s.owner = none → s.nest = 1) (fits : Fits s t ⟨.pulse all pc, levels⟩) : NestStep t s s' thread' := by
  cases choice with
  | call | timeout | interrupt | left => cases pc <;> cases run
  | go =>
    cases pc with
    | readOwner =>
      simp only [stepPulse] at run
      split_ifs at run with self
      · obtain ⟨rfl, rfl⟩ := run
        exact .owning free fits self rfl rfl id
      · obtain ⟨rfl, rfl⟩ := run
        exact .lacking free fits self rfl rfl rfl fun _ => (Option.some_ne_none _).symm
    | readList =>
      simp only [stepPulse] at run
      split at run
      all_goals
        obtain ⟨rfl, rfl⟩ := run
        exact .owning free fits (fits.holds rfl) rfl rfl id
    | removeEvent event =>
      obtain ⟨rfl, rfl⟩ := run
      refine .still free fits rfl rfl (fun _ owns => ⟨owns.positive, owns.few, ?_⟩) fun other _ =>
        absurd (fits.holds rfl) other
      cases all with
      | true | false => exact owns.owned

theorem step_nest {thread : Thread} (run : step t choice s thread = some (s', thread'))
    (fewEnter : ∀ call nest, thread.pc = .enter call (.writeNest nest) → nest + 1 < uint32Size)
    (fewFast : ∀ nest, thread.pc = .fast (.enterWriteNest nest) → nest + 1 < uint32Size)
    (free : s.owner = none → s.nest = 1) (fits : Fits s t thread) : NestStep t s s' thread' := by
  obtain ⟨pc, levels⟩ := thread
  cases pc with
  | idle =>
    cases choice with
    | call operation =>
      obtain ⟨rfl, rfl⟩ := run
      cases operation with
      | enter ms allowInterruption =>
        exact .still free fits rfl rfl (fun _ owns => ⟨owns.positive, owns.few, rfl, owns.owned⟩) fun _ lacks =>
          ⟨lacks.levels, rfl, nofun⟩
      | exit | fastEnter | fastExit | wait ms | pulse all =>
        exact .still free fits rfl rfl (fun _ owns => ⟨owns.positive, owns.few, owns.owned⟩) fun _ lacks =>
          ⟨lacks.levels, rfl, nofun⟩
    | go | timeout | interrupt | left => cases run
  | enter call pc => exact stepEnter_nest run (fun nest at_ => fewEnter call nest (by rw [at_])) free fits
  | exit wait pc => exact stepExit_nest run free fits
  | fast pc => exact stepFast_nest run (fun nest at_ => fewFast nest (by rw [at_])) free fits
  | wait frame pc => exact stepWait_nest run free fits
  | pulse all pc => exact stepPulse_nest run free fits

end Steps

end MonoRuntime.Monitor
