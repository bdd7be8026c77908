/-
Module: MonoRuntime.Lib.Interleaving
Purpose: Threads that take turns at steps on a shared state, each with a state of its own, in any order. What holds of all
  runs is shown for one step of one thread: what it keeps for itself, and that it does not interfere with the others.
  Sums over the threads follow a step by its own part.
Trusted boundary: none
Main exports: State
-/
import Mathlib.Algebra.Order.BigOperators.Group.Finset
import Mathlib.Algebra.Order.Ring.Int

namespace MonoRuntime.Interleaving

/-- What the threads share, and what each of them has. -/
structure State (Tid S L : Type) where
  shared : S
  own : Tid → L

/-- What a thread does on a choice: the shared state and its own behind its step, or nothing. -/
abbrev LocalStep (Tid C S L : Type) := Tid → C → S → L → Option (S × L)

/-- What is asked of a step, of the states in front of it. -/
abbrev Condition (Tid C S L : Type) := Tid → C → S → L → Prop

section Runs

variable {Tid C S L : Type} [DecidableEq Tid]

/-- The state behind a step of a thread. -/
def State.after (s : State Tid S L) (t : Tid) (next : S × L) : State Tid S L :=
  { shared := next.1, own := Function.update s.own t next.2 }

@[simp] theorem State.after_shared (s : State Tid S L) (t : Tid) (next : S × L) : (s.after t next).shared = next.1 :=
  rfl

@[simp] theorem State.after_own_self (s : State Tid S L) (t : Tid) (next : S × L) : (s.after t next).own t = next.2 :=
  Function.update_self ..

theorem State.after_own_of_ne {s : State Tid S L} {t u : Tid} {next : S × L} (other : u ≠ t) :
    (s.after t next).own u = s.own u :=
  Function.update_of_ne other ..

/-- The states that runs come to whose steps all meet a condition. Between the steps of the threads the world may change
the state. -/
inductive ReachedWith (step : LocalStep Tid C S L) (meets : Condition Tid C S L)
    (world : State Tid S L → State Tid S L → Prop) (start : State Tid S L → Prop) : State Tid S L → Prop where
  | start {s : State Tid S L} (is : start s) : ReachedWith step meets world start s
  | step {s : State Tid S L} (t : Tid) (choice : C) {next : S × L} (reached : ReachedWith step meets world start s)
      (met : meets t choice s.shared (s.own t)) (stepped : step t choice s.shared (s.own t) = some next) :
      ReachedWith step meets world start (s.after t next)
  | world {s s' : State Tid S L} (reached : ReachedWith step meets world start s) (changed : world s s') :
      ReachedWith step meets world start s'

/-- The states that runs of the threads alone come to. -/
abbrev Reached (step : LocalStep Tid C S L) (meets : Condition Tid C S L) (start : State Tid S L → Prop)
    (s : State Tid S L) : Prop :=
  ReachedWith step meets (fun _ _ => False) start s

variable {step : LocalStep Tid C S L} {meets : Condition Tid C S L} {world : State Tid S L → State Tid S L → Prop}
  {start : State Tid S L → Prop}

/-- What holds at the start and is kept by every step and by the world holds of every state that is reached. -/
theorem ReachedWith.invariant {inv : State Tid S L → Prop} {s : State Tid S L}
    (reached : ReachedWith step meets world start s) (initial : ∀ s, start s → inv s)
    (kept : ∀ s t choice next, inv s → meets t choice s.shared (s.own t) →
      step t choice s.shared (s.own t) = some next → inv (s.after t next))
    (keptByWorld : ∀ s s', inv s → world s s' → inv s') : inv s := by
  induction reached with
  | start is => exact initial _ is
  | step t choice _ met stepped ih => exact kept _ t choice _ ih met stepped
  | world _ changed ih => exact keptByWorld _ _ ih changed

/-- What holds at the start and is kept by every step holds of every state that is reached. -/
theorem Reached.invariant {inv : State Tid S L → Prop} {s : State Tid S L} (reached : Reached step meets start s)
    (initial : ∀ s, start s → inv s) (kept : ∀ s t choice next, inv s → meets t choice s.shared (s.own t) →
      step t choice s.shared (s.own t) = some next → inv (s.after t next)) : inv s :=
  ReachedWith.invariant reached initial kept fun _ _ _ changed => changed.elim

/-! ### What a thread has for itself alone -/

/-- No two threads have the same of something. -/
def Exclusive {K : Type} (has : L → Option K) (own : Tid → L) : Prop :=
  ∀ t u k, has (own t) = some k → has (own u) = some k → t = u

theorem Exclusive.update {K : Type} {has : L → Option K} {own : Tid → L} {t : Tid} {l : L}
    (exclusive : Exclusive has own) (gets : ∀ k, has l = some k → has (own t) = some k ∨ ∀ u, has (own u) ≠ some k) :
    Exclusive has (Function.update own t l) := by
  intro u v k hasU hasV
  rw [Function.update_apply] at hasU hasV
  split at hasU
  next u_ =>
    split at hasV
    next v_ => rw [u_, v_]
    next =>
      obtain had | nobody := gets k hasU
      · exact u_ ▸ exclusive t v k had hasV
      · exact absurd hasV (nobody v)
  next =>
    split at hasV
    next v_ =>
      obtain had | nobody := gets k hasV
      · exact v_ ▸ exclusive u t k hasU had
      · exact absurd hasU (nobody u)
    next => exact exclusive u v k hasU hasV

/-! ### Runs that are given -/

/-- A run by a schedule; nothing where a step does not meet the condition or is not possible. -/
def exec (step : LocalStep Tid C S L) (meets : Tid → C → S → L → Bool) :
    List (Tid × C) → State Tid S L → Option (State Tid S L)
  | [], s => some s
  | (t, choice) :: schedule, s =>
      if meets t choice s.shared (s.own t) then
        (step t choice s.shared (s.own t)).bind fun next => exec step meets schedule (s.after t next)
      else none

theorem ReachedWith.of_exec {check : Tid → C → S → L → Bool} {schedule : List (Tid × C)} {s s' : State Tid S L}
    (sound : ∀ t choice shared l, check t choice shared l = true → meets t choice shared l)
    (reached : ReachedWith step meets world start s) (run : exec step check schedule s = some s') :
    ReachedWith step meets world start s' := by
  induction schedule generalizing s with
  | nil =>
    obtain rfl := Option.some.inj run
    exact reached
  | cons turn schedule ih =>
    obtain ⟨t, choice⟩ := turn
    rw [exec] at run
    split at run
    next met =>
      obtain ⟨next, stepped, run⟩ := Option.bind_eq_some_iff.mp run
      exact ih (.step t choice reached (sound _ _ _ _ met) stepped) run
    next => cases run

end Runs

/-! ### Sums over the threads -/

section Sums

variable {Tid L : Type} [Fintype Tid]

/-- The sum of a number for every thread. -/
def total (weight : L → Int) (own : Tid → L) : Int :=
  ∑ t, weight (own t)

theorem total_update [DecidableEq Tid] (weight : L → Int) (own : Tid → L) (t : Tid) (l : L) :
    total weight (Function.update own t l) = total weight own - weight (own t) + weight l := by
  have whole : total weight own = weight (own t) + ∑ u ∈ Finset.univ.erase t, weight (own u) :=
    (Finset.add_sum_erase _ _ (Finset.mem_univ t)).symm
  have rest : total weight (Function.update own t l) = weight l + ∑ u ∈ Finset.univ.erase t, weight (own u) := by
    rw [total, ← Finset.add_sum_erase _ _ (Finset.mem_univ t), Function.update_self]
    refine congrArg _ (Finset.sum_congr rfl fun u member => ?_)
    rw [Function.update_of_ne (Finset.ne_of_mem_erase member)]
  omega

theorem weight_le_total {weight : L → Int} (positive : ∀ l, 0 ≤ weight l) (own : Tid → L) (t : Tid) :
    weight (own t) ≤ total weight own :=
  Finset.single_le_sum (fun u _ => positive (own u)) (Finset.mem_univ t)

end Sums

end MonoRuntime.Interleaving
