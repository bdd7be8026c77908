/-
Module: MonoRuntime.Lib.Fallible
Purpose: Computations on a state that may end with an error, or get stuck, with the total-correctness
  triples for them: from a state with the precondition the computation is not stuck, and where it has a
  result, the state and the result satisfy the postcondition.
Trusted boundary: none
Main exports: Fallible
-/
import Mathlib.Data.List.Basic

namespace MonoRuntime

/-- A computation on a state: `none` is a stuck one. -/
def Fallible (σ ε α : Type) : Type := σ → Option (σ × Except ε α)

namespace Fallible

variable {σ ε α β : Type}

instance : Monad (Fallible σ ε) where
  pure a := fun s => some (s, .ok a)
  bind m f := fun s =>
    match m s with
    | none => none
    | some (s, .error e) => some (s, .error e)
    | some (s, .ok a) => f a s

/-- End with an error. -/
def fail (e : ε) : Fallible σ ε α := fun s => some (s, .error e)

/-- Get stuck. -/
def stuck : Fallible σ ε α := fun _ => none

/-- Read the state. -/
def read (f : σ → α) : Fallible σ ε α := fun s => some (s, .ok (f s))

/-- Read the state with a function that may get stuck. -/
def readSome (f : σ → Option α) : Fallible σ ε α := fun s => (f s).map fun a => (s, .ok a)

/-- Change the state. -/
def update (f : σ → σ) : Fallible σ ε Unit := fun s => some (f s, .ok ())

/-- The computation is not stuck where `P` holds, and a result satisfies `Q`. -/
def Triple (P : σ → Prop) (m : Fallible σ ε α) (Q : α → σ → Prop) : Prop :=
  ∀ s, P s → ∃ s' r, m s = some (s', r) ∧ ∀ a, r = .ok a → Q a s'

section Rules

variable {P P' : σ → Prop} {Q Q' : α → σ → Prop} {R : β → σ → Prop}

theorem Triple.mono {m : Fallible σ ε α} (triple : Triple P m Q) (pre : ∀ s, P' s → P s)
    (post : ∀ a s, Q a s → Q' a s) : Triple P' m Q' := by
  intro s start
  obtain ⟨s', r, run, result⟩ := triple s (pre s start)
  exact ⟨s', r, run, fun a isOk => post a s' (result a isOk)⟩

theorem Triple.pre {m : Fallible σ ε α} (triple : Triple P m Q) (pre : ∀ s, P' s → P s) : Triple P' m Q :=
  triple.mono pre fun _ _ result => result

theorem triple_pure {a : α} (holds : ∀ s, P s → Q a s) : Triple P (pure a : Fallible σ ε α) Q :=
  fun s start => ⟨s, .ok a, rfl, fun _ isOk => by cases isOk; exact holds s start⟩

theorem triple_fail {e : ε} : Triple P (fail e : Fallible σ ε α) Q :=
  fun s _ => ⟨s, .error e, rfl, fun _ isOk => by cases isOk⟩

theorem triple_read {f : σ → α} (holds : ∀ s, P s → Q (f s) s) : Triple P (read f : Fallible σ ε α) Q :=
  fun s start => ⟨s, .ok (f s), rfl, fun _ isOk => by cases isOk; exact holds s start⟩

theorem triple_readSome {f : σ → Option α} (holds : ∀ s, P s → ∃ a, f s = some a ∧ Q a s) :
    Triple P (readSome f : Fallible σ ε α) Q := by
  intro s start
  obtain ⟨a, isSome, result⟩ := holds s start
  exact ⟨s, .ok a, by rw [readSome, isSome]; rfl, fun _ isOk => by cases isOk; exact result⟩

theorem triple_update {f : σ → σ} {Q : Unit → σ → Prop} (holds : ∀ s, P s → Q () (f s)) :
    Triple P (update f : Fallible σ ε Unit) Q :=
  fun s start => ⟨f s, .ok (), rfl, fun _ _ => holds s start⟩

theorem triple_bind {m : Fallible σ ε α} {f : α → Fallible σ ε β} (first : Triple P m Q)
    (second : ∀ a, Triple (Q a) (f a) R) : Triple P (m >>= f) R := by
  intro s start
  obtain ⟨s', r, run, result⟩ := first s start
  cases r with
  | error e => exact ⟨s', .error e, by simp [bind, run], fun _ isOk => by cases isOk⟩
  | ok a =>
    obtain ⟨s'', r', run', result'⟩ := second a s' (result a rfl)
    exact ⟨s'', r', by simp [bind, run, run'], result'⟩

theorem triple_forM {f : β → Fallible σ ε Unit} {I : List β → σ → Prop} : ∀ (todo done : List β),
      (∀ before b rest, done ++ todo = before ++ b :: rest →
        Triple (I before) (f b) fun _ => I (before ++ [b])) →
        Triple (I done) (todo.forM f) fun _ => I (done ++ todo)
  | [], done, _ => triple_pure fun _ start => by rw [List.append_nil]; exact start
  | b :: todo, done, step => by
      rw [List.forM_eq_forM, List.forM_cons]
      refine triple_bind (step done b todo rfl) fun _ => ?_
      have rest := triple_forM todo (done ++ [b]) fun before b' rest split =>
        step before b' rest (by rw [← split, List.append_assoc]; rfl)
      rwa [List.append_assoc] at rest

end Rules

end Fallible

end MonoRuntime
