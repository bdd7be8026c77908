/-
Module: MonoRuntime.Lib.Simulation
Purpose: Runs of calls that may fail, held against an abstract state that is updated by the same calls.
Trusted boundary: none
Main exports: Simulates
-/

namespace MonoRuntime.Simulation

variable {S A C O : Type}

/-- The state after a run of calls and what each of them answered; nothing when a call fails. -/
def run (step : S → C → Option (S × O)) : S → List C → Option (S × List O)
  | s, [] => some (s, [])
  | s, call :: calls =>
      (step s call).bind fun next =>
        (run step next.1 calls).map fun rest => (rest.1, next.2 :: rest.2)

/-- The abstract state after the same calls. -/
def runAbstract (after : C → A → A) (a : A) (calls : List C) : A :=
  calls.foldl (fun a call => after call a) a

/-- No call of the run fails, each answers what the abstract state says, and every state that is
reached is good. -/
def Simulates (step : S → C → Option (S × O)) (after : C → A → A) (good : S → A → Prop)
    (answers : C → A → O → Prop) : S → A → List C → Prop
  | s, a, [] => good s a
  | s, a, call :: calls =>
      good s a ∧ ∃ s' o, step s call = some (s', o) ∧ answers call a o ∧
        Simulates step after good answers s' (after call a) calls

/-- Every call of the run meets a condition on the state that it finds. -/
def EveryCall (step : S → C → Option (S × O)) (meets : S → C → Prop) : S → List C → Prop
  | _, [] => True
  | s, call :: calls =>
      meets s call ∧ ∀ s' o, step s call = some (s', o) → EveryCall step meets s' calls

variable {step : S → C → Option (S × O)} {after : C → A → A}

/-- A call that meets the condition, followed by calls that meet it from its state on. -/
theorem EveryCall.cons {meets : S → C → Prop} {s s' : S} {o : O} {call : C} {calls : List C} (here : meets s call)
    (stepped : step s call = some (s', o)) (later : EveryCall step meets s' calls) :
    EveryCall step meets s (call :: calls) := by
  refine ⟨here, ?_⟩
  intro t answer same
  rw [stepped] at same
  cases same
  exact later

theorem simulates_of_step {good inv : S → A → Prop} {answers : C → A → O → Prop} {meets : S → C → Prop}
    (shows : ∀ {s a}, inv s a → good s a) (preserved : ∀ {s a call}, inv s a → meets s call →
      ∃ s' o, step s call = some (s', o) ∧ answers call a o ∧ inv s' (after call a))
    {s : S} {a : A} (calls : List C) (start : inv s a) (every : EveryCall step meets s calls) :
    Simulates step after good answers s a calls := by
  induction calls generalizing s a with
  | nil => exact shows start
  | cons call calls ih =>
    obtain ⟨here, later⟩ := every
    obtain ⟨s', o, stepped, answered, next⟩ := preserved start here
    exact ⟨shows start, s', o, stepped, answered, ih next (later s' o stepped)⟩

theorem Simulates.total {good : S → A → Prop} {answers : C → A → O → Prop} {s : S} {a : A} {calls : List C}
    (simulated : Simulates step after good answers s a calls) :
    ∃ s' os, run step s calls = some (s', os) ∧ good s' (runAbstract after a calls) := by
  induction calls generalizing s a with
  | nil => exact ⟨s, [], rfl, simulated⟩
  | cons call calls ih =>
    obtain ⟨-, s', o, stepped, -, later⟩ := simulated
    obtain ⟨t, os, ran, good⟩ := ih later
    refine ⟨t, o :: os, ?_, good⟩
    show (step s call).bind _ = _
    rw [stepped, Option.bind_some, ran]
    rfl

end MonoRuntime.Simulation
