/-
Module: MonoRuntime.Lib.Traces
Purpose: Deterministic systems that perform events and may come to an end. Two systems have the same traces
  when every finite piece of the trace of one is the beginning of a piece of the trace of the other; a relation
  whose related states are led, in some steps each, to related states with the same events has that result.
Trusted boundary: none
Main exports: System
-/
import Mathlib.Data.List.Basic

namespace MonoRuntime

/-- A system: a step performs events and leads to a state, or ends the run. -/
structure System (S E : Type) where
  step : S → List E × Option S

namespace System

variable {S T U E : Type}

/-- Events come first. -/
def before (events : List E) (result : List E × Option S) : List E × Option S :=
  (events ++ result.1, result.2)

/-- The result of some steps, if a state is left. -/
def runFrom (next : S → List E × Option S) : Option S → List E × Option S
  | none => ([], none)
  | some s => next s

/-- The events of `n` steps, and the state behind them unless the run has ended. -/
def run (A : System S E) : Nat → S → List E × Option S
  | 0, s => ([], some s)
  | n + 1, s => before (A.step s).1 (runFrom (A.run n) (A.step s).2)

/-- The end of a run as an event. -/
def ending : Option S → List (Option E)
  | none => [none]
  | some _ => []

/-- The trace of `n` steps; its end is an event too. -/
def trace (A : System S E) (n : Nat) (s : S) : List (Option E) :=
  (A.run n s).1.map some ++ ending (A.run n s).2

/-- Each piece of one trace is the beginning of a piece of the other. -/
def SameTraces (A : System S E) (s : S) (B : System T E) (t : T) : Prop :=
  (∀ n, ∃ m, A.trace n s <+: B.trace m t) ∧ ∀ n, ∃ m, B.trace n t <+: A.trace m s

theorem SameTraces.refl (A : System S E) (s : S) : SameTraces A s A s :=
  ⟨fun n => ⟨n, List.prefix_rfl⟩, fun n => ⟨n, List.prefix_rfl⟩⟩

variable {A : System S E} {s s' : S} {B : System T E} {t : T} {events : List E} {k : Nat} {R : S → T → Prop}

theorem SameTraces.trans {C : System U E} {u : U} (first : SameTraces A s B t) (second : SameTraces B t C u) :
    SameTraces A s C u := by
  constructor
  · intro n
    obtain ⟨m, inB⟩ := first.1 n
    obtain ⟨l, inC⟩ := second.1 m
    exact ⟨l, inB.trans inC⟩
  · intro n
    obtain ⟨m, inB⟩ := second.2 n
    obtain ⟨l, inA⟩ := first.2 m
    exact ⟨l, inB.trans inA⟩

/-! ### Runs in pieces -/

theorem run_add_some (piece : A.run k s = (events, some s')) (n : Nat) : A.run (k + n) s = before events (A.run n s') := by
  induction k generalizing s events with
  | zero =>
    simp only [run, Prod.mk.injEq, Option.some.injEq] at piece
    obtain ⟨rfl, rfl⟩ := piece
    simp [before]
  | succ k ih =>
    rw [Nat.succ_add, run]
    rw [run] at piece
    cases next : (A.step s).2 with
    | none =>
      rw [next] at piece
      simp [before, runFrom] at piece
    | some s1 =>
      rw [next, runFrom] at piece
      rw [runFrom]
      have whole : A.run k s1 = ((A.run k s1).1, some s') := by
        simp only [before, Prod.mk.injEq] at piece
        rw [← piece.2]
      rw [ih whole]
      simp only [before, Prod.mk.injEq] at piece ⊢
      rw [← piece.1, List.append_assoc]
      simp only [and_self]

theorem run_add_none (piece : A.run k s = (events, none)) (n : Nat) : A.run (k + n) s = (events, none) := by
  induction k generalizing s events with
  | zero => simp [run] at piece
  | succ k ih =>
    rw [Nat.succ_add, run]
    rw [run] at piece
    cases next : (A.step s).2 with
    | none =>
      rw [next] at piece
      exact piece
    | some s1 =>
      rw [next, runFrom] at piece
      rw [runFrom]
      have whole : A.run k s1 = ((A.run k s1).1, none) := by
        simp only [before, Prod.mk.injEq] at piece
        rw [← piece.2]
      rw [ih whole, ← whole]
      exact piece

theorem trace_add_some (piece : A.run k s = (events, some s')) (n : Nat) :
    A.trace (k + n) s = events.map some ++ A.trace n s' := by
  rw [trace, trace, run_add_some piece n]
  simp [before]

theorem trace_of_some (piece : A.run k s = (events, some s')) : A.trace k s = events.map some := by
  rw [trace, piece]
  exact List.append_nil _

theorem trace_of_none (piece : A.run k s = (events, none)) : A.trace k s = events.map some ++ [none] := by
  rw [trace, piece]
  rfl

theorem trace_mono (A : System S E) (s : S) {n : Nat} (less : k ≤ n) : A.trace k s <+: A.trace n s := by
  obtain ⟨rest, rfl⟩ := Nat.exists_eq_add_of_le less
  cases piece : A.run k s with
  | mk events state =>
    cases state with
    | none =>
      have ended := trace_of_none (run_add_none piece rest)
      exact trace_of_none piece ▸ ended ▸ List.prefix_rfl
    | some s' =>
      have whole := trace_add_some piece rest
      exact trace_of_some piece ▸ whole ▸ List.prefix_append _ _

/-! ### Matching pieces -/

/-- Some steps of both systems perform the same events and lead to related states, or both end. -/
def Pieces (A : System S E) (B : System T E) (R : S → T → Prop) (s : S) (t : T) : Prop :=
  ∃ k j events, 0 < k ∧ 0 < j ∧
    ((∃ s' t', A.run k s = (events, some s') ∧ B.run j t = (events, some t') ∧ R s' t') ∨
      (A.run k s = (events, none) ∧ B.run j t = (events, none)))

/-- A relation whose related states have such pieces. -/
def Matched (A : System S E) (B : System T E) (R : S → T → Prop) : Prop :=
  ∀ s t, R s t → Pieces A B R s t

theorem Pieces.symm (pieces : Pieces A B R s t) :
    Pieces B A (fun t s => R s t) t s := by
  obtain ⟨k, j, events, steps1, steps2, ⟨s', t', runA, runB, related⟩ | ⟨runA, runB⟩⟩ := pieces
  · exact ⟨j, k, events, steps2, steps1, .inl ⟨t', s', runB, runA, related⟩⟩
  · exact ⟨j, k, events, steps2, steps1, .inr ⟨runB, runA⟩⟩

theorem prefix_of_matched (matched : Matched A B R) (n : Nat) : ∀ s t, R s t → ∃ m, A.trace n s <+: B.trace m t := by
  induction n using Nat.strongRecOn with
  | ind n ih =>
    intro s t related
    obtain ⟨k, j, events, steps, -, ⟨s', t', runA, runB, related'⟩ | ⟨runA, runB⟩⟩ := matched s t related
    · by_cases less : n ≤ k
      · refine ⟨j, (trace_mono A s less).trans ?_⟩
        exact trace_of_some runA ▸ trace_of_some runB ▸ List.prefix_rfl
      · -- The rest of the trace starts in related states.
        obtain ⟨rest, rfl⟩ := Nat.exists_eq_add_of_le (Nat.le_of_not_le less)
        obtain ⟨m, later⟩ := ih rest (by omega) s' t' related'
        refine ⟨j + m, ?_⟩
        rw [trace_add_some runA, trace_add_some runB]
        exact (List.prefix_append_right_inj _).2 later
    · refine ⟨j, (trace_mono A s (Nat.le_add_right n k)).trans ?_⟩
      have ended := trace_of_none (run_add_none runA n)
      rw [Nat.add_comm] at ended
      exact ended ▸ trace_of_none runB ▸ List.prefix_rfl

theorem sameTraces_of_matched (matched : Matched A B R) (related : R s t) : SameTraces A s B t := by
  constructor
  · intro n
    exact prefix_of_matched matched n s t related
  · intro n
    have back : Matched B A (fun t s => R s t) := fun t s related => (matched s t related).symm
    exact prefix_of_matched back n t s related

/-- One step of each system, with the same events, to related states or to the end of both. -/
theorem pieces_of_step (events : (A.step s).1 = (B.step t).1) (states : ((A.step s).2 = none ∧ (B.step t).2 = none) ∨
      ∃ s' t', (A.step s).2 = some s' ∧ (B.step t).2 = some t' ∧ R s' t') : Pieces A B R s t := by
  refine ⟨1, 1, (A.step s).1, Nat.one_pos, Nat.one_pos, ?_⟩
  rcases states with ⟨endA, endB⟩ | ⟨s', t', nextA, nextB, related⟩
  · right
    simp [run, before, runFrom, endA, endB, events]
  · left
    refine ⟨s', t', ?_, ?_, related⟩
    · simp [run, before, runFrom, nextA]
    · simp [run, before, runFrom, nextB, events]

theorem pieces_of_twoSteps (first : (A.step s).2 = some s') (events : (A.step s).1 ++ (A.step s').1 = (B.step t).1)
    (states : ((A.step s').2 = none ∧ (B.step t).2 = none) ∨
      ∃ s'' t', (A.step s').2 = some s'' ∧ (B.step t).2 = some t' ∧ R s'' t') : Pieces A B R s t := by
  refine ⟨2, 1, (B.step t).1, Nat.two_pos, Nat.one_pos, ?_⟩
  rcases states with ⟨endA, endB⟩ | ⟨s'', t', nextA, nextB, related⟩
  · right
    simp [run, before, runFrom, first, endA, endB, events]
  · left
    refine ⟨s'', t', ?_, ?_, related⟩
    · simp [run, before, runFrom, first, nextA, events]
    · simp [run, before, runFrom, nextB]

end System

end MonoRuntime
