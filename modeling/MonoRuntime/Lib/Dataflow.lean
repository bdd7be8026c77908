/-
Module: MonoRuntime.Lib.Dataflow
Purpose: Backward dataflow problems with gen and kill sets over any graph. Liveness is defined by paths:
  an element is live into a block if some path from it reaches a block that generates the element
  before one that kills it. The live sets are the least solution of the dataflow equations, and an
  approximation from below that is closed under the equations is that solution.
Trusted boundary: none
Main exports: Problem
-/
import Mathlib.Data.Set.Lattice

namespace MonoRuntime.Dataflow

variable {β ν : Type*}

/-- The successors of the blocks of a graph and their gen and kill sets. -/
structure Problem (β ν : Type*) where
  succ : β → β → Prop
  gen : β → Set ν
  kill : β → Set ν

variable (p : Problem β ν)

/-- `x` is live into a block. -/
inductive LiveIn (x : ν) : β → Prop where
  | gen {b : β} (generated : x ∈ p.gen b) : LiveIn x b
  | pass {b s : β} (edge : p.succ b s) (live : LiveIn x s) (kept : x ∉ p.kill b) : LiveIn x b

/-- `x` is live out of a block. -/
def LiveOut (x : ν) (b : β) : Prop :=
  ∃ s, p.succ b s ∧ LiveIn p x s

/-- The dataflow equations. -/
structure IsSolution (liveIn liveOut : β → Set ν) : Prop where
  out_eq : ∀ b, liveOut b = {x | ∃ s, p.succ b s ∧ x ∈ liveIn s}
  in_eq : ∀ b, liveIn b = p.gen b ∪ (liveOut b \ p.kill b)

/-- A solution that is contained in every solution. -/
structure IsLeastSolution (liveIn liveOut : β → Set ν) : Prop where
  solution : IsSolution p liveIn liveOut
  in_least : ∀ {liveIn' liveOut'}, IsSolution p liveIn' liveOut' → ∀ b, liveIn b ⊆ liveIn' b
  out_least : ∀ {liveIn' liveOut'}, IsSolution p liveIn' liveOut' → ∀ b, liveOut b ⊆ liveOut' b

/-- The equations as inclusions: nothing is missing. -/
structure IsClosed (liveIn liveOut : β → Set ν) : Prop where
  out_closed : ∀ {b s x}, p.succ b s → x ∈ liveIn s → x ∈ liveOut b
  in_closed : ∀ b, p.gen b ∪ (liveOut b \ p.kill b) ⊆ liveIn b

variable {p} {liveIn liveOut : β → Set ν}

theorem IsSolution.isClosed (solution : IsSolution p liveIn liveOut) : IsClosed p liveIn liveOut where
  out_closed := by
    intro b s x edge member
    rw [solution.out_eq]
    exact ⟨s, edge, member⟩
  in_closed := fun b => (solution.in_eq b).ge

theorem IsClosed.of_liveIn (closed : IsClosed p liveIn liveOut) {x : ν} {b : β} (live : LiveIn p x b) : x ∈ liveIn b := by
  induction live with
  | gen generated => exact closed.in_closed _ (Or.inl generated)
  | pass edge _ kept ih => exact closed.in_closed _ (Or.inr ⟨closed.out_closed edge ih, kept⟩)

theorem IsClosed.of_liveOut (closed : IsClosed p liveIn liveOut) {x : ν} {b : β}
    (live : LiveOut p x b) : x ∈ liveOut b := by
  obtain ⟨s, edge, live⟩ := live
  exact closed.out_closed edge (closed.of_liveIn live)

theorem isSolution_live :
    IsSolution p (fun b => {x | LiveIn p x b}) (fun b => {x | LiveOut p x b}) where
  out_eq := fun _ => rfl
  in_eq := by
    intro b
    ext x
    constructor
    · intro live
      cases live with
      | gen generated => exact Or.inl generated
      | pass edge live kept => exact Or.inr ⟨⟨_, edge, live⟩, kept⟩
    · rintro (generated | ⟨⟨s, edge, live⟩, kept⟩)
      · exact LiveIn.gen generated
      · exact LiveIn.pass edge live kept

theorem isLeastSolution_live :
    IsLeastSolution p (fun b => {x | LiveIn p x b}) (fun b => {x | LiveOut p x b}) where
  solution := isSolution_live
  in_least := fun solution _ _ live => solution.isClosed.of_liveIn live
  out_least := fun solution _ _ live => solution.isClosed.of_liveOut live

theorem isLeastSolution_of_closed (closed : IsClosed p liveIn liveOut) (in_sound : ∀ b, ∀ x ∈ liveIn b, LiveIn p x b)
    (out_sound : ∀ b, ∀ x ∈ liveOut b, LiveOut p x b) : IsLeastSolution p liveIn liveOut := by
  have in_eq : liveIn = fun b => {x | LiveIn p x b} :=
    funext fun b => Set.ext fun x => ⟨in_sound b x, closed.of_liveIn⟩
  have out_eq : liveOut = fun b => {x | LiveOut p x b} :=
    funext fun b => Set.ext fun x => ⟨out_sound b x, closed.of_liveOut⟩
  rw [in_eq, out_eq]
  exact isLeastSolution_live

theorem LiveIn.exists_gen {x : ν} {b : β} (live : LiveIn p x b) : ∃ c, x ∈ p.gen c := by
  induction live with
  | gen generated => exact ⟨_, generated⟩
  | pass _ _ _ ih => exact ih

end MonoRuntime.Dataflow
