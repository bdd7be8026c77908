/-
Module: MonoRuntime.Lib.Saturation
Purpose: A finite set that takes in what follows its members, in passes over all elements, until a pass adds nothing.
  Members that a pass adds may already count in the same pass. What comes out is the least set that holds the start
  and is closed.
Trusted boundary: none
Main exports: gather
-/
import Mathlib.Data.Fintype.Card
import Mathlib.Order.Bounds.Basic

namespace MonoRuntime.Saturation

variable {β : Type*} [DecidableEq β] (follow : β → Finset β)

/-- Add what follows the elements of a fixed set. -/
def gather (chosen : Finset β) (order : List β) (start : Finset β) : Finset β :=
  order.foldl (fun result b => if b ∈ chosen then result ∪ follow b else result) start

/-- Add what follows an element, if it is a member. -/
def absorb (result : Finset β) (b : β) : Finset β :=
  if b ∈ result then result ∪ follow b else result

/-- One pass: add what follows the members, those that the pass adds included. -/
def absorbAll (order : List β) (result : Finset β) : Finset β :=
  order.foldl (absorb follow) result

/-- Passes until the set does not grow, at most `fuel` of them. -/
def saturate (order : List β) : (fuel : Nat) → Finset β → Option (Finset β)
  | 0, _ => none
  | fuel + 1, result =>
      if result.card < (absorbAll follow order result).card then saturate order fuel (absorbAll follow order result)
      else some (absorbAll follow order result)

/-- What follows a member is a member. -/
def Closed (set : Set β) : Prop :=
  ∀ b ∈ set, ∀ c ∈ follow b, c ∈ set

variable {follow}

theorem mem_gather {chosen : Finset β} {a : β} : ∀ {order : List β} {start : Finset β},
    a ∈ gather follow chosen order start ↔ a ∈ start ∨ ∃ b ∈ order, b ∈ chosen ∧ a ∈ follow b
  | [], start => by simp [gather]
  | b :: order, start => by
      have rest := @mem_gather chosen a order (if b ∈ chosen then start ∪ follow b else start)
      rw [gather, List.foldl_cons, ← gather, rest]
      split
      next isChosen => simp [isChosen, or_assoc]
      next notChosen => simp [notChosen]

theorem subset_absorb (result : Finset β) (b : β) : result ⊆ absorb follow result b := by
  unfold absorb
  split
  · exact Finset.subset_union_left
  · exact Finset.Subset.refl result

theorem subset_absorbAll : ∀ (order : List β) (result : Finset β), result ⊆ absorbAll follow order result
  | [], result => Finset.Subset.refl result
  | b :: order, result => (subset_absorb result b).trans (subset_absorbAll order _)

theorem Closed.absorbAll {bound : Set β} (closed : Closed follow bound) : ∀ {order : List β} {result : Finset β},
    (∀ b ∈ result, b ∈ bound) → ∀ b ∈ absorbAll follow order result, b ∈ bound
  | [], _, inside => inside
  | b :: order, result, inside => by
      refine @Closed.absorbAll bound closed order _ ?_
      intro a member
      unfold absorb at member
      split at member
      next isMember =>
        rcases Finset.mem_union.mp member with old | new
        · exact inside a old
        · exact closed b (inside b isMember) a new
      next => exact inside a member

theorem closed_of_absorbAll {order : List β} {result : Finset β} (same : absorbAll follow order result = result) :
    ∀ b ∈ order, b ∈ result → ∀ c ∈ follow b, c ∈ result := by
  induction order with
  | nil => exact fun b member => nomatch member
  | cons first order ih =>
    have step : absorb follow result first = result :=
      Finset.Subset.antisymm
        ((subset_absorbAll order (absorb follow result first)).trans (Finset.subset_of_eq same))
        (subset_absorb result first)
    have rest : absorbAll follow order result = result := by
      rw [absorbAll, List.foldl_cons, step] at same
      exact same
    intro b member isMember c follows
    rcases List.mem_cons.mp member with rfl | later
    · rw [← step, absorb, if_pos isMember]
      exact Finset.mem_union_right _ follows
    · exact ih rest b later isMember c follows

theorem saturate_spec [Fintype β] {order : List β} (complete : ∀ b, b ∈ order) : ∀ (fuel : Nat) (result : Finset β),
    Fintype.card β < fuel + result.card → ∃ final, saturate follow order fuel result = some final ∧
        IsLeast {set : Set β | (∀ b ∈ result, b ∈ set) ∧ Closed follow set} {b | b ∈ final}
  | 0, result, enough => absurd enough (by have := result.card_le_univ; omega)
  | fuel + 1, result, enough => by
      rw [saturate]
      split
      next grows =>
        obtain ⟨final, run, ⟨starts, closed⟩, least⟩ :=
          saturate_spec complete fuel (absorbAll follow order result) (by omega)
        refine ⟨final, run, ⟨fun b member => starts b (subset_absorbAll order result member), closed⟩, ?_⟩
        rintro set ⟨inside, closedSet⟩
        exact least ⟨closedSet.absorbAll inside, closedSet⟩
      next stays =>
        have same : absorbAll follow order result = result :=
          (Finset.eq_of_subset_of_card_le (subset_absorbAll order result) (not_lt.mp stays)).symm
        rw [same]
        exact ⟨result, rfl, ⟨fun b member => member, fun b member => closed_of_absorbAll same b (complete b) member⟩,
          fun set inside b member => inside.1 b member⟩

end MonoRuntime.Saturation
