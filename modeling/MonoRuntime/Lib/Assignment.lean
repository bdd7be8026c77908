/-
Module: MonoRuntime.Lib.Assignment
Purpose: Assignments of registers to items that are placed one after another. Two items may share a
  register only if they are apart; what is to be shown for each new item concerns the items that hold
  the register it takes.
Trusted boundary: none
Main exports: ConflictFree
-/
import Mathlib.Data.List.Basic

namespace MonoRuntime.Assignment

variable {α R S : Type*} {held : R → Prop} {apart : α → α → Prop} {reg reg' : α → R}
variable {items : List α}

/-- No two different items that hold the same register conflict. -/
def ConflictFree (held : R → Prop) (apart : α → α → Prop) (reg : α → R) (items : List α) : Prop :=
  ∀ v ∈ items, ∀ w ∈ items, v ≠ w → held (reg v) → reg v = reg w → apart v w

theorem conflictFree_nil : ConflictFree held apart reg [] :=
  fun _ member => absurd member List.not_mem_nil

theorem ConflictFree.release (free : ConflictFree held apart reg items)
    (keeps : ∀ v ∈ items, held (reg' v) → reg' v = reg v) : ConflictFree held apart reg' items := by
  intro v memberV w memberW different holds same
  have keepsV := keeps v memberV holds
  have keepsW := keeps w memberW (same ▸ holds)
  exact free v memberV w memberW different (keepsV ▸ holds) (by rw [← keepsV, same, keepsW])

/-- A new item may take a register if it is apart from every item that holds it. -/
theorem ConflictFree.take (symm : ∀ {v w}, apart v w → apart w v) (free : ConflictFree held apart reg items) {item : α}
    (clear : held (reg item) → ∀ v ∈ items, reg v = reg item → apart v item) :
    ConflictFree held apart reg (item :: items) := by
  intro v memberV w memberW different holds same
  rcases List.mem_cons.mp memberV with rfl | oldV
  · rcases List.mem_cons.mp memberW with rfl | oldW
    · exact absurd rfl different
    · exact symm (clear holds w oldW same.symm)
  · rcases List.mem_cons.mp memberW with rfl | oldW
    · exact clear (same ▸ holds) v oldV same
    · exact free v oldV w oldW different holds same

theorem ConflictFree.rename (free : ConflictFree held apart reg items) (held' : S → Prop) (final : α → S)
    (injective : ∀ v ∈ items, ∀ w ∈ items, held' (final v) → final v = final w →
      held (reg v) ∧ reg v = reg w) : ConflictFree held' apart final items := by
  intro v memberV w memberW different holds same
  obtain ⟨holds', same'⟩ := injective v memberV w memberW holds same
  exact free v memberV w memberW different holds' same'

theorem ConflictFree.subset {items' : List α} (free : ConflictFree held apart reg items)
    (subset : ∀ v ∈ items', v ∈ items) : ConflictFree held apart reg items' :=
  fun v memberV w memberW => free v (subset v memberV) w (subset w memberW)

end MonoRuntime.Assignment
