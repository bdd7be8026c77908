/-
Module: MonoRuntime.Lib.LinkedList
Purpose: Lists whose cells have the link to the next one, as a function on the cells: the cells from a first one on, what a
  change of links leaves, and the cells put in front.
Trusted boundary: none
Main exports: Linked
-/
import Mathlib.Data.List.Nodup

namespace MonoRuntime.LinkedList

variable {α : Type}

/-- The cells that the links lead through from a first one on. -/
def Linked (next : α → Option α) : Option α → List α → Prop
  | first, [] => first = none
  | first, cell :: cells => first = some cell ∧ Linked next (next cell) cells

variable {next : α → Option α} {cells : List α} {cell : α} {first : Option α}

theorem Linked.eq_nil (linked : Linked next none cells) : cells = [] := by
  cases cells with
  | nil => rfl
  | cons cell cells => cases linked.1

theorem Linked.eq_cons (linked : Linked next (some cell) cells) :
    ∃ rest, cells = cell :: rest ∧ Linked next (next cell) rest := by
  cases cells with
  | nil => cases linked
  | cons first rest =>
    obtain ⟨same, linked⟩ := linked
    obtain rfl := Option.some.inj same
    exact ⟨rest, rfl, linked⟩

theorem Linked.congr {next' : α → Option α} (linked : Linked next first cells)
    (same : ∀ cell ∈ cells, next' cell = next cell) : Linked next' first cells := by
  induction cells generalizing first with
  | nil => exact linked
  | cons cell cells ih =>
    refine ⟨linked.1, ?_⟩
    rw [same cell List.mem_cons_self]
    exact ih linked.2 fun cell' member => same cell' (List.mem_cons_of_mem _ member)

theorem Linked.cons {next' : α → Option α} (linked : Linked next first cells) (front : next' cell = first)
    (same : ∀ other ∈ cells, next' other = next other) : Linked next' (some cell) (cell :: cells) :=
  ⟨rfl, front ▸ linked.congr same⟩

theorem Linked.range {next : Nat → Option Nat} (first count : Nat)
    (follows : ∀ cell, first ≤ cell → cell < first + count → next cell = some (cell + 1))
    (last : next (first + count) = none) : Linked next (some first) (List.range' first (count + 1)) := by
  induction count generalizing first with
  | zero => exact ⟨rfl, last⟩
  | succ count ih =>
    refine ⟨rfl, ?_⟩
    rw [follows first (Nat.le_refl _) (by omega)]
    refine ih (first + 1) (fun cell low high => follows cell (by omega) (by omega)) ?_
    rw [← last]
    congr 1
    omega

theorem Linked.mem_of_follows {cell' : α} (linked : Linked next first cells) (member : cell ∈ cells)
    (follows : next cell = some cell') : cell' ∈ cells := by
  induction cells generalizing first with
  | nil => cases member
  | cons head cells ih =>
    refine List.mem_cons_of_mem _ ?_
    obtain rfl | member := List.mem_cons.mp member
    · obtain ⟨rest, rfl, -⟩ := Linked.eq_cons (follows ▸ linked.2)
      exact List.mem_cons_self
    · exact ih linked.2 member

end MonoRuntime.LinkedList
