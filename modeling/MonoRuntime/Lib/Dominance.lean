/-
Module: MonoRuntime.Lib.Dominance
Purpose: Dominance in a graph with an entry, by paths, and the iteration of its equations on sets: every
  node starts with all nodes, and a refinement keeps what the predecessors agree on. Whatever the order
  of the refinements, the sets only shrink, and when nothing changes they hold dominators only.
Trusted boundary: none
Main exports: Dominates
-/
import Mathlib.Order.OrderIsoNat
import Mathlib.Data.Fintype.Powerset
import Mathlib.Data.Finite.Prod

namespace MonoRuntime.Dominance

open List

variable {β : Type*} (edge : β → β → Prop) (entry : β)

/-- A path from the entry, the last node first. -/
inductive Walk : List β → β → Prop where
  | start : Walk [entry] entry
  | step {path : List β} {p b : β} (walk : Walk path p) (along : edge p b) : Walk (b :: path) b

/-- Every path from the entry to `b` passes through `a`. -/
def Dominates (a b : β) : Prop :=
  ∀ path, Walk edge entry path b → a ∈ path

/-- `d` is the closest strict dominator of `b`. -/
structure IsIdom (d b : β) : Prop where
  strict : d ≠ b
  dominates : Dominates edge entry d b
  closest : ∀ a, a ≠ b → Dominates edge entry a b → Dominates edge entry a d

variable {edge entry}

variable {path : List β} {b a : β} {D : β → Set β}

theorem Walk.end_mem (walk : Walk edge entry path b) : b ∈ path := by
  cases walk with
  | start | step _ _ => exact mem_cons_self

theorem Walk.entry_mem (walk : Walk edge entry path b) : entry ∈ path := by
  induction walk with
  | start => exact mem_cons_self
  | step _ _ ih => exact mem_cons_of_mem _ ih

theorem dominates_refl (b : β) : Dominates edge entry b b :=
  fun _ walk => walk.end_mem

theorem dominates_of_entry (b : β) : Dominates edge entry entry b :=
  fun _ walk => walk.entry_mem

theorem Dominates.eq_entry (dominates : Dominates edge entry a entry) : a = entry :=
  mem_singleton.mp (dominates [entry] Walk.start)

theorem Dominates.pred {p : β} (dominates : Dominates edge entry a b) (strict : a ≠ b)
    (along : edge p b) : Dominates edge entry a p := by
  intro path walk
  exact (mem_cons.mp (dominates (b :: path) (Walk.step walk along))).resolve_left strict

theorem Walk.up_to (walk : Walk edge entry path b) (member : a ∈ path) :
    ∃ path', Walk edge entry path' a ∧ path' ⊆ path := by
  induction walk with
  | start =>
    rw [mem_singleton.mp member]
    exact ⟨[entry], Walk.start, List.Subset.refl _⟩
  | @step path p b walk along ih =>
    rcases mem_cons.mp member with rfl | earlier
    · exact ⟨a :: path, Walk.step walk along, List.Subset.refl _⟩
    · obtain ⟨path', walk', inside⟩ := ih earlier
      exact ⟨path', walk', subset_cons_of_subset b inside⟩

theorem Dominates.trans {c : β} (first : Dominates edge entry a b) (second : Dominates edge entry b c) :
    Dominates edge entry a c := by
  intro path walk
  obtain ⟨path', walk', inside⟩ := walk.up_to (second path walk)
  exact inside (first path' walk')

theorem dominates_of_only_pred {p : β} (notEntry : b ≠ entry) (only : ∀ q, edge q b → q = p)
    (dominates : Dominates edge entry a p) : Dominates edge entry a b := by
  intro path walk
  cases walk with
  | start => exact absurd rfl notEntry
  | step walk along => exact mem_cons_of_mem _ (dominates _ (only _ along ▸ walk))

/-- What dominates a node comes in a row. -/
theorem Dominates.total {c : β} (first : Dominates edge entry a c) (reachable : ∃ path, Walk edge entry path c)
    (second : Dominates edge entry b c) : Dominates edge entry a b ∨ Dominates edge entry b a := by
  by_contra neither
  simp only [not_or, Dominates, not_forall] at neither
  obtain ⟨⟨pathB, walkB, withoutA⟩, pathA, walkA, withoutB⟩ := neither
  -- A path goes on without one of the two from the last place where it meets the other.
  have avoids : ∀ {path d}, Walk edge entry path d → ∃ path', Walk edge entry path' d ∧ (a ∉ path' ∨ b ∉ path') := by
    intro path d walk
    induction walk with
    | start => exact ⟨[entry], .start, .inl fun member => withoutA (mem_singleton.mp member ▸ walkB.entry_mem)⟩
    | @step path p d _ along ih =>
      by_cases isA : d = a
      · exact ⟨pathA, isA ▸ walkA, .inr withoutB⟩
      by_cases isB : d = b
      · exact ⟨pathB, isB ▸ walkB, .inl withoutA⟩
      obtain ⟨path', walk', without⟩ := ih
      exact ⟨d :: path', .step walk' along,
        without.imp (not_mem_cons_of_ne_of_not_mem (Ne.symm isA)) (not_mem_cons_of_ne_of_not_mem (Ne.symm isB))⟩
  obtain ⟨path, walk⟩ := reachable
  obtain ⟨path', walk', without⟩ := avoids walk
  exact without.elim (· (first path' walk')) (· (second path' walk'))

/-! ### The equations -/

variable (edge entry) [DecidableEq β]

/-- Keep for `b` only `b` itself and what all other predecessors have. The entry is left alone. -/
def refineAt (D : β → Set β) (b : β) : β → Set β :=
  if b = entry then D
  else Function.update D b {a | a = b ∨ ∀ p, edge p b → p ≠ b → a ∈ D p}

/-- Refine the nodes of a list, one after another. -/
def sweep (order : List β) (D : β → Set β) : β → Set β :=
  order.foldl (refineAt edge entry) D

/-- Everything, except for the entry. -/
def startSets (b : β) : Set β :=
  if b = entry then {entry} else Set.univ

/-- What refinements preserve. -/
structure Descending (D : β → Set β) : Prop where
  refl : ∀ b, b ∈ D b
  trans : ∀ {b c}, c ∈ D b → D c ⊆ D b
  entry_eq : D entry = {entry}
  entry_mem : ∀ b, entry ∈ D b
  /-- A refinement can only take elements away. -/
  closed : ∀ {a b}, b ≠ entry → (a = b ∨ ∀ p, edge p b → p ≠ b → a ∈ D p) → a ∈ D b

variable {edge entry}

theorem descending_start : Descending edge entry (startSets entry) where
  refl := by
    intro b
    unfold startSets
    split
    · next isEntry => exact isEntry
    · exact Set.mem_univ b
  trans := by
    intro b c member
    by_cases isEntry : b = entry
    · rw [startSets, if_pos isEntry] at member
      rw [Set.mem_singleton_iff.mp member, isEntry]
    · rw [startSets.eq_1 entry b, if_neg isEntry]
      exact Set.subset_univ _
  entry_eq := if_pos rfl
  entry_mem := by
    intro b
    unfold startSets
    split
    · exact Set.mem_singleton entry
    · exact Set.mem_univ entry
  closed := by
    intro a b notEntry _
    rw [startSets, if_neg notEntry]
    exact Set.mem_univ a

theorem refineAt_self (notEntry : b ≠ entry) :
    refineAt edge entry D b b = {a | a = b ∨ ∀ p, edge p b → p ≠ b → a ∈ D p} := by
  rw [refineAt, if_neg notEntry, Function.update_self]

theorem refineAt_other {c : β} (other : c ≠ b) : refineAt edge entry D b c = D c := by
  unfold refineAt
  split
  · rfl
  · exact Function.update_of_ne other _ _

theorem Descending.refineAt_subset (descending : Descending edge entry D) (b c : β) : refineAt edge entry D b c ⊆ D c := by
  by_cases same : c = b
  · subst same
    by_cases isEntry : c = entry
    · rw [refineAt, if_pos isEntry]
    · rw [refineAt_self isEntry]
      exact fun a member => descending.closed isEntry member
  · rw [refineAt_other same]

theorem Descending.refineAt (descending : Descending edge entry D) (b : β) :
    Descending edge entry (refineAt edge entry D b) := by
  by_cases isEntry : b = entry
  · rw [Dominance.refineAt, if_pos isEntry]
    exact descending
  have smaller := descending.refineAt_subset b
  constructor
  · intro c
    by_cases same : c = b
    · rw [same, refineAt_self isEntry]
      exact Or.inl rfl
    · rw [refineAt_other same]
      exact descending.refl c
  · intro c d member
    by_cases same : c = b
    · subst same
      by_cases sameD : d = c
      · rw [sameD]
      · rw [refineAt_self isEntry] at member ⊢
        rw [refineAt_other sameD]
        intro a memberA
        right
        intro p along other
        exact descending.trans ((member.resolve_left sameD) p along other) memberA
    · rw [refineAt_other same] at member ⊢
      exact (smaller d).trans (descending.trans member)
  · rw [refineAt_other (Ne.symm isEntry)]
    exact descending.entry_eq
  · intro c
    by_cases same : c = b
    · rw [same, refineAt_self isEntry]
      exact Or.inr fun p _ _ => descending.entry_mem p
    · rw [refineAt_other same]
      exact descending.entry_mem c
  · intro a c notEntry agreed
    by_cases same : c = b
    · subst same
      rw [refineAt_self isEntry]
      refine agreed.imp_right fun all p along other => ?_
      have member := all p along other
      rwa [refineAt_other other] at member
    · rw [refineAt_other same]
      exact descending.closed notEntry
        (agreed.imp_right fun all p along other => smaller p (all p along other))

theorem Descending.sweep (descending : Descending edge entry D) :
    ∀ order : List β, Descending edge entry (sweep edge entry order D) := by
  intro order
  induction order generalizing D with
  | nil => exact descending
  | cons b order ih => exact ih (descending.refineAt b)

theorem Descending.sweep_subset (descending : Descending edge entry D)
    (order : List β) (c : β) : Dominance.sweep edge entry order D c ⊆ D c := by
  induction order generalizing D with
  | nil => exact subset_rfl
  | cons b order ih =>
    exact (ih (descending.refineAt b)).trans (descending.refineAt_subset b c)

theorem Descending.refineAt_eq_of_sweep_eq (descending : Descending edge entry D) {order : List β}
    (stable : Dominance.sweep edge entry order D = D) : ∀ b ∈ order, Dominance.refineAt edge entry D b = D := by
  induction order with
  | nil => exact fun _ member => absurd member not_mem_nil
  | cons head order ih =>
    have first : Dominance.refineAt edge entry D head = D := by
      funext c
      apply Set.Subset.antisymm (descending.refineAt_subset head c)
      have whole := (descending.refineAt head).sweep_subset order c
      have same : Dominance.sweep edge entry order (Dominance.refineAt edge entry D head) = D :=
        stable
      rwa [same] at whole
    intro b member
    rcases mem_cons.mp member with rfl | later
    · exact first
    · refine ih ?_ b later
      rw [Dominance.sweep, foldl_cons, first] at stable
      exact stable

theorem Descending.dominates_of_stable (descending : Descending edge entry D)
    (stable : ∀ b, Dominance.refineAt edge entry D b = D) (member : a ∈ D b) : Dominates edge entry a b := by
  intro path walk
  induction walk with
  | start =>
    rw [descending.entry_eq] at member
    exact mem_singleton.mpr member
  | @step path p b walk along ih =>
    by_cases isEntry : b = entry
    · subst isEntry
      rw [descending.entry_eq] at member
      rw [Set.mem_singleton_iff.mp member]
      exact mem_cons_self
    · by_cases loop : p = b
      · subst loop
        exact mem_cons_of_mem _ (ih member)
      · rw [← stable b, refineAt_self isEntry] at member
        rcases member with rfl | all
        · exact mem_cons_self
        · exact mem_cons_of_mem _ (ih (all p along loop))

theorem descending_iterate (order : List β) (k : Nat) :
    Descending edge entry ((Dominance.sweep edge entry order)^[k] (startSets entry)) := by
  induction k with
  | zero => exact descending_start
  | succ k ih =>
    rw [Function.iterate_succ_apply']
    exact ih.sweep order

theorem exists_stable_sweep (edge : β → β → Prop) (entry : β) [Finite β] (order : List β) : ∃ k, ∀ m, k ≤ m →
      (Dominance.sweep edge entry order)^[k] (startSets entry)
        = (Dominance.sweep edge entry order)^[m] (startSets entry) := by
  refine WellFoundedLT.antitone_chain_condition (antitone_nat_of_succ_le fun k => ?_)
  rw [Function.iterate_succ_apply']
  exact fun c => (descending_iterate order k).sweep_subset order c

end MonoRuntime.Dominance
