/-
Module: MonoRuntime.Lib.SwapRemove
Purpose: Removal from a list by moving its last entry into the freed place, and what a loop over the places removes when
  it removes the entry at each place: the first half.
Trusted boundary: none
Main exports: swapRemove
-/
import Mathlib.Data.List.Nodup
import Mathlib.Data.List.Induction

namespace MonoRuntime.SwapRemove

open List

variable {α : Type} [DecidableEq α]

/-- The last entry is moved into the place of the first occurrence, and the list is shortened. -/
def swapRemove (l : List α) (a : α) : List α :=
  if a ∈ l then (l.set (l.idxOf a) (l.getLast?.getD a)).dropLast else l

section Removal

variable {l s t : List α} {a b z : α}

theorem swapRemove_last (notBefore : a ∉ s) : swapRemove (s ++ [a]) a = s := by
  have isPlace : (s ++ [a]).idxOf a = s.length := by
    rw [idxOf_append_of_notMem notBefore, idxOf_cons_self, Nat.add_zero]
  rw [swapRemove, if_pos mem_concat_self, isPlace, set_append_right _ _ (Nat.le_refl _), Nat.sub_self,
    set_cons_zero, dropLast_concat]

theorem swapRemove_middle (notBefore : a ∉ s) : swapRemove (s ++ a :: (t ++ [z])) a = s ++ z :: t := by
  have isPlace : (s ++ a :: (t ++ [z])).idxOf a = s.length := by
    rw [idxOf_append_of_notMem notBefore, idxOf_cons_self, Nat.add_zero]
  have split : s ++ a :: (t ++ [z]) = (s ++ a :: t) ++ [z] := by simp
  have isLast : (s ++ a :: (t ++ [z])).getLast? = some z := by
    rw [split, getLast?_concat]
  have isMember : a ∈ s ++ a :: (t ++ [z]) := by simp
  have isSet : s ++ z :: (t ++ [z]) = (s ++ z :: t) ++ [z] := by simp
  rw [swapRemove, if_pos isMember, isPlace, isLast, set_append_right _ _ (Nat.le_refl _), Nat.sub_self,
    set_cons_zero, Option.getD_some, isSet, dropLast_concat]

theorem swapRemove_of_notMem (none_ : a ∉ l) : swapRemove l a = l :=
  if_neg none_

theorem swapRemove_perm (l : List α) (a : α) : (swapRemove l a).Perm (l.erase a) := by
  by_cases isMember : a ∈ l
  · obtain ⟨s, t, rfl, notBefore⟩ := eq_append_cons_of_mem isMember
    rw [erase_append_right _ notBefore, erase_cons_head]
    rcases eq_nil_or_concat t with rfl | ⟨t', z, rfl⟩
    · rw [swapRemove_last notBefore, append_nil]
    · rw [concat_eq_append, swapRemove_middle notBefore]
      exact List.Perm.append_left s (perm_append_singleton z t').symm
  · rw [swapRemove_of_notMem isMember, erase_of_not_mem isMember]

theorem mem_swapRemove (nodup : l.Nodup) : b ∈ swapRemove l a ↔ b ∈ l ∧ b ≠ a := by
  rw [(swapRemove_perm l a).mem_iff, nodup.mem_erase_iff, and_comm]

theorem nodup_swapRemove (nodup : l.Nodup) : (swapRemove l a).Nodup :=
  (swapRemove_perm l a).nodup_iff.2 (nodup.erase a)

end Removal

/-! ### Halves -/

/-- What a loop over the places removes: each removal takes the last entry behind the place. -/
def firstHalf (l : List α) : List α :=
  l.take ((l.length + 1) / 2)

/-- What the loop skips. -/
def secondHalf (l : List α) : List α :=
  l.drop ((l.length + 1) / 2)

section Halves

variable {l t : List α} {a b z : α}

omit [DecidableEq α] in
theorem mem_halves : b ∈ l ↔ b ∈ firstHalf l ∨ b ∈ secondHalf l := by
  rw [firstHalf, secondHalf, ← mem_append, take_append_drop]

omit [DecidableEq α] in
theorem not_both (nodup : l.Nodup) (first : b ∈ firstHalf l) : b ∉ secondHalf l := fun second =>
  disjoint_of_nodup_append (show (firstHalf l ++ secondHalf l).Nodup by
    rwa [firstHalf, secondHalf, take_append_drop]) first second

omit [DecidableEq α] in
theorem firstHalf_nil : firstHalf ([] : List α) = [] :=
  take_nil

omit [DecidableEq α] in
theorem firstHalf_singleton : firstHalf [a] = [a] :=
  take_of_length_le (show 1 ≤ (1 + 1) / 2 by decide)

omit [DecidableEq α] in
theorem firstHalf_ends : firstHalf (a :: (t ++ [z])) = a :: firstHalf t := by
  have places : ((a :: (t ++ [z])).length + 1) / 2 = (t.length + 1) / 2 + 1 := by
    rw [length_cons, length_append, length_singleton]
    omega
  rw [firstHalf, firstHalf, places, take_succ_cons, take_append_of_le_length (by omega)]

end Halves

/-! ### Loops -/

section Loop

variable {σ : Type} {entries : σ → List α} {remove : α → σ → σ}

/-- A loop over the places of a list that shrinks meanwhile: the entry at each place is removed. -/
def overPlaces (entries : σ → List α) (remove : α → σ → σ) : Nat → Nat → σ → σ
  | 0, _, s => s
  | fuel + 1, place, s =>
      match (entries s)[place]? with
      | none => s
      | some a => overPlaces entries remove fuel (place + 1) (remove a s)

omit [DecidableEq α] in
theorem overPlaces_end {place : Nat} {s : σ} (fuel : Nat) (past : (entries s).length ≤ place) :
    overPlaces entries remove fuel place s = s := by
  cases fuel with
  | zero => rfl
  | succ fuel => rw [overPlaces, getElem?_eq_none past]

omit [DecidableEq α] in
theorem overPlaces_next {s : σ} {done rest : List α} {a : α} {fuel : Nat} (isEntries : entries s = done ++ a :: rest)
    (enough : (a :: rest).length ≤ fuel) : overPlaces entries remove fuel done.length s =
      overPlaces entries remove (fuel - 1) (done.length + 1) (remove a s) := by
  obtain ⟨fuel, rfl⟩ := Nat.exists_eq_add_of_le' (show 1 ≤ fuel by rw [length_cons] at enough; omega)
  have isPlace : (done ++ a :: rest)[done.length]? = some a := by
    rw [getElem?_append_right (Nat.le_refl _), Nat.sub_self, getElem?_cons_zero]
  rw [overPlaces, isEntries, isPlace, Nat.add_sub_cancel]

omit [DecidableEq α] in
theorem overPlaces_map (entries : σ → List α) (remove : α → σ → σ) (f : σ → σ) (same : ∀ s, entries (f s) = entries s)
    (commutes : ∀ a s, remove a (f s) = f (remove a s)) : ∀ (fuel place : Nat) (s : σ),
      overPlaces entries remove fuel place (f s) = f (overPlaces entries remove fuel place s) := by
  intro fuel
  induction fuel with
  | zero => exact fun _ _ => rfl
  | succ fuel next =>
    intro place s
    rw [overPlaces, overPlaces, same]
    cases (entries s)[place]? with
    | none => rfl
    | some a => exact (congrArg _ (commutes a s)).trans (next (place + 1) (remove a s))

/-- The loop from a place on removes the first half of the entries that are left. -/
theorem overPlaces_eq (entries : σ → List α) (remove : α → σ → σ)
    (removes : ∀ a s, entries (remove a s) = swapRemove (entries s) a) (rest : List α) :
    ∀ (s : σ) (done : List α) (fuel : Nat), (done ++ rest).Nodup → entries s = done ++ rest → rest.length ≤ fuel →
      overPlaces entries remove fuel done.length s = (firstHalf rest).foldl (fun s a => remove a s) s := by
  induction rest using List.bidirectionalRec with
  | nil =>
    intro s done fuel _ isEntries _
    have past : (entries s).length ≤ done.length := Nat.le_of_eq (by rw [isEntries, append_nil])
    rw [firstHalf_nil, overPlaces_end fuel past]
    rfl
  | singleton a =>
    intro s done fuel nodup isEntries enough
    have notBefore : a ∉ done := fun is => (nodup_append.1 nodup).2.2 a is a (mem_singleton_self a) rfl
    have isLeft : entries (remove a s) = done := by rw [removes, isEntries, swapRemove_last notBefore]
    rw [firstHalf_singleton, overPlaces_next isEntries enough,
      overPlaces_end _ (by rw [isLeft]; exact Nat.le_succ _)]
    rfl
  | cons_append a rest z next =>
    intro s done fuel nodup isEntries enough
    have notBefore : a ∉ done := fun is => (nodup_append.1 nodup).2.2 a is a mem_cons_self rfl
    -- The last entry is behind the place now, and is skipped.
    have isLeft : entries (remove a s) = (done ++ [z]) ++ rest := by
      rw [removes, isEntries, swapRemove_middle notBefore, append_assoc, singleton_append]
    have nodup' : ((done ++ [z]) ++ rest).Nodup := by
      have whole : (swapRemove (entries s) a).Nodup := nodup_swapRemove (isEntries ▸ nodup)
      rwa [← removes, isLeft] at whole
    have few : rest.length ≤ fuel - 1 := by
      rw [length_cons, length_append, length_singleton] at enough
      omega
    have rec_ := next (remove a s) (done ++ [z]) (fuel - 1) nodup' isLeft few
    rw [length_append, length_singleton] at rec_
    rw [firstHalf_ends, foldl_cons, overPlaces_next isEntries enough, rec_]

end Loop

end MonoRuntime.SwapRemove
