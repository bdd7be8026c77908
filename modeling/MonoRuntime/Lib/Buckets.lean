/-
Module: MonoRuntime.Lib.Buckets
Purpose: Items kept in numbered buckets: the items of all buckets as one list, and buckets in which every item lies where its place says.
Trusted boundary: none
Main exports: Placed
-/
import Mathlib.Data.List.Perm.Basic

namespace MonoRuntime.Buckets

open List

variable {α : Type}

/-- Every item lies in the bucket that its place names. -/
def Placed (place : α → Nat) (buckets : List (List α)) : Prop :=
  ∀ i bucket, buckets[i]? = some bucket → ∀ a ∈ bucket, place a = i

/-- Put an item in front of a bucket, which has to exist. -/
def push (place : α → Nat) (buckets : List (List α)) (a : α) : Option (List (List α)) :=
  (buckets[place a]?).map fun bucket => buckets.set (place a) (a :: bucket)

/-- Put items in front of their buckets, one after the other. -/
def pushAll (place : α → Nat) (buckets : List (List α)) (items : List α) :
    Option (List (List α)) :=
  items.foldlM (push place) buckets

variable {place : α → Nat} {buckets : List (List α)}

/-- The items of all buckets, split at one bucket; a change of the bucket changes the part in the
middle. -/
theorem flatten_at {i : Nat} {bucket : List α} (found : buckets[i]? = some bucket) :
    ∃ before later, buckets.flatten = before ++ bucket ++ later ∧
      ∀ bucket', (buckets.set i bucket').flatten = before ++ bucket' ++ later := by
  obtain ⟨inside, value⟩ := List.getElem?_eq_some_iff.1 found
  refine ⟨(buckets.take i).flatten, (buckets.drop (i + 1)).flatten, ?_, ?_⟩
  · have split : buckets = buckets.take i ++ bucket :: buckets.drop (i + 1) := by
      rw [← value, getElem_cons_drop, take_append_drop]
    conv => lhs; rw [split]
    rw [flatten_append, flatten_cons, append_assoc]
  · intro bucket'
    rw [set_eq_take_append_cons_drop, if_pos inside, flatten_append, flatten_cons,
      append_assoc]

theorem Placed.set {i : Nat} {bucket : List α} (placed : Placed place buckets) (here : ∀ a ∈ bucket, place a = i) :
    Placed place (buckets.set i bucket) := by
  intro j other found a inside
  by_cases same : i = j
  · subst same
    obtain ⟨small, value⟩ := List.getElem?_eq_some_iff.1 found
    rw [getElem_set_self] at value
    rw [← value] at inside
    exact here a inside
  · rw [getElem?_set_ne same] at found
    exact placed j other found a inside

theorem placed_replicate (place : α → Nat) (n : Nat) : Placed place (List.replicate n ([] : List α)) := by
  intro i bucket found a inside
  rw [getElem?_replicate] at found
  split at found
  · cases found
    cases inside
  · cases found

/-- A predicate that only items of one place satisfy finds the same item in the bucket and among
all items. -/
theorem find?_flatten {i : Nat} {bucket : List α} {p : α → Bool} (placed : Placed place buckets)
    (found : buckets[i]? = some bucket) (there : ∀ a, p a = true → place a = i) :
    buckets.flatten.find? p = bucket.find? p := by
  have others : ∀ (start : Nat) (rest : List (List α)), rest = buckets.drop start →
      rest.flatten.find? p = if start ≤ i then bucket.find? p else none := by
    intro start rest
    induction rest generalizing start with
    | nil =>
      intro all
      have past : buckets.length ≤ start := drop_eq_nil_iff.1 all.symm
      have inside : i < buckets.length := (List.getElem?_eq_some_iff.1 found).1
      rw [if_neg (Nat.not_le_of_lt (Nat.lt_of_lt_of_le inside past))]
      rfl
    | cons first rest ih =>
      intro all
      have head : buckets[start]? = some first := by
        rw [← head?_drop, ← all]
        rfl
      have tail : rest = buckets.drop (start + 1) := by
        rw [← tail_drop, ← all]
        rfl
      rw [flatten_cons, find?_append, ih (start + 1) tail]
      by_cases same : start = i
      · subst same
        rw [found] at head
        cases head
        rw [if_pos (Nat.le_refl start), if_neg (Nat.not_succ_le_self start), Option.or_none]
      · have nothing : first.find? p = none := by
          rw [find?_eq_none]
          intro a inside satisfied
          exact same ((placed start first head a inside).symm.trans (there a satisfied))
        rw [nothing, Option.none_or]
        by_cases below : start < i
        · rw [if_pos (Nat.succ_le_of_lt below), if_pos (Nat.le_of_lt below)]
        · have above : ¬ start ≤ i := fun le => below (Nat.lt_of_le_of_ne le same)
          have above' : ¬ start + 1 ≤ i := below
          rw [if_neg above, if_neg above']
  have all := others 0 buckets rfl
  rw [if_pos (Nat.zero_le i)] at all
  exact all

/-- Pushing an item whose bucket exists adds it and keeps every item at its place. -/
theorem push_spec {a : α} (placed : Placed place buckets) (inside : place a < buckets.length) :
    ∃ buckets', push place buckets a = some buckets' ∧ buckets'.length = buckets.length ∧
      Placed place buckets' ∧ buckets'.flatten.Perm (a :: buckets.flatten) := by
  have found : buckets[place a]? = some buckets[place a] := getElem?_eq_getElem inside
  obtain ⟨before, later, split, changed⟩ := flatten_at found
  refine ⟨buckets.set (place a) (a :: buckets[place a]), ?_, length_set, ?_, ?_⟩
  · unfold push
    rw [found]
    rfl
  · apply placed.set
    intro b there
    rcases mem_cons.1 there with itself | there
    · rw [itself]
    · exact placed (place a) buckets[place a] found b there
  · rw [changed, split, append_assoc, append_assoc]
    exact perm_middle

theorem pushAll_spec (items : List α) (placed : Placed place buckets) (inside : ∀ a ∈ items, place a < buckets.length) :
    ∃ buckets', pushAll place buckets items = some buckets' ∧ buckets'.length = buckets.length ∧
      Placed place buckets' ∧ buckets'.flatten.Perm (items ++ buckets.flatten) := by
  induction items generalizing buckets with
  | nil => exact ⟨buckets, rfl, rfl, placed, List.Perm.refl _⟩
  | cons a items ih =>
    obtain ⟨next, pushed, length, placed', perm⟩ :=
      push_spec placed (inside a mem_cons_self)
    obtain ⟨last, all, length', placed'', perm'⟩ := ih placed' (by
      intro b there
      rw [length]
      exact inside b (mem_cons_of_mem a there))
    refine ⟨last, ?_, length'.trans length, placed'', ?_⟩
    · unfold pushAll
      rw [foldlM_cons, pushed]
      exact all
    · exact perm'.trans ((perm.append_left items).trans perm_middle)

end MonoRuntime.Buckets
