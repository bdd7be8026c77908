/-
Module: MonoRuntime.Lib.BitSearch
Purpose: Searches for the first or the last place of a set of numbers, with -1 where the set is empty, and how the search of a
  set is made from searches of its parts. The parts here are words of a fixed width, in which places are marked.
Trusted boundary: none
Main exports: IsFirst
-/
import Mathlib.Algebra.Order.Ring.Int
import Mathlib.Order.Bounds.Basic

namespace MonoRuntime.BitSearch

/-! ### First and last -/

/-- A search for the first place, which returns -1 where there is none. -/
def IsFirst (places : Set Nat) (result : Int) : Prop :=
  result = -1 ∧ places = ∅ ∨ ∃ k : Nat, result = k ∧ IsLeast places k

/-- A search for the last place. -/
def IsLast (places : Set Nat) (result : Int) : Prop :=
  result = -1 ∧ places = ∅ ∨ ∃ k : Nat, result = k ∧ IsGreatest places k

section Searches

variable {places others : Set Nat} {result result' : Int} {n : Nat}

theorem IsFirst.ne_iff (first : IsFirst places result) : result ≠ -1 ↔ places.Nonempty := by
  rcases first with ⟨rfl, rfl⟩ | ⟨k, rfl, least⟩
  · simp
  · exact iff_of_true (by omega) ⟨k, least.1⟩

theorem IsLast.ne_iff (last : IsLast places result) : result ≠ -1 ↔ places.Nonempty := by
  rcases last with ⟨rfl, rfl⟩ | ⟨k, rfl, greatest⟩
  · simp
  · exact iff_of_true (by omega) ⟨k, greatest.1⟩

theorem IsFirst.shift (first : IsFirst places result) (found : result ≠ -1) :
    IsFirst ((n + ·) '' places) (result + n) := by
  rcases first with ⟨rfl, rfl⟩ | ⟨k, rfl, inside, lower⟩
  · exact absurd rfl found
  · refine Or.inr ⟨n + k, by omega, ⟨k, inside, rfl⟩, ?_⟩
    rintro _ ⟨j, other, rfl⟩
    exact Nat.add_le_add_left (lower other) n

theorem IsLast.shift (last : IsLast places result) (found : result ≠ -1) : IsLast ((n + ·) '' places) (result + n) := by
  rcases last with ⟨rfl, rfl⟩ | ⟨k, rfl, inside, upper⟩
  · exact absurd rfl found
  · refine Or.inr ⟨n + k, by omega, ⟨k, inside, rfl⟩, ?_⟩
    rintro _ ⟨j, other, rfl⟩
    exact Nat.add_le_add_left (upper other) n

theorem IsFirst.union (first : IsFirst places result) (found : result ≠ -1)
    (behind : ∀ a ∈ places, ∀ b ∈ others, a ≤ b) : IsFirst (places ∪ others) result := by
  rcases first with ⟨rfl, rfl⟩ | ⟨k, rfl, inside, lower⟩
  · exact absurd rfl found
  · refine Or.inr ⟨k, rfl, Or.inl inside, ?_⟩
    rintro j (here | there)
    · exact lower here
    · exact behind k inside j there

theorem IsLast.union (last : IsLast places result) (found : result ≠ -1)
    (before : ∀ a ∈ places, ∀ b ∈ others, b ≤ a) : IsLast (places ∪ others) result := by
  rcases last with ⟨rfl, rfl⟩ | ⟨k, rfl, inside, upper⟩
  · exact absurd rfl found
  · refine Or.inr ⟨k, rfl, Or.inl inside, ?_⟩
    rintro j (here | there)
    · exact upper here
    · exact before k inside j there

end Searches

/-! ### Words -/

section Words

variable {Word : Type} {w : Nat} (mark : Word → Nat → Prop)

/-- The marked places of a word. -/
def inWord (w : Nat) (word : Word) : Set Nat :=
  {k | k < w ∧ mark word k}

/-- The marked places of words, the first of which is the `i`th. -/
def inWords (w : Nat) (words : List Word) (i : Nat) : Set Nat :=
  {k | i ≤ k / w ∧ ∃ word, words[k / w - i]? = some word ∧ mark word (k % w)}

variable {mark}

theorem inWords_nil (i : Nat) : inWords mark w [] i = ∅ := by
  ext k
  simp [inWords]

theorem mem_shift_inWord (positive : 0 < w) {word : Word} {i k : Nat} :
    k ∈ (i * w + ·) '' inWord mark w word ↔ k / w = i ∧ mark word (k % w) := by
  constructor
  · rintro ⟨b, ⟨small, marked⟩, rfl⟩
    have quotient : (i * w + b) / w = i := by
      rw [Nat.mul_comm, Nat.mul_add_div positive, Nat.div_eq_of_lt small, Nat.add_zero]
    have rest : (i * w + b) % w = b := by
      rw [Nat.mul_comm, Nat.mul_add_mod, Nat.mod_eq_of_lt small]
    exact ⟨quotient, rest.symm ▸ marked⟩
  · rintro ⟨rfl, marked⟩
    exact ⟨k % w, ⟨Nat.mod_lt k positive, marked⟩, Nat.div_add_mod' k w⟩

theorem inWords_cons (positive : 0 < w) (word : Word) (words : List Word) (i : Nat) :
    inWords mark w (word :: words) i = (i * w + ·) '' inWord mark w word ∪ inWords mark w words (i + 1) := by
  ext k
  rw [Set.mem_union, mem_shift_inWord positive]
  constructor
  · rintro ⟨from_, found, is, marked⟩
    by_cases here : k / w = i
    · rw [here, Nat.sub_self, List.getElem?_cons_zero, Option.some_inj] at is
      exact Or.inl ⟨here, is ▸ marked⟩
    · have index : k / w - i = k / w - (i + 1) + 1 := by omega
      rw [index, List.getElem?_cons_succ] at is
      exact Or.inr ⟨by omega, found, is, marked⟩
  · rintro (⟨here, marked⟩ | ⟨from_, found, is, marked⟩)
    · exact ⟨here.ge, word, by rw [here, Nat.sub_self, List.getElem?_cons_zero], marked⟩
    · have index : k / w - i = k / w - (i + 1) + 1 := by omega
      exact ⟨by omega, found, by rw [index, List.getElem?_cons_succ]; exact is, marked⟩

theorem place_lt {a b : Nat} (words : a / w < b / w) : a < b := by
  by_contra ge
  exact absurd (Nat.div_le_div_right (Nat.le_of_not_lt ge)) (Nat.not_le.mpr words)

theorem lt_iff_place {a b : Nat} : a < b ↔ a / w < b / w ∨ b / w = a / w ∧ a % w < b % w := by
  rcases Nat.lt_trichotomy (a / w) (b / w) with earlier | same | later
  · exact iff_of_true (place_lt earlier) (Or.inl earlier)
  · have first := Nat.div_add_mod a w
    have second := Nat.div_add_mod b w
    rw [same] at first
    simp only [same, lt_irrefl, true_and, false_or]
    omega
  · have behind := place_lt later
    refine iff_of_false (by omega) ?_
    rintro (earlier | ⟨same, -⟩)
    · omega
    · omega

theorem mem_inWords {words : List Word} {k : Nat} :
    k ∈ inWords mark w words 0 ↔ ∃ word, words[k / w]? = some word ∧ mark word (k % w) := by
  simp [inWords]

section Parts

variable {words : List Word} {word : Word} {j : Nat}

theorem mem_inWords_of_word (is : words[j]? = some word) {k : Nat} (here : k / w = j) :
    k ∈ inWords mark w words 0 ↔ mark word (k % w) := by
  rw [mem_inWords, here, is]
  simp

theorem inWords_upTo (positive : 0 < w) (is : words[j]? = some word) :
    {k | k ∈ inWords mark w words 0 ∧ k / w < j + 1} =
      (j * w + ·) '' inWord mark w word ∪ {k | k ∈ inWords mark w words 0 ∧ k / w < j} := by
  ext k
  rw [Set.mem_union, mem_shift_inWord positive, Set.mem_ofPred_eq, Set.mem_ofPred_eq, Nat.lt_succ_iff_lt_or_eq]
  by_cases here : k / w = j
  · rw [mem_inWords_of_word is here]
    simp [here]
  · simp [here]

theorem inWords_before (positive : 0 < w) (is : words[j]? = some word) (keep : Nat → Prop) :
    {k | k ∈ inWords mark w words 0 ∧ (k / w < j ∨ k / w = j ∧ keep (k % w))} =
      (j * w + ·) '' inWord (fun word b => mark word b ∧ keep b) w word ∪
        {k | k ∈ inWords mark w words 0 ∧ k / w < j} := by
  ext k
  rw [Set.mem_union, mem_shift_inWord positive, Set.mem_ofPred_eq, Set.mem_ofPred_eq]
  by_cases here : k / w = j
  · rw [mem_inWords_of_word is here]
    simp [here]
  · simp [here]

theorem inWords_behind (positive : 0 < w) (is : words[j]? = some word) (keep : Nat → Prop) :
    {k | k ∈ inWords mark w words 0 ∧ (j < k / w ∨ k / w = j ∧ keep (k % w))} =
      (j * w + ·) '' inWord (fun word b => mark word b ∧ keep b) w word ∪
        inWords mark w (words.drop (j + 1)) (j + 1) := by
  ext k
  rw [Set.mem_union, mem_shift_inWord positive, Set.mem_ofPred_eq]
  by_cases here : k / w = j
  · rw [mem_inWords_of_word is here]
    simp [here, inWords]
  · by_cases behind : j < k / w
    · have index : j + 1 + (k / w - (j + 1)) = k / w := by omega
      simp only [behind, here, true_or, and_true, false_and, false_or, mem_inWords]
      simp only [inWords, Set.mem_ofPred_eq, List.getElem?_drop, index]
      exact ⟨fun found => ⟨behind, found⟩, fun found => found.2⟩
    · have later : ¬j + 1 ≤ k / w := behind
      simp [here, behind, later, inWords]

end Parts

end Words

end MonoRuntime.BitSearch
