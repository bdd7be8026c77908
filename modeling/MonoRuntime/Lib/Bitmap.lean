/-
Module: MonoRuntime.Lib.Bitmap
Purpose: Bitmaps as lists of words of a fixed width: one bit is read or set by the index of its word and its place there.
Trusted boundary: none
Main exports: testBit
-/

namespace MonoRuntime.Bitmap

variable {w : Nat}

/-- Read the bit `k`; beyond the last word every bit is clear. -/
def testBit (words : List (BitVec w)) (k : Nat) : Bool :=
  (words.getD (k / w) 0).getLsbD (k % w)

/-- Set the bit `k`, which has to lie in one of the words. -/
def setBit (words : List (BitVec w)) (k : Nat) : Option (List (BitVec w)) :=
  match words[k / w]? with
  | none => none
  | some word => some (words.set (k / w) (word ||| 1#w <<< (k % w)))

/-- A bitmap with all bits clear. -/
def zeros (w n : Nat) : List (BitVec w) :=
  List.replicate n 0

@[simp] theorem testBit_nil (k : Nat) : testBit ([] : List (BitVec w)) k = false := by
  simp [testBit]

@[simp] theorem testBit_zeros (n k : Nat) : testBit (zeros w n) k = false := by
  unfold testBit zeros
  rw [List.getD_eq_getElem?_getD, List.getElem?_replicate]
  split
  · simp
  · simp

@[simp] theorem length_zeros (n : Nat) : (zeros w n).length = n := by
  simp [zeros]

theorem setBit_isSome {words : List (BitVec w)} {k : Nat} (inside : k < w * words.length) :
    ∃ words', setBit words k = some words' := by
  have index : k / w < words.length := Nat.div_lt_of_lt_mul inside
  unfold setBit
  rw [List.getElem?_eq_getElem index]
  exact ⟨_, rfl⟩

theorem getLsbD_mask {i j : Nat} (small : j < w) : (1#w <<< i).getLsbD j = decide (j = i) := by
  rw [BitVec.getLsbD_shiftLeft]
  by_cases h : j < i
  · have different : j ≠ i := Nat.ne_of_lt h
    simp [h, different]
  · have reached : i ≤ j := Nat.le_of_not_lt h
    by_cases same : j = i
    · subst same
      have positive : 0 < w := Nat.lt_of_le_of_lt (Nat.zero_le _) small
      simp [small, positive]
    · have later : j - i ≠ 0 := by omega
      simp [small, h, same, later, BitVec.getLsbD_one]

theorem and_bit_eq_zero_iff {word : BitVec w} {b : Nat} (small : b < w) :
    word &&& 1#w <<< b = 0 ↔ word.getLsbD b = false := by
  rw [← BitVec.twoPow_eq, BitVec.and_twoPow]
  by_cases set : word.getLsbD b = true
  · rw [if_pos set, set]
    refine iff_of_false ?_ (by decide)
    intro zero
    have value := BitVec.toNat_twoPow_of_lt small
    rw [zero] at value
    exact Nat.ne_of_lt (Nat.two_pow_pos b) value
  · rw [if_neg set]
    exact iff_of_true rfl (Bool.eq_false_iff.mpr set)

/-- Setting a bit keeps the words, sets the bit and leaves every other bit as it is. -/
theorem setBit_spec {words words' : List (BitVec w)} {k : Nat} (positive : 0 < w) (set : setBit words k = some words') :
    words'.length = words.length ∧ ∀ j, testBit words' j = true ↔ testBit words j = true ∨ j = k := by
  unfold setBit at set
  cases found : words[k / w]? with
  | none => simp [found] at set
  | some word =>
    simp only [found, Option.some.injEq] at set
    subst set
    refine ⟨List.length_set, ?_⟩
    intro j
    obtain ⟨index, value⟩ := List.getElem?_eq_some_iff.1 found
    unfold testBit
    rw [List.getD_eq_getElem?_getD, List.getD_eq_getElem?_getD]
    by_cases same : k / w = j / w
    · have bit : (j = k) ↔ j % w = k % w := by
        constructor
        · intro h
          rw [h]
        · intro h
          rw [← Nat.div_add_mod j w, ← Nat.div_add_mod k w, same, h]
      rw [← same, List.getElem?_set_self index, found]
      have small : j % w < w := Nat.mod_lt _ positive
      simp [getLsbD_mask small, bit]
    · rw [List.getElem?_set_ne same]
      have different : j ≠ k := by
        intro h
        exact same (by rw [h])
      simp [different]

end MonoRuntime.Bitmap
