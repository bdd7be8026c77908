/-
Module: MonoRuntime.Proofs.MonoBitsetOps
Purpose: The operations of `monobitset.c` on two or three sets are those on finite sets of numbers, and they stay inside of the
  arrays of their words, but for the operations whose loops count the words of the larger set, and for the count of a set that
  has 2^32 members.
Trusted boundary: none (fully proved)
Main exports: call_meets_iff, call_misses
-/
import MonoRuntime.Proofs.MonoBitset
import MonoRuntime.Lib.ByteFields

namespace MonoRuntime.MonoBitset

open MonoRuntime.Bitmap
open MonoRuntime.ByteFields

/-! ### Counting the bits of a word -/

/-- The first step in a byte: the sums of its pairs of bits. -/
def pairs (a : Nat) : Nat :=
  a - (a / 2 ^ 1 &&& 0x55)

/-- The second step: the sums of its pairs of pairs. -/
def nibbles (a : Nat) : Nat :=
  (a / 2 ^ 2 &&& 0x33) + (a / 2 ^ 0 &&& 0x33)

set_option maxRecDepth 8000 in
theorem pairs_lt : ∀ a < 256, pairs a < 256 := by
  decide

set_option maxRecDepth 8000 in
theorem nibbles_spec : ∀ a < 256, nibbles (pairs a) < 256 ∧ nibbles (pairs a) % 16 < 8 ∧ nibbles (pairs a) / 16 < 8 ∧
    nibbles (pairs a) / 16 + nibbles (pairs a) % 16 = bitCount 8 a := by
  decide

set_option maxRecDepth 8000 in
theorem bitCount_byte_le : ∀ a < 256, bitCount 8 a ≤ 8 := by
  decide

/-- The steps that add pairs, nibbles and halves of bytes count the bits of every byte. -/
theorem bytes_counted (n x : Nat) (bound : x < 256 ^ n) : x - (x / 2 ^ 1 &&& rep 0x55 n) = mapBytes pairs n x ∧
      (mapBytes pairs n x / 2 ^ 2 &&& rep 0x33 n) + (mapBytes pairs n x / 2 ^ 0 &&& rep 0x33 n) =
        mapBytes (fun a => nibbles (pairs a)) n x ∧
      mapBytes (fun a => nibbles (pairs a)) n x / 16 + mapBytes (fun a => nibbles (pairs a)) n x &&& rep 15 n =
        mapBytes (bitCount 8) n x := by
  refine ⟨?_, ?_, ?_⟩
  · rw [and_rep (by decide) (by decide)]
    have half : ∀ a < 256, (a / 2 ^ 1 &&& 0x55) ≤ id a := fun a _ => Nat.and_le_left.trans (Nat.div_le_self a _)
    have differs := (mapBytes_sub half n x).2
    rw [mapBytes_id n x bound] at differs
    exact differs
  · rw [and_rep (by decide) (by decide), and_rep (by decide) (by decide), mapBytes_add]
    exact mapBytes_comp pairs_lt n x
  · rw [and_rep_nibbles (fun a small => (nibbles_spec a small).2.1) fun a small => (nibbles_spec a small).2.2.1]
    exact mapBytes_congr (fun a small => (nibbles_spec a small).2.2.2) n x

theorem bytes_small (n x : Nat) : mapBytes pairs n x < 256 ^ n ∧ mapBytes (fun a => nibbles (pairs a)) n x < 256 ^ n ∧
    mapBytes (bitCount 8) n x < 256 ^ n :=
  ⟨mapBytes_lt pairs_lt n x, mapBytes_lt (fun a small => (nibbles_spec a small).1) n x,
    mapBytes_lt (fun a small => (bitCount_byte_le a small).trans_lt (by decide)) n x⟩

theorem four_bytes {a b c d : Nat} (ha : a ≤ 8) (hb : b ≤ 8) (hc : c ≤ 8) (hd : d ≤ 8) :
    let x := a + 256 * (b + 256 * (c + 256 * d))
    let y := x + x / 2 ^ 8
    y + y / 2 ^ 16 < 2 ^ 32 ∧ (y + y / 2 ^ 16) % 64 = a + b + c + d := by
  intro x y
  have second : y / 2 ^ 16 = c + d + 256 * d := by omega
  omega

theorem highest_byte {low sum high : Nat} (small : low < 2 ^ 56) (byte : sum < 256) :
    (low + 2 ^ 56 * sum + 2 ^ 64 * high) % 2 ^ 64 / 2 ^ 56 = sum := by
  omega

/-- Eight bytes are added by a multiplication: the product has the sum in its highest byte. -/
theorem eight_bytes {a b c d e f g h : Nat} (ha : a ≤ 8) (hb : b ≤ 8) (hc : c ≤ 8) (hd : d ≤ 8) (he : e ≤ 8)
    (hf : f ≤ 8) (hg : g ≤ 8) (hh : h ≤ 8) :
    (a + 256 * (b + 256 * (c + 256 * (d + 256 * (e + 256 * (f + 256 * (g + 256 * h))))))) * 0x0101010101010101 %
      2 ^ 64 / 2 ^ 56 = a + b + c + d + e + f + g + h := by
  obtain ⟨low, is_low⟩ : ∃ low, low = 0x1010101010101 * a + 0x1010101010100 * b + 0x1010101010000 * c +
      0x1010101000000 * d + 0x1010100000000 * e + 0x1010000000000 * f + 0x1000000000000 * g :=
    ⟨_, rfl⟩
  obtain ⟨high, is_high⟩ : ∃ high, high = 0x1 * b + 0x101 * c + 0x10101 * d + 0x1010101 * e + 0x101010101 * f +
      0x10101010101 * g + 0x1010101010101 * h :=
    ⟨_, rfl⟩
  have product : (a + 256 * (b + 256 * (c + 256 * (d + 256 * (e + 256 * (f + 256 * (g + 256 * h))))))) *
      0x0101010101010101 = low + 2 ^ 56 * (a + b + c + d + e + f + g + h) + 2 ^ 64 * high := by
    omega
  rw [product]
  exact highest_byte (by omega) (by omega)

theorem steps_toNat {w n : Nat} (bytes : 2 ^ w = 256 ^ n) {d fives threes halves : BitVec w}
    (is_fives : fives.toNat = rep 0x55 n) (is_threes : threes.toNat = rep 0x33 n) (is_halves : halves.toNat = rep 15 n) :
    let d₁ := d - ((d >>> 1) &&& fives)
    let d₂ := ((d₁ >>> 2) &&& threes) + (d₁ &&& threes)
    (((d₂ >>> 4) + d₂) &&& halves).toNat = mapBytes (bitCount 8) n d.toNat := by
  intro d₁ d₂
  obtain ⟨first, second, third⟩ := bytes_counted n d.toNat (bytes ▸ d.isLt)
  obtain ⟨small₁, small₂, -⟩ := bytes_small n d.toNat
  have is₁ : d₁.toNat = mapBytes pairs n d.toNat := by
    have le : ((d >>> 1) &&& fives) ≤ d := by
      exact Nat.and_le_left.trans (Nat.div_le_self _ _)
    rw [BitVec.toNat_sub_of_le le, BitVec.toNat_and, BitVec.toNat_ushiftRight, Nat.shiftRight_eq_div_pow, is_fives]
    exact first
  have is₂ : d₂.toNat = mapBytes (fun a => nibbles (pairs a)) n d.toNat := by
    rw [Nat.pow_zero, Nat.div_one] at second
    rw [BitVec.toNat_add, BitVec.toNat_and, BitVec.toNat_and, BitVec.toNat_ushiftRight, Nat.shiftRight_eq_div_pow, is₁,
      is_threes, second, Nat.mod_eq_of_lt (bytes ▸ small₂)]
  have mask : rep 15 n < 2 ^ w := is_halves ▸ halves.isLt
  rw [BitVec.toNat_and, BitVec.toNat_add, BitVec.toNat_ushiftRight, Nat.shiftRight_eq_div_pow, is₂, is_halves, ← third,
    ← Nat.mod_eq_of_lt mask, ← Nat.and_mod_two_pow, Nat.mod_eq_of_lt mask,
    Nat.mod_eq_of_lt (Nat.and_le_right.trans_lt mask)]

theorem four_shifts {d : BitVec 32} {x : Nat} (is : d.toNat = x) (small : x + x / 2 ^ 8 + (x + x / 2 ^ 8) / 2 ^ 16 < 2 ^ 32) :
    (d + d >>> 8 + (d + d >>> 8) >>> 16 &&& 0x0000003f).toNat = (x + x / 2 ^ 8 + (x + x / 2 ^ 8) / 2 ^ 16) % 64 := by
  have first : (d + d >>> 8).toNat = x + x / 2 ^ 8 := by
    rw [BitVec.toNat_add, BitVec.toNat_ushiftRight, Nat.shiftRight_eq_div_pow, is, Nat.mod_eq_of_lt (by omega)]
  rw [BitVec.toNat_and, BitVec.toNat_add, BitVec.toNat_ushiftRight, Nat.shiftRight_eq_div_pow, first,
    Nat.mod_eq_of_lt small]
  exact Nat.and_two_pow_sub_one_eq_mod _ 6

theorem countWord_eq {w : Nat} (chunk : w = 32 ∨ w = 64) (d : BitVec w) : countWord d = bitCount w d.toNat := by
  have le (x : Nat) : bitCount 8 (x % 256) ≤ 8 := bitCount_byte_le _ (mod_byte x)
  rcases chunk with rfl | rfl
  · have steps := steps_toNat (w := 32) (n := 4) (d := d) (by decide) (by decide : (0x55555555 : BitVec 32).toNat = _)
      (by decide : (0x33333333 : BitVec 32).toNat = _) (by decide : (0x0f0f0f0f : BitVec 32).toNat = _)
    have bytes : bitCount 32 d.toNat = sumBytes (bitCount 8) 4 d.toNat := bitCount_bytes 4 d.toNat
    obtain ⟨small, sum⟩ := four_bytes (le d.toNat) (le (d.toNat / 256)) (le (d.toNat / 256 / 256))
      (le (d.toNat / 256 / 256 / 256))
    unfold countWord
    rw [if_neg (by decide), bytes]
    rw [four_shifts steps (by simpa only [mapBytes, Nat.mul_zero, Nat.add_zero] using small)]
    simp only [mapBytes, sumBytes, Nat.mul_zero, Nat.add_zero] at sum ⊢
    omega
  · have steps := steps_toNat (w := 64) (n := 8) (d := d) (by decide)
      (by decide : (0x5555555555555555 : BitVec 64).toNat = _) (by decide : (0x3333333333333333 : BitVec 64).toNat = _)
      (by decide : (0x0f0f0f0f0f0f0f0f : BitVec 64).toNat = _)
    have bytes : bitCount 64 d.toNat = sumBytes (bitCount 8) 8 d.toNat := bitCount_bytes 8 d.toNat
    unfold countWord
    rw [if_pos rfl, bytes]
    rw [BitVec.toNat_ushiftRight, Nat.shiftRight_eq_div_pow, BitVec.toNat_mul, steps]
    refine (eight_bytes (le _) (le _) (le _) (le _) (le _) (le _) (le _) (le _)).trans ?_
    simp only [sumBytes]
    omega

/-! ### The members of a set -/

section Members

variable {w : Nat} {set : MonoBitSet w} {k : Nat}

/-- The numbers that a set holds. -/
def MonoBitSet.bits (set : MonoBitSet w) : Finset Nat :=
  (Finset.range set.size).filter fun k => set.test k = true

@[simp]
theorem mem_bits : k ∈ set.bits ↔ set.test k = true := by
  rw [MonoBitSet.bits, Finset.mem_filter, Finset.mem_range]
  exact and_iff_right_of_imp set.lt_size

theorem sum_testBit (positive : 0 < w) : ∀ words : List (BitVec w),
    ∑ k ∈ Finset.range (w * words.length), (testBit words k).toNat = (words.map fun word => bitCount w word.toNat).sum
  | [] => by simp
  | word :: words => by
      rw [List.length_cons, Nat.mul_succ, Nat.add_comm, Finset.sum_range_add, List.map_cons, List.sum_cons,
        ← sum_testBit positive words]
      congr 1
      · refine Finset.sum_congr rfl fun b inside => ?_
        have small := Finset.mem_range.mp inside
        rw [testBit, Nat.div_eq_of_lt small, Nat.mod_eq_of_lt small]
        rfl
      · refine Finset.sum_congr rfl fun k _ => ?_
        rw [testBit, testBit, Nat.add_div_left k positive, Nat.add_mod_left]
        rfl

theorem card_bits (set : MonoBitSet w) : set.bits.card = (set.data.map fun word => bitCount w word.toNat).sum := by
  rw [MonoBitSet.bits, Finset.card_filter, set.sized, ← sum_testBit set.positive]
  refine Finset.sum_congr rfl fun k _ => ?_
  change _ = (set.test k).toNat
  cases set.test k with
  | false | true => rfl

theorem bitCount_zero (n : Nat) : bitCount n 0 = 0 := by
  simp [bitCount]

theorem count_loop (chunk : w = 32 ∨ w = 64) : ∀ (words : List (BitVec w)) (count : Nat), count < 2 ^ 32 →
    words.foldl (fun count d => if d ≠ 0 then (count + countWord d) % 2 ^ 32 else count) count =
      (count + (words.map fun word => bitCount w word.toNat).sum) % 2 ^ 32
  | [], count, small => by
      rw [List.foldl_nil, List.map_nil, List.sum_nil, Nat.add_zero, Nat.mod_eq_of_lt small]
  | word :: words, count, small => by
      rw [List.foldl_cons, List.map_cons, List.sum_cons]
      by_cases zero : word = 0
      · have none : bitCount w word.toNat = 0 := by
          rw [zero]
          exact bitCount_zero w
        rw [if_neg (not_not.mpr zero), count_loop chunk words count small, none, Nat.zero_add]
      · rw [if_pos zero, count_loop chunk words _ (Nat.mod_lt _ (by decide)), countWord_eq chunk, Nat.mod_add_mod,
          Nat.add_assoc]

theorem monoBitsetCount_eq (set : MonoBitSet w) : monoBitsetCount set = set.bits.card % 2 ^ 32 := by
  unfold monoBitsetCount
  rw [count_loop set.chunk set.data 0 (by decide), Nat.zero_add, card_bits]

end Members

/-! ### Loops over the words -/

section Loops

variable {w : Nat} {body : Nat → MonoBitSet w → Option (MonoBitSet w)} {word : Nat → BitVec w → Option (BitVec w)}
  {dest : MonoBitSet w}

/-- A loop body that replaces a word by what it computes from it. -/
def Replaces (body : Nat → MonoBitSet w → Option (MonoBitSet w)) (word : Nat → BitVec w → Option (BitVec w)) : Prop :=
  ∀ i dest, body i dest = (dest.load i).bind fun d => (word i d).bind (dest.store i)

variable {d : BitVec w} {set : MonoBitSet w}

theorem MonoBitSet.store_spec {i : Nat} (is : dest.data[i]? = some d) (value : BitVec w) :
    ∃ r, dest.store i value = some r ∧ r.size = dest.size ∧
      ∀ j, r.data[j]? = if j = i then some value else dest.data[j]? := by
  obtain ⟨index, -⟩ := List.getElem?_eq_some_iff.mp is
  unfold MonoBitSet.store
  rw [if_pos index]
  refine ⟨_, rfl, rfl, fun j => ?_⟩
  rw [List.getElem?_set]
  by_cases same : j = i
  · subst same
    simp [index]
  · simp [same, Ne.symm same]

/-- The words that a loop comes to are replaced, and the others are left alone. -/
theorem forWords_spec (replaces : Replaces body word) : ∀ rounds i (dest : MonoBitSet w),
    (∀ j, i ≤ j → j < i + rounds → ∃ d value, dest.data[j]? = some d ∧ word j d = some value) →
      ∃ r, forWords body rounds i dest = some r ∧ r.size = dest.size ∧
        ∀ j, r.data[j]? = if i ≤ j ∧ j < i + rounds then dest.data[j]?.bind (word j) else dest.data[j]?
  | 0, i, dest, _ => by
      refine ⟨dest, rfl, rfl, fun j => ?_⟩
      rw [if_neg (by omega)]
  | rounds + 1, i, dest, words => by
      obtain ⟨d, value, is, computes⟩ := words i (le_refl i) (by omega)
      obtain ⟨next, stores, size, others⟩ := MonoBitSet.store_spec is value
      obtain ⟨r, runs, sizes, result⟩ := forWords_spec replaces rounds (i + 1) next fun j behind inside => by
        obtain ⟨d', value', is', computes'⟩ := words j (by omega) (by omega)
        exact ⟨d', value', by rw [others, if_neg (by omega), is'], computes'⟩
      refine ⟨r, ?_, sizes.trans size, fun j => ?_⟩
      · unfold forWords
        rw [replaces, MonoBitSet.load, is, Option.bind_some, computes, Option.bind_some, stores, Option.bind_some, runs]
      · rw [result, others]
        by_cases here : j = i
        · subst here
          rw [if_neg (by omega), if_pos rfl, if_pos (by omega), is, Option.bind_some, computes]
        · rw [if_neg here]
          by_cases later : i + 1 ≤ j ∧ j < i + 1 + rounds
          · rw [if_pos later, if_pos (by omega)]
          · rw [if_neg later, if_neg (by omega)]

theorem forWords_none (replaces : Replaces body word) : ∀ rounds i (dest : MonoBitSet w),
    (∃ j, i ≤ j ∧ j < i + rounds ∧ ∀ d, dest.data[j]? = some d → word j d = none) → forWords body rounds i dest = none
  | 0, i, dest, missing => by
      obtain ⟨j, behind, before, -⟩ := missing
      omega
  | rounds + 1, i, dest, missing => by
      obtain ⟨j, behind, before, none⟩ := missing
      unfold forWords
      rw [replaces, MonoBitSet.load]
      cases is : dest.data[i]? with
      | none => rfl
      | some d =>
        rw [Option.bind_some]
        cases computes : word i d with
        | none => rfl
        | some value =>
          obtain ⟨next, stores, -, others⟩ := MonoBitSet.store_spec is value
          have later : j ≠ i := by
            rintro rfl
            rw [none d is] at computes
            contradiction
          rw [Option.bind_some, stores, Option.bind_some]
          refine forWords_none replaces rounds (i + 1) next ⟨j, by omega, by omega, fun d' is' => none d' ?_⟩
          rw [others, if_neg later] at is'
          exact is'

theorem MonoBitSet.words_eq (set : MonoBitSet w) : set.size / w = set.data.length := by
  rw [set.sized, Nat.mul_div_cancel_left _ set.positive]

theorem MonoBitSet.test_of_word {k : Nat} (is : set.data[k / w]? = some d) : set.test k = d.getLsbD (k % w) := by
  rw [set.test_eq, List.getD_eq_getElem?_getD, is, Option.getD_some]

theorem MonoBitSet.test_outside {k : Nat} (outside : ¬k < set.size) : set.test k = false :=
  Bool.eq_false_iff.mpr fun is => outside (set.lt_size is)

theorem MonoBitSet.word_missing (less : set.size < dest.size) :
    set.data.length < dest.data.length ∧ set.data[set.data.length]? = none := by
  refine ⟨?_, List.getElem?_eq_none (le_refl _)⟩
  rw [set.sized, dest.sized] at less
  exact Nat.lt_of_mul_lt_mul_left less

theorem forWords_bits (replaces : Replaces body word) (dest : MonoBitSet w) {rounds : Nat} {f : Nat → Bool}
    (computes : ∀ j < rounds, ∃ d value, dest.data[j]? = some d ∧ word j d = some value ∧
      ∀ b < w, value.getLsbD b = f (j * w + b)) : ∃ r, forWords body rounds 0 dest = some r ∧ r.size = dest.size ∧
      ∀ k, r.test k = if k / w < rounds then f k else dest.test k := by
  obtain ⟨r, runs, size, result⟩ := forWords_spec replaces rounds 0 dest fun j _ inside => by
    obtain ⟨d, value, is, becomes, -⟩ := computes j (by omega)
    exact ⟨d, value, is, becomes⟩
  refine ⟨r, runs, size, fun k => ?_⟩
  have stored := result (k / w)
  by_cases inside : k / w < rounds
  · obtain ⟨d, value, is, becomes, bits⟩ := computes (k / w) inside
    rw [if_pos ⟨Nat.zero_le _, by omega⟩, is, Option.bind_some, becomes] at stored
    rw [MonoBitSet.test_of_word stored, bits _ (Nat.mod_lt k dest.positive), Nat.div_add_mod', if_pos inside]
  · rw [if_neg (by omega)] at stored
    rw [if_neg inside, r.test_eq, dest.test_eq, List.getD_eq_getElem?_getD, List.getD_eq_getElem?_getD, stored]

theorem MonoBitSet.getLsbD_word {j b : Nat} (is : set.data[j]? = some d)
    (small : b < w) : d.getLsbD b = set.test (j * w + b) := by
  have place : (j * w + b) / w = j := by
    rw [Nat.mul_comm, Nat.mul_add_div set.positive, Nat.div_eq_of_lt small, Nat.add_zero]
  have rest : (j * w + b) % w = b := by
    rw [Nat.mul_comm, Nat.mul_add_mod, Nat.mod_eq_of_lt small]
  rw [test_of_word (place.symm ▸ is), rest]

end Loops

/-! ### The operations -/

section Operations

variable {w : Nat} {dest src : MonoBitSet w} {op : BitVec w → BitVec w → BitVec w}

theorem combine_replaces (op : BitVec w → BitVec w → BitVec w) (src : MonoBitSet w) :
    Replaces (fun i dest => do dest.store i (op (← dest.load i) (← src.load i)))
      (fun i d => (src.load i).map (op d)) := by
  intro i dest
  beta_reduce
  cases dest.load i with
  | none => rfl
  | some d =>
    cases src.load i with
    | none | some e => rfl

theorem MonoBitSet.store_none {i : Nat} (missing : dest.load i = none) (value : BitVec w) : dest.store i value = none := by
  unfold MonoBitSet.store
  rw [if_neg (Nat.not_lt.mpr (List.getElem?_eq_none_iff.mp missing))]

theorem copy_replaces (src : MonoBitSet w) :
    Replaces (fun i dest => do dest.store i (← src.load i)) (fun i _ => src.load i) := by
  intro i dest
  beta_reduce
  cases is : dest.load i with
  | none =>
    cases src.load i with
    | none => rfl
    | some e => exact MonoBitSet.store_none is e
  | some d =>
    cases src.load i with
    | none | some e => rfl

theorem intersect_replaces (src1 src2 : MonoBitSet w) :
    Replaces (fun i dest => do dest.store i ((← src1.load i) &&& (← src2.load i)))
      (fun i _ => (src1.load i).bind fun x => (src2.load i).map (x &&& ·)) := by
  intro i dest
  beta_reduce
  cases is : dest.load i with
  | none =>
    cases src1.load i with
    | none => rfl
    | some x =>
      cases src2.load i with
      | none => rfl
      | some y => exact MonoBitSet.store_none is (x &&& y)
  | some d =>
    cases src1.load i with
    | none => rfl
    | some x =>
      cases src2.load i with
      | none | some y => rfl

theorem invert_replaces :
    Replaces (fun i (set : MonoBitSet w) => do set.store i (~~~ (← set.load i))) (fun _ d => some (~~~ d)) := by
  intro i dest
  beta_reduce
  cases dest.load i with
  | none | some d => rfl

theorem combineWords_spec (op : BitVec w → BitVec w → BitVec w) {f : Bool → Bool → Bool} {rounds : Nat}
    (bitwise : ∀ x y : BitVec w, ∀ b < w, (op x y).getLsbD b = f (x.getLsbD b) (y.getLsbD b))
    (inside : rounds ≤ dest.data.length) (inside' : rounds ≤ src.data.length) :
    ∃ r, combineWords op src rounds dest = some r ∧ r.size = dest.size ∧
      ∀ k, r.test k = if k / w < rounds then f (dest.test k) (src.test k) else dest.test k := by
  refine forWords_bits (combine_replaces op src) dest fun j before => ?_
  have is := List.getElem?_eq_getElem (before.trans_le inside)
  have is' := List.getElem?_eq_getElem (before.trans_le inside')
  refine ⟨_, op dest.data[j] src.data[j], is, by rw [MonoBitSet.load, is']; rfl, fun b small => ?_⟩
  rw [bitwise _ _ b small, MonoBitSet.getLsbD_word is small, MonoBitSet.getLsbD_word is' small]

theorem combineWords_none (less : src.size < dest.size) : combineWords op src (dest.size / w) dest = none := by
  obtain ⟨inside, missing⟩ := MonoBitSet.word_missing less
  refine forWords_none (combine_replaces op src) _ 0 dest ⟨src.data.length, Nat.zero_le _, ?_, fun d _ => ?_⟩
  · rw [Nat.zero_add, dest.words_eq]
    exact inside
  · rw [MonoBitSet.load, missing]
    rfl

theorem copyWords_spec {words : Nat} (inside : words ≤ dest.data.length) (inside' : words ≤ src.data.length) :
    ∃ r, copyWords src words dest = some r ∧ r.size = dest.size ∧
      ∀ k, r.test k = if k / w < words then src.test k else dest.test k := by
  refine forWords_bits (copy_replaces src) dest fun j before => ?_
  have is := List.getElem?_eq_getElem (before.trans_le inside)
  have is' := List.getElem?_eq_getElem (before.trans_le inside')
  exact ⟨_, src.data[j], is, is', fun b small => MonoBitSet.getLsbD_word is' small⟩

theorem copyWords_none (less : dest.size < src.size) : copyWords src (src.size / w) dest = none := by
  obtain ⟨inside, missing⟩ := MonoBitSet.word_missing less
  refine forWords_none (copy_replaces src) _ 0 dest ⟨dest.data.length, Nat.zero_le _, ?_, fun d is => ?_⟩
  · rw [Nat.zero_add, src.words_eq]
    exact inside
  · rw [missing] at is
    contradiction

end Operations

/-! ### The laws -/

/-- A call of an operation. -/
inductive Call (w : Nat) where
  | invert (set : MonoBitSet w)
  | count (set : MonoBitSet w)
  | clone (set : MonoBitSet w) (newSize : BitVec 32)
  | copyto (src dest : MonoBitSet w)
  | union (dest src : MonoBitSet w)
  | intersection (dest src : MonoBitSet w)
  | intersection2 (dest src1 src2 : MonoBitSet w)
  | sub (dest src : MonoBitSet w)

section Calls

variable {w : Nat}

/-- What the operations assert. -/
def Call.Asserted : Call w → Prop
  | .invert _ | .count _ | .clone _ _ => True
  | .copyto src dest => dest.size ≤ src.size
  | .union dest src | .intersection dest src | .sub dest src => src.size ≤ dest.size
  | .intersection2 dest src1 src2 => src1.size ≤ dest.size ∧ src2.size ≤ dest.size

/-- An operation stays inside of the arrays and leaves a set with these members. -/
def Leaves (result : Option (MonoBitSet w)) (size : Nat) (members : Finset Nat) : Prop :=
  ∃ r, result = some r ∧ r.size = size ∧ r.bits = members

/-- The size of a clone, which is that of the set where no size is asked for. -/
def cloneSize (set : MonoBitSet w) (newSize : BitVec 32) : Nat :=
  if newSize = 0 then set.size else w * realSize w newSize

/-- The operations on finite sets of numbers. -/
def Call.Meets : Call w → Prop
  | .invert set => Leaves (monoBitsetInvert set) set.size (Finset.range set.size \ set.bits)
  | .count set => monoBitsetCount set = set.bits.card
  | .clone set newSize =>
    Leaves (monoBitsetClone set newSize) (cloneSize set newSize) (set.bits.filter (· < cloneSize set newSize))
  | .copyto src dest => Leaves (monoBitsetCopyto src dest) dest.size (src.bits.filter (· < dest.size))
  | .union dest src => Leaves (monoBitsetUnion dest src) dest.size (dest.bits ∪ src.bits)
  | .intersection dest src => Leaves (monoBitsetIntersection dest src) dest.size (dest.bits ∩ src.bits)
  | .intersection2 dest src1 src2 => Leaves (monoBitsetIntersection2 dest src1 src2) dest.size (src1.bits ∩ src2.bits)
  | .sub dest src => Leaves (monoBitsetSub dest src) dest.size (dest.bits \ src.bits)

/-- Where they are met: the loops over the larger set need sets of one size, a clone needs the room of the set, and the count
wraps where a set of 2^32 bits is full. -/
def Call.Holds : Call w → Prop
  | .invert _ | .copyto _ _ | .sub _ _ => True
  | .count set => set.size = 2 ^ 32 → ∃ k < set.size, set.test k = false
  | .clone set newSize => if newSize = 0 then set.size < 2 ^ 32 else set.size ≤ cloneSize set newSize
  | .union dest src | .intersection dest src => src.size = dest.size
  | .intersection2 dest src1 src2 => src1.size = dest.size ∧ src2.size = dest.size

variable {set dest src src1 src2 : MonoBitSet w} {result : Option (MonoBitSet w)} {size : Nat} {members : Finset Nat}

theorem leaves_of {r : MonoBitSet w} (runs : result = some r) (sizes : r.size = size)
    (bits : ∀ k, r.test k = true ↔ k ∈ members) : Leaves result size members :=
  ⟨r, runs, sizes, Finset.ext fun k => mem_bits.trans (bits k)⟩

theorem not_leaves (none : result = none) : ¬Leaves result size members := by
  rintro ⟨r, runs, -⟩
  rw [none] at runs
  contradiction

theorem MonoBitSet.word_lt_iff (set : MonoBitSet w) {k : Nat} : k / w < set.size / w ↔ k < set.size := by
  rw [set.words_eq, index_iff]

theorem invert_meets (set : MonoBitSet w) : (Call.invert set).Meets := by
  obtain ⟨r, runs, size, bits⟩ : ∃ r, monoBitsetInvert set = some r ∧ r.size = set.size ∧
      ∀ k, r.test k = if k / w < set.size / w then !set.test k else set.test k :=
    forWords_bits invert_replaces set fun j before => by
      rw [set.words_eq] at before
      have is := List.getElem?_eq_getElem before
      refine ⟨_, ~~~ set.data[j], is, rfl, fun b small => ?_⟩
      rw [BitVec.getLsbD_not, decide_eq_true small, Bool.true_and, MonoBitSet.getLsbD_word is small]
  refine leaves_of runs size fun k => ?_
  rw [bits, Finset.mem_sdiff, Finset.mem_range, mem_bits]
  simp only [set.word_lt_iff]
  by_cases inside : k < set.size
  · simp [inside]
  · simp [inside, MonoBitSet.test_outside inside]

theorem count_meets_iff (set : MonoBitSet w) : (Call.count set).Meets ↔ (Call.count set).Holds := by
  have small := set.small.1
  have le : set.bits.card ≤ set.size := (Finset.card_filter_le _ _).trans_eq (Finset.card_range _)
  have full : set.bits.card = 2 ^ 32 ↔ ¬(Call.count set).Holds := by
    unfold Call.Holds
    simp only [not_forall, not_exists, not_and, Bool.not_eq_false]
    constructor
    · intro all
      have size : set.size = 2 ^ 32 := by omega
      refine ⟨size, fun k inside => ?_⟩
      have same : set.bits = Finset.range set.size :=
        Finset.eq_of_subset_of_card_le (Finset.filter_subset _ _) (by rw [Finset.card_range]; omega)
      rw [← mem_bits, same]
      exact Finset.mem_range.mpr inside
    · rintro ⟨size, all⟩
      rw [MonoBitSet.bits, Finset.filter_true_of_mem fun k inside => all k (Finset.mem_range.mp inside), Finset.card_range,
        size]
  change monoBitsetCount set = set.bits.card ↔ _
  rw [monoBitsetCount_eq, ← not_iff_not, ← full]
  constructor
  · intro wraps
    by_contra less
    exact wraps (Nat.mod_eq_of_lt (by omega))
  · intro all
    rw [all]
    decide

theorem copyto_meets (asserted : dest.size ≤ src.size) : (Call.copyto src dest).Meets := by
  have words : dest.size / w ≤ src.size / w := Nat.div_le_div_right asserted
  rw [dest.words_eq, src.words_eq] at words
  obtain ⟨r, runs, size, bits⟩ := copyWords_spec dest.words_eq.le (dest.words_eq.trans_le words)
  refine leaves_of ?_ size fun k => ?_
  · unfold monoBitsetCopyto
    rw [if_pos asserted, runs]
  · rw [bits, Finset.mem_filter, mem_bits]
    simp only [dest.word_lt_iff]
    by_cases inside : k < dest.size
    · simp [inside]
    · simp [inside, MonoBitSet.test_outside inside]

theorem sub_meets (asserted : src.size ≤ dest.size) : (Call.sub dest src).Meets := by
  have words : src.size / w ≤ dest.size / w := Nat.div_le_div_right asserted
  rw [dest.words_eq, src.words_eq] at words
  have bitwise (x y : BitVec w) (b : Nat) (small : b < w) :
      (x &&& ~~~ y).getLsbD b = (x.getLsbD b && !y.getLsbD b) := by
    rw [BitVec.getLsbD_and, BitVec.getLsbD_not, decide_eq_true small, Bool.true_and]
  obtain ⟨r, runs, size, bits⟩ := combineWords_spec (fun x y => x &&& ~~~ y)
    (f := fun x y => x && !y) bitwise (src.words_eq.trans_le words)
    src.words_eq.le
  refine leaves_of ?_ size fun k => ?_
  · unfold monoBitsetSub
    rw [if_pos asserted, runs]
  · rw [bits, Finset.mem_sdiff, mem_bits, mem_bits]
    simp only [src.word_lt_iff]
    by_cases inside : k < src.size
    · simp [inside]
    · simp [inside, MonoBitSet.test_outside inside]

theorem combine_meets_iff {op : BitVec w → BitVec w → BitVec w} {f : Bool → Bool → Bool}
    (bitwise : ∀ x y : BitVec w, ∀ b < w, (op x y).getLsbD b = f (x.getLsbD b) (y.getLsbD b))
    (zero : f false false = false) (asserted : src.size ≤ dest.size)
    (law : ∀ k, f (dest.test k) (src.test k) = true ↔ k ∈ members) :
    Leaves (combineWords op src (dest.size / w) dest) dest.size members ↔ src.size = dest.size := by
  constructor
  · intro leaves
    by_contra other
    exact not_leaves (combineWords_none (lt_of_le_of_ne asserted other)) leaves
  · intro same
    have words : dest.size / w = src.data.length := by rw [← same, src.words_eq]
    obtain ⟨r, runs, size, bits⟩ := combineWords_spec op bitwise dest.words_eq.le words.le
    refine leaves_of runs size fun k => ?_
    rw [bits, ← law]
    simp only [dest.word_lt_iff]
    by_cases inside : k < dest.size
    · rw [if_pos inside]
    · rw [if_neg inside, MonoBitSet.test_outside inside, MonoBitSet.test_outside (same ▸ inside), zero]

theorem union_meets_iff (asserted : src.size ≤ dest.size) : (Call.union dest src).Meets ↔ (Call.union dest src).Holds := by
  unfold Call.Meets monoBitsetUnion
  simp only
  rw [if_pos asserted]
  exact combine_meets_iff (f := or) (fun x y b _ => BitVec.getLsbD_or) rfl asserted fun k => by simp

theorem intersection_meets_iff (asserted : src.size ≤ dest.size) :
    (Call.intersection dest src).Meets ↔ (Call.intersection dest src).Holds := by
  unfold Call.Meets monoBitsetIntersection
  simp only
  rw [if_pos asserted]
  exact combine_meets_iff (f := and) (fun x y b _ => BitVec.getLsbD_and) rfl asserted fun k => by simp

theorem intersection2_meets_iff (asserted : src1.size ≤ dest.size ∧ src2.size ≤ dest.size) :
    (Call.intersection2 dest src1 src2).Meets ↔ (Call.intersection2 dest src1 src2).Holds := by
  unfold Call.Meets monoBitsetIntersection2
  simp only
  rw [if_pos asserted]
  have replaces := intersect_replaces src1 src2
  constructor
  · intro leaves
    refine ⟨?_, ?_⟩
    · by_contra other
      obtain ⟨inside, missing⟩ := MonoBitSet.word_missing (lt_of_le_of_ne asserted.1 other)
      refine not_leaves (forWords_none replaces _ 0 dest ⟨src1.data.length, Nat.zero_le _, ?_, fun d _ => ?_⟩) leaves
      · rw [Nat.zero_add, dest.words_eq]
        exact inside
      · rw [MonoBitSet.load, missing]
        rfl
    · by_contra other
      obtain ⟨inside, missing⟩ := MonoBitSet.word_missing (lt_of_le_of_ne asserted.2 other)
      refine not_leaves (forWords_none replaces _ 0 dest ⟨src2.data.length, Nat.zero_le _, ?_, fun d _ => ?_⟩) leaves
      · rw [Nat.zero_add, dest.words_eq]
        exact inside
      · change ((src1.load _).bind fun x => (src2.data[src2.data.length]?).map (x &&& ·)) = none
        rw [missing]
        cases src1.load src2.data.length with
        | none | some x => rfl
  · rintro ⟨same1, same2⟩
    have words1 : dest.size / w = src1.data.length := by rw [← same1, src1.words_eq]
    have words2 : dest.size / w = src2.data.length := by rw [← same2, src2.words_eq]
    obtain ⟨r, runs, size, bits⟩ := forWords_bits replaces dest (f := fun k => src1.test k && src2.test k)
      fun j (before : j < dest.size / w) => by
        have is := List.getElem?_eq_getElem (before.trans_eq dest.words_eq)
        have is1 := List.getElem?_eq_getElem (before.trans_eq words1)
        have is2 := List.getElem?_eq_getElem (before.trans_eq words2)
        refine ⟨_, _ &&& _, is, by rw [MonoBitSet.load, MonoBitSet.load, is1, is2]; rfl, fun b small => ?_⟩
        rw [BitVec.getLsbD_and, MonoBitSet.getLsbD_word is1 small, MonoBitSet.getLsbD_word is2 small]
    refine leaves_of runs size fun k => ?_
    rw [bits, Finset.mem_inter, mem_bits, mem_bits]
    simp only [dest.word_lt_iff]
    by_cases inside : k < dest.size
    · simp [inside]
    · simp [inside, MonoBitSet.test_outside (same1 ▸ inside), MonoBitSet.test_outside inside]

theorem realSize_size (set : MonoBitSet w) (small : set.size < 2 ^ 32) :
    w * realSize w (BitVec.ofNat 32 set.size) = set.size := by
  have sized := set.sized
  unfold realSize
  rw [BitVec.toNat_ofNat, Nat.mod_eq_of_lt small]
  rcases set.chunk with rfl | rfl
  · omega
  · omega

theorem copy_meets_iff (set fresh : MonoBitSet w) (empty : ∀ k, fresh.test k = false) :
    Leaves (copyWords set (set.size / w) fresh) fresh.size (set.bits.filter (· < fresh.size)) ↔ set.size ≤ fresh.size := by
  constructor
  · intro leaves
    by_contra less
    exact not_leaves (copyWords_none (Nat.lt_of_not_le less)) leaves
  · intro room
    have words : set.size / w ≤ fresh.size / w := Nat.div_le_div_right room
    rw [fresh.words_eq] at words
    obtain ⟨r, runs, size, bits⟩ := copyWords_spec words set.words_eq.le
    refine leaves_of runs size fun k => ?_
    rw [bits, Finset.mem_filter, mem_bits, empty]
    simp only [set.word_lt_iff]
    by_cases inside : k < set.size
    · simp [inside, inside.trans_le room]
    · simp [inside, MonoBitSet.test_outside inside]

theorem clone_meets_iff (set : MonoBitSet w) (newSize : BitVec 32) :
    (Call.clone set newSize).Meets ↔ (Call.clone set newSize).Holds := by
  have copies (asked : BitVec 32) := copy_meets_iff set (cloneRoom set asked) (testBit_zeros (realSize w asked))
  unfold Call.Meets Call.Holds monoBitsetClone cloneSize
  by_cases zero : newSize = 0
  · simp only [if_pos zero]
    by_cases small : set.size < 2 ^ 32
    · have size : (cloneRoom set (BitVec.ofNat 32 set.size)).size = set.size := realSize_size set small
      have meets := (copies (BitVec.ofNat 32 set.size)).mpr size.ge
      rw [size] at meets
      exact iff_of_true meets small
    · -- The size is truncated to zero.
      have full : set.size = 2 ^ 32 := by
        have bound := set.small.1
        omega
      refine iff_of_false (not_leaves (copyWords_none ?_)) small
      have none : (cloneRoom set (BitVec.ofNat 32 set.size)).size = w * realSize w (BitVec.ofNat 32 set.size) := rfl
      have fits := set.small.2
      rw [none, full]
      rcases set.chunk with rfl | rfl
      · omega
      · decide
  · simp only [if_neg zero]
    exact copies newSize

/-- Each operation is the one on finite sets, and touches no word outside of the arrays, where it holds. -/
theorem call_meets_iff (call : Call w) (asserted : call.Asserted) : call.Meets ↔ call.Holds := by
  cases call with
  | invert set => exact iff_of_true (invert_meets set) trivial
  | count set => exact count_meets_iff set
  | clone set newSize => exact clone_meets_iff set newSize
  | copyto src dest => exact iff_of_true (copyto_meets asserted) trivial
  | union dest src => exact union_meets_iff asserted
  | intersection dest src => exact intersection_meets_iff asserted
  | intersection2 dest src1 src2 => exact intersection2_meets_iff asserted
  | sub dest src => exact iff_of_true (sub_meets asserted) trivial

end Calls

theorem chunk_word : 64 = 32 ∨ 64 = 64 := Or.inr rfl

theorem sized_word : 64 = 64 := rfl

theorem small_word : 64 ≤ 2 ^ 32 ∧ 64 < 2 ^ 64 := by decide

/-- A set of one word and a set of two. -/
def oneWord : MonoBitSet 64 where
  size := 64
  flags := 0
  data := [1]
  chunk := chunk_word
  sized := sized_word
  small := small_word

def twoWords : MonoBitSet 64 where
  size := 128
  flags := 0
  data := [2, 4]
  chunk := chunk_word
  sized := rfl
  small := by decide

/-- The members of the smaller set are taken out of the larger one. -/
theorem call_meets_sub : (Call.sub twoWords oneWord).Meets ↔ (Call.sub twoWords oneWord).Holds :=
  call_meets_iff (.sub twoWords oneWord) (by show 64 ≤ 128; decide)

/-- A union with a smaller set reads behind the words of that set. -/
theorem call_misses : ∃ call : Call 64, call.Asserted ∧ ¬call.Meets :=
  ⟨.union twoWords oneWord, by show 64 ≤ 128; decide, fun meets =>
    absurd ((union_meets_iff (by show 64 ≤ 128; decide)).mp meets) (by show ¬64 = 128; decide)⟩

end MonoRuntime.MonoBitset
