/-
Module: MonoRuntime.Proofs.MonoBitset
Purpose: The searches of `monobitset.c` find the first or the last bit there is on their side of the position, for every set
  and position, but where the place of the bit is no `int`, where the set has no words, and where the search for the last bit
  of all starts behind a bit that it leaves out.
Trusted boundary: none (fully proved)
Main exports: search_meets_iff, search_misses
-/
import MonoRuntime.Utils.MonoBitset
import MonoRuntime.Lib.BitSearch
import Mathlib.Order.Lattice.Nat

namespace MonoRuntime.MonoBitset

open MonoRuntime.Bitmap BitVec Option
open MonoRuntime.BitSearch

/-! ### Words -/

section Words

variable {w : Nat} {wild mask word : BitVec w} {nthBit : Int} {n : Nat}

theorem exists_isLeast (mask_ne : mask ≠ 0) : ∃ k, IsLeast {b | mask.getLsbD b = true} k := by
  have some_ : {b | mask.getLsbD b = true}.Nonempty := by
    by_contra none
    rw [Set.not_nonempty_iff_eq_empty, Set.eq_empty_iff_forall_notMem] at none
    refine mask_ne (eq_of_getLsbD_eq fun b _ => ?_)
    rw [Bool.eq_false_iff.mpr (none b)]
    exact getLsbD_zero.symm
  exact ⟨sInf _, Nat.sInf_mem some_, fun _ => Nat.sInf_le⟩

theorem lsfLoop_spec (positive : 0 < w) :
    ∀ rounds (mask : BitVec w) (nthBit : Int) (k : Nat), IsLeast {b | mask.getLsbD b = true} k → k < rounds →
      lsfLoop rounds mask nthBit = nthBit + k
  | rounds + 1, mask, nthBit, k, least, enough => by
      have bit : mask &&& 1#w = 0 ↔ mask.getLsbD 0 = false := by
        rw [← and_bit_eq_zero_iff positive, shiftLeft_zero]
      unfold lsfLoop
      by_cases here : mask.getLsbD 0 = true
      · have zero : k = 0 := Nat.le_zero.mp (least.2 here)
        rw [if_neg (by rw [bit, here]; decide), zero]
        exact (add_zero nthBit).symm
      · have later : k ≠ 0 := fun zero => here (zero ▸ least.1)
        have rest : IsLeast {b | (mask >>> 1).getLsbD b = true} (k - 1) := by
          constructor
          · change (mask >>> 1).getLsbD (k - 1) = true
            rw [getLsbD_ushiftRight, Nat.add_sub_cancel' (by omega)]
            exact least.1
          · intro b set
            change (mask >>> 1).getLsbD b = true at set
            rw [getLsbD_ushiftRight] at set
            have lower := least.2 set
            omega
        rw [if_pos (bit.mpr (Bool.eq_false_iff.mpr here)),
          lsfLoop_spec positive rounds (mask >>> 1) (nthBit + 1) (k - 1) rest (by omega)]
        omega

theorem myGBitNthLsfNomask_spec (positive : 0 < w) (word_ne : word ≠ 0) :
    IsFirst (inWord (fun (word : BitVec w) b => word.getLsbD b = true) w word) (myGBitNthLsfNomask word) := by
  obtain ⟨k, least⟩ := exists_isLeast word_ne
  have inside : k < w := lt_of_getLsbD least.1
  unfold myGBitNthLsfNomask
  rw [lsfLoop_spec positive w word 0 k least inside, zero_add]
  exact Or.inr ⟨k, rfl, ⟨inside, least.1⟩, fun b set => least.2 set.2⟩

/-- `my_g_bit_nth_lsf` finds the first bit behind the one given, and no shift by the width of a word shows. -/
theorem myGBitNthLsf_spec (positive : 0 < w) (word : BitVec w) (lower : -1 ≤ nthBit) (upper : nthBit < w) :
    IsFirst {k | k < w ∧ word.getLsbD k = true ∧ nthBit < k} (myGBitNthLsf wild word nthBit) := by
  obtain ⟨n, next⟩ := Int.eq_ofNat_of_zero_le (show 0 ≤ nthBit + 1 by omega)
  unfold myGBitNthLsf shiftRight
  simp only [next, Int.toNat_natCast]
  by_cases last : n = w
  · rw [if_pos (Or.inr (by rw [last]))]
    refine Or.inl ⟨rfl, Set.eq_empty_iff_forall_notMem.mpr ?_⟩
    rintro k ⟨small, -, behind⟩
    omega
  · rw [if_pos (show n < w by omega)]
    by_cases none : word >>> n = 0
    · rw [if_pos (Or.inl none)]
      refine Or.inl ⟨rfl, Set.eq_empty_iff_forall_notMem.mpr ?_⟩
      rintro k ⟨small, set, behind⟩
      have clear := congrArg (fun word => word.getLsbD (k - n)) none
      rw [getLsbD_ushiftRight, Nat.add_sub_cancel' (by omega), set] at clear
      exact absurd clear (by simp)
    · obtain ⟨k, set, least⟩ := exists_isLeast none
      change (word >>> n).getLsbD k = true at set
      have inside : k < w := lt_of_getLsbD set
      rw [if_neg (not_or.mpr ⟨none, by omega⟩), lsfLoop_spec positive w _ _ k ⟨set, least⟩ inside]
      rw [getLsbD_ushiftRight] at set
      refine Or.inr ⟨n + k, by omega, ⟨lt_of_getLsbD set, set, by omega⟩, ?_⟩
      rintro j ⟨-, other, behind⟩
      have lower : k ≤ j - n := least (by
        change (word >>> n).getLsbD (j - n) = true
        rw [getLsbD_ushiftRight, Nat.add_sub_cancel' (by omega)]
        exact other)
      omega

/-- `find_first_unset` finds the first bit behind the one given that is clear. -/
theorem unsetLoop_spec (positive : 0 < w) :
    ∀ (rounds : Nat) (nthBit : Int), -1 ≤ nthBit → nthBit < w → w ≤ nthBit + rounds →
      IsFirst {k | k < w ∧ mask.getLsbD k = false ∧ nthBit < k} (unsetLoop wild mask rounds nthBit)
  | 0, nthBit, _, upper, enough => by omega
  | rounds + 1, nthBit, lower, upper, enough => by
      obtain ⟨n, next⟩ := Int.eq_ofNat_of_zero_le (show 0 ≤ nthBit + 1 by omega)
      unfold unsetLoop shiftLeft
      simp only [next, Int.toNat_natCast]
      by_cases last : n = w
      · have none : {k | k < w ∧ mask.getLsbD k = false ∧ nthBit < k} = ∅ := by
          refine Set.eq_empty_iff_forall_notMem.mpr ?_
          rintro k ⟨small, -, behind⟩
          omega
        rw [none, if_neg (by omega : ¬n < w), if_pos (by omega : (n : Int) = w),
          if_neg (by omega : ¬(n : Int) < w), ite_self]
        exact Or.inl ⟨rfl, rfl⟩
      · have small : n < w := by omega
        rw [if_pos small, if_neg (by omega : ¬(n : Int) = w), if_pos (by omega : (n : Int) < w)]
        by_cases clear : mask.getLsbD n = false
        · rw [if_pos ((and_bit_eq_zero_iff small).mpr clear)]
          refine Or.inr ⟨n, rfl, ⟨small, clear, by omega⟩, ?_⟩
          rintro k ⟨-, -, behind⟩
          omega
        · rw [if_neg (mt (and_bit_eq_zero_iff small).mp clear)]
          have same : {k | k < w ∧ mask.getLsbD k = false ∧ nthBit < k} =
              {k | k < w ∧ mask.getLsbD k = false ∧ (n : Int) < k} := by
            ext k
            refine and_congr_right fun _ => and_congr_right fun free => ?_
            have other : k ≠ n := fun same => clear (same ▸ free)
            omega
          rw [same]
          exact unsetLoop_spec positive rounds n (by omega) (by omega) (by omega)

/-- What is left of a word while the search goes down: its bits below a place, shifted to the top, and no bit above. -/
def Above (word mask : BitVec w) (i : Nat) : Prop :=
  i ≤ w ∧ mask = word <<< (w - i) ∧ ∀ b, i ≤ b → word.getLsbD b = false

theorem Above.shift {m : Nat} {i : Nat} (above : Above word mask i) (le : m ≤ i)
    (clear : ∀ b, i - m ≤ b → b < i → word.getLsbD b = false) : Above word (mask <<< m) (i - m) := by
  obtain ⟨inside, rfl, rest⟩ := above
  refine ⟨by omega, ?_, fun b ge => ?_⟩
  · rw [← shiftLeft_add]
    congr 1
    omega
  · by_cases below : b < i
    · exact clear b ge below
    · exact rest b (by omega)

theorem Above.getLsbD {i b : Nat} (above : Above word mask i) (below : b < i) :
    mask.getLsbD (w - i + b) = word.getLsbD b := by
  obtain ⟨inside, rfl, -⟩ := above
  rw [getLsbD_shiftLeft, decide_eq_true (by omega), decide_eq_false (by omega), Nat.add_sub_cancel_left]
  simp

theorem Above.zero {i : Nat} (above : Above word mask i) (none : mask = 0) (b : Nat) : word.getLsbD b = false := by
  by_cases below : b < i
  · rw [← above.getLsbD below, none]
    exact getLsbD_zero
  · exact above.2.2 b (by omega)

theorem msfLoop_spec (positive : 0 < w) (nthBit : Nat) :
    ∀ rounds (mask : BitVec w) (i : Nat), Above word mask i → mask ≠ 0 → i ≤ rounds →
      ∃ k, IsGreatest {b | word.getLsbD b = true} k ∧ msfLoop nthBit rounds mask i = (k : Int) - (w - nthBit)
  | rounds, mask, 0, above, rest, _ => by
      refine absurd (eq_of_getLsbD_eq fun b inside => ?_) rest
      obtain ⟨-, rfl, clear⟩ := above
      rw [getLsbD_shiftLeft, clear _ (Nat.zero_le _)]
      simp
  | rounds + 1, mask, i + 1, above, rest, enough => by
      have inside := above.1
      have top : w - (i + 1) + i = w - 1 := by omega
      have bit : mask &&& 1#w <<< (w - 1) = 0 ↔ word.getLsbD i = false := by
        rw [and_bit_eq_zero_iff (by omega), ← top, above.getLsbD (Nat.lt_succ_self i)]
      have index : ((i + 1 : Nat) : Int) - 1 = i := by omega
      unfold msfLoop
      simp only [index]
      by_cases set : word.getLsbD i = true
      · rw [if_pos (by rw [Ne, bit, set]; decide)]
        refine ⟨i, ⟨set, fun b other => ?_⟩, rfl⟩
        by_contra later
        have clear := above.2.2 b (by omega)
        change word.getLsbD b = true at other
        rw [clear] at other
        contradiction
      · have clear : word.getLsbD i = false := Bool.eq_false_iff.mpr set
        have next : Above word (mask <<< 1) i := above.shift (by omega) fun b ge lt => by
          rw [show b = i by omega]
          exact clear
        rw [if_neg (by rw [Ne, bit, clear]; decide)]
        have left : mask <<< 1 ≠ 0 := by
          intro none
          refine rest (eq_of_getLsbD_eq fun b _ => ?_)
          rw [above.2.1, getLsbD_shiftLeft, next.zero none]
          simp
        rw [if_pos left]
        exact msfLoop_spec positive nthBit rounds _ i next left (by omega)

theorem skipBytes_spec (bytes : 8 ≤ w) : ∀ rounds (mask : BitVec w) (i : Nat), 8 ∣ i → Above word mask i →
      ∃ mask' i', skipBytes rounds mask i = (mask', ((i' : Nat) : Int)) ∧ Above word mask' i'
  | 0, mask, i, _, above => ⟨mask, i, rfl, above⟩
  | rounds + 1, mask, i, divides, above => by
      unfold skipBytes
      by_cases skip : (i : Int) > 0 ∧ mask >>> (w - 8) = 0
      · obtain ⟨positive, clear⟩ := skip
        have byte : 8 ≤ i := Nat.le_of_dvd (by omega) divides
        have next : Above word (mask <<< 8) (i - 8) := by
          refine above.shift byte fun b ge lt => ?_
          have inside := above.1
          have bit := congrArg (fun rest => rest.getLsbD (b - (i - 8))) clear
          rw [getLsbD_ushiftRight, show w - 8 + (b - (i - 8)) = w - i + b by omega, above.getLsbD lt] at bit
          rw [bit]
          exact getLsbD_zero
        rw [if_pos ⟨positive, clear⟩, show (i : Int) - 8 = ((i - 8 : Nat) : Int) by omega]
        exact skipBytes_spec bytes rounds _ _ ((Nat.dvd_sub divides (dvd_refl 8))) next
      · rw [if_neg skip]
        exact ⟨mask, i, rfl, above⟩

/-- `my_g_bit_nth_msf` finds the last bit before the one given, and shifts by less than the width of a word. -/
theorem myGBitNthMsf_spec (bytes : 8 ∣ w) (positive : 0 < w) (word : BitVec w) (le : n ≤ w) :
    IsLast {k | word.getLsbD k = true ∧ k < n} (myGBitNthMsf wild word n) := by
  have wide : 8 ≤ w := Nat.le_of_dvd positive bytes
  unfold myGBitNthMsf shiftLeft
  by_cases zero : n = 0
  · rw [if_pos zero]
    refine Or.inl ⟨rfl, Set.eq_empty_iff_forall_notMem.mpr ?_⟩
    rintro k ⟨-, below⟩
    omega
  rw [if_neg zero, if_pos (show w - n < w by omega)]
  have whole : Above (word <<< (w - n)) (word <<< (w - n)) w := by
    refine ⟨le_refl w, ?_, fun b ge => getLsbD_of_ge _ b ge⟩
    rw [Nat.sub_self, shiftLeft_zero]
  -- The bits of the shifted word are those before the one given.
  have bits : ∀ k, (word <<< (w - n)).getLsbD (w - n + k) = true ↔ word.getLsbD k = true ∧ k < n := by
    intro k
    rw [getLsbD_shiftLeft, Nat.add_sub_cancel_left, decide_eq_false (show ¬w - n + k < w - n by omega)]
    by_cases below : k < n
    · rw [decide_eq_true (show w - n + k < w by omega)]
      simp [below]
    · rw [decide_eq_false (show ¬w - n + k < w by omega)]
      simp [below]
  obtain ⟨rest, i, skips, above⟩ := skipBytes_spec wide (w / 8) _ w bytes whole
  rw [skips]
  simp only
  by_cases none : rest = 0
  · rw [if_pos none]
    refine Or.inl ⟨rfl, Set.eq_empty_iff_forall_notMem.mpr fun k inside => ?_⟩
    have set := (bits k).mpr inside
    rw [above.zero none] at set
    contradiction
  · obtain ⟨k, ⟨set, greatest⟩, found⟩ := msfLoop_spec positive n w rest i above none above.1
    rw [if_neg none, found]
    have shifted : w - n ≤ k := by
      by_contra low
      change (word <<< (w - n)).getLsbD k = true at set
      rw [getLsbD_shiftLeft, decide_eq_true (show k < w - n by omega)] at set
      simp at set
    obtain ⟨m, rfl⟩ := Nat.exists_eq_add_of_le shifted
    refine Or.inr ⟨m, by omega, (bits m).mp set, fun j inside => ?_⟩
    have upper := greatest ((bits j).mpr inside)
    omega

end Words

/-! ### Sets -/

section Sets

variable {w : Nat} {set : MonoBitSet w} {wild : BitVec w} {pos : BitVec 32} {mark : BitVec w → Nat → Prop}
  {worth : BitVec w → Bool}

theorem int32_neg_one : int32 (-1) = -1 := by
  decide

theorem laterWords_spec (positive : 0 < w) {search : BitVec w → Int}
    (isWorth : ∀ word, worth word = true ↔ (inWord mark w word).Nonempty)
    (finds : ∀ word, worth word = true → IsFirst (inWord mark w word) (search word)) : ∀ (words : List (BitVec w)) i,
      ∃ r, IsFirst (inWords mark w words i) r ∧ laterWords worth search words i = int32 r
  | [], i => ⟨-1, Or.inl ⟨rfl, inWords_nil i⟩, int32_neg_one.symm⟩
  | word :: words, i => by
      rw [inWords_cons positive]
      unfold laterWords
      by_cases here : worth word = true
      · have first := finds word here
        have found := first.ne_iff.mpr ((isWorth word).mp here)
        rw [if_pos here]
        refine ⟨search word + i * w, ?_, rfl⟩
        have shifted := first.shift (n := i * w) found
        have some_ := shifted.ne_iff.mpr (((isWorth word).mp here).image _)
        refine shifted.union some_ ?_
        intro a inside b behind
        exact (place_lt (((mem_shift_inWord positive).mp inside).1.trans_lt behind.1)).le
      · have none : inWord mark w word = ∅ := Set.not_nonempty_iff_eq_empty.mp (mt (isWorth word).mpr here)
        rw [if_neg here, none, Set.image_empty, Set.empty_union]
        exact laterWords_spec positive isWorth finds words (i + 1)

theorem earlierWords_spec (positive : 0 < w) {search : BitVec w → Int}
    (isWorth : ∀ word : BitVec w, word ≠ 0 ↔ (inWord mark w word).Nonempty)
    (finds : ∀ word : BitVec w, word ≠ 0 → IsLast (inWord mark w word) (search word)) (words : List (BitVec w)) :
    ∀ i ≤ words.length,
      ∃ r, IsLast {k | k ∈ inWords mark w words 0 ∧ k / w < i} r ∧ earlierWords search words i = int32 r
  | 0, _ => ⟨-1, Or.inl ⟨rfl, by simp⟩, int32_neg_one.symm⟩
  | i + 1, inside => by
      have is : words[i]? = some (words.getD i 0) := by
        rw [List.getD_eq_getElem?_getD, List.getElem?_eq_getElem (show i < words.length by omega), getD_some]
      rw [inWords_upTo positive is]
      unfold earlierWords
      by_cases here : words.getD i 0 = 0
      · have none : inWord mark w (words.getD i 0) = ∅ :=
          Set.not_nonempty_iff_eq_empty.mp (mt (isWorth _).mpr (not_not.mpr here))
        rw [if_neg (not_not.mpr here), none, Set.image_empty, Set.empty_union]
        exact earlierWords_spec positive isWorth finds words i (by omega)
      · have last := finds _ here
        have some_ := (isWorth _).mp here
        rw [if_pos here]
        refine ⟨search (words.getD i 0) + i * w, ?_, rfl⟩
        have shifted := last.shift (n := i * w) (last.ne_iff.mpr some_)
        refine shifted.union (shifted.ne_iff.mpr (some_.image _)) ?_
        intro a inside b before
        exact (place_lt (before.2.trans_eq ((mem_shift_inWord positive).mp inside).1.symm)).le

theorem MonoBitSet.positive (set : MonoBitSet w) : 0 < w := by
  rcases set.chunk with rfl | rfl
  · decide
  · decide

theorem MonoBitSet.bytes (set : MonoBitSet w) : 8 ∣ w := by
  rcases set.chunk with rfl | rfl
  · decide
  · decide

theorem MonoBitSet.div_lt (set : MonoBitSet w) {k : Nat} (inside : k < set.size) : k / w < set.data.length :=
  Nat.div_lt_of_lt_mul (set.sized ▸ inside)

theorem findFrom_spec {search : BitVec w → Int → Int} {j : Nat} {bit : Int}
    (isWorth : ∀ word, worth word = true ↔ (inWord mark w word).Nonempty) (finds : ∀ word (bit : Int), -1 ≤ bit → bit < w →
      IsFirst (inWord (fun word b => mark word b ∧ bit < (b : Nat)) w word) (search word bit))
    (index : j < set.data.length) (lower : -1 ≤ bit) (upper : bit < w) :
    ∃ r, IsFirst {k | k ∈ inWords mark w set.data 0 ∧ (j < k / w ∨ k / w = j ∧ bit < (k % w : Nat))} r ∧
      findFrom set worth search j bit = some (int32 r) := by
  have positive := set.positive
  have is : set.data[j]? = some set.data[j] := List.getElem?_eq_getElem index
  have first : IsFirst (inWord (fun word b => mark word b ∧ bit < (b : Nat)) w set.data[j])
      (if worth set.data[j] then search set.data[j] bit else -1) := by
    by_cases here : worth set.data[j] = true
    · rw [if_pos here]
      exact finds _ bit lower upper
    · rw [if_neg here]
      refine Or.inl ⟨rfl, Set.eq_empty_iff_forall_notMem.mpr fun b inside => ?_⟩
      exact here ((isWorth _).mpr ⟨b, inside.1, inside.2.1⟩)
  have whole : ∀ word, worth word = true → IsFirst (inWord mark w word) (search word (-1)) := by
    intro word _
    have same : inWord (fun word b => mark word b ∧ (-1 : Int) < (b : Nat)) w word = inWord mark w word := by
      ext b
      simp only [inWord, Set.mem_ofPred_eq]
      refine and_congr_right fun _ => and_iff_left ?_
      omega
    rw [← same]
    exact finds word (-1) (le_refl _) (by omega)
  rw [inWords_behind positive is fun b => bit < (b : Nat)]
  unfold findFrom MonoBitSet.load
  rw [is]
  simp only
  by_cases found : (if worth set.data[j] then search set.data[j] bit else -1) = -1
  · obtain ⟨r, later, computes⟩ := laterWords_spec positive isWorth whole (set.data.drop (j + 1)) (j + 1)
    have none := Set.not_nonempty_iff_eq_empty.mp (mt first.ne_iff.mpr (not_not.mpr found))
    rw [none, Set.image_empty, Set.empty_union, if_neg (not_not.mpr found)]
    exact ⟨r, later, congrArg some computes⟩
  · have shifted := first.shift (n := j * w) found
    rw [if_pos found]
    refine ⟨_, shifted.union (shifted.ne_iff.mpr ((first.ne_iff.mp found).image _)) ?_, rfl⟩
    intro a inside b behind
    exact (place_lt (((mem_shift_inWord positive).mp inside).1.trans_lt behind.1)).le

theorem toInt_of_nonneg (start : ¬pos.toInt < 0) : pos.toInt = pos.toNat := by
  rw [toInt_eq_toNat_cond] at start ⊢
  split
  next => rfl
  next large =>
    rw [if_neg large] at start
    omega

theorem findAfter_spec {search : BitVec w → Int → Int} (outside : Option Int)
    (isWorth : ∀ word, worth word = true ↔ (inWord mark w word).Nonempty) (finds : ∀ word (bit : Int), -1 ≤ bit → bit < w →
      IsFirst (inWord (fun word b => mark word b ∧ bit < (b : Nat)) w word) (search word bit))
    (asserted : pos.toInt < set.size) (some_ : pos.toInt < 0 → set.size ≠ 0) :
    ∃ r, IsFirst {k | k ∈ inWords mark w set.data 0 ∧ pos.toInt < (k : Nat)} r ∧
      findAfter set worth search outside pos = some (int32 r) := by
  have positive := set.positive
  unfold findAfter
  by_cases start : pos.toInt < 0
  · have index := set.div_lt (Nat.pos_of_ne_zero (some_ start))
    rw [Nat.zero_div] at index
    obtain ⟨r, first, computes⟩ := findFrom_spec isWorth finds index (le_refl _) (show (-1 : Int) < w by omega)
    rw [if_pos start]
    refine ⟨r, ?_, computes⟩
    have same (k : Nat) : pos.toInt < k ↔ 0 < k / w ∨ k / w = 0 ∧ (-1 : Int) < (k % w : Nat) := by
      rcases Nat.eq_zero_or_pos (k / w) with zero | more
      · exact iff_of_true (by omega) (Or.inr ⟨zero, by omega⟩)
      · exact iff_of_true (by omega) (Or.inl more)
    simpa only [same] using first
  · have unsigned := toInt_of_nonneg start
    have index := set.div_lt (show pos.toNat < set.size by omega)
    have small := Nat.mod_lt pos.toNat positive
    obtain ⟨r, first, computes⟩ := findFrom_spec isWorth finds index
      (show (-1 : Int) ≤ (pos.toNat % w : Nat) by omega) (by omega)
    rw [if_neg start, if_neg (by omega)]
    refine ⟨r, ?_, computes⟩
    have same (k : Nat) : pos.toInt < k ↔
        pos.toNat / w < k / w ∨ k / w = pos.toNat / w ∧ ((pos.toNat % w : Nat) : Int) < (k % w : Nat) := by
      rw [unsigned, Nat.cast_lt, Nat.cast_lt, ← lt_iff_place]
    simpa only [same] using first

theorem word_ne_zero_iff {word : BitVec w} :
    word ≠ 0 ↔ (inWord (fun (word : BitVec w) b => word.getLsbD b = true) w word).Nonempty := by
  constructor
  · intro some_
    obtain ⟨b, set, -⟩ := exists_isLeast some_
    exact ⟨b, lt_of_getLsbD set, set⟩
  · rintro ⟨b, -, set⟩ rfl
    exact absurd set (by simp)

theorem word_ne_ones_iff {word : BitVec w} :
    word ≠ -1 ↔ (inWord (fun (word : BitVec w) b => word.getLsbD b = false) w word).Nonempty := by
  have ones (b : Nat) (inside : b < w) : (-1 : BitVec w).getLsbD b = true := by
    change (-1#w).getLsbD b = true
    rw [neg_one_eq_allOnes, getLsbD_allOnes, decide_eq_true inside]
  constructor
  · intro some_
    by_contra none
    refine some_ (eq_of_getLsbD_eq fun b inside => ?_)
    rw [ones b inside]
    exact Bool.eq_true_of_not_eq_false fun clear => none ⟨b, inside, clear⟩
  · rintro ⟨b, inside, clear⟩ rfl
    rw [ones b inside] at clear
    contradiction

theorem findBack_spec (set : MonoBitSet w) (wild : BitVec w) {upos : Nat} (inside : upos < set.size) :
    ∃ r, IsLast {k | k ∈ inWords (fun (word : BitVec w) b => word.getLsbD b = true) w set.data 0 ∧ k < upos} r ∧
      findBack set wild (upos / w) (upos % w) = some (int32 r) := by
  have positive := set.positive
  have index := set.div_lt inside
  have small := Nat.mod_lt upos positive
  have is : set.data[upos / w]? = some set.data[upos / w] := List.getElem?_eq_getElem index
  have finds : ∀ (word : BitVec w) n, n ≤ w →
      IsLast (inWord (fun word b => word.getLsbD b = true ∧ b < n) w word) (myGBitNthMsf wild word n) := by
    intro word n le
    have same : inWord (fun (word : BitVec w) b => word.getLsbD b = true ∧ b < n) w word =
        {k | word.getLsbD k = true ∧ k < n} := by
      ext b
      exact ⟨fun inside => inside.2, fun inside => ⟨lt_of_getLsbD inside.1, inside⟩⟩
    rw [same]
    exact myGBitNthMsf_spec set.bytes positive word le
  have whole : ∀ word : BitVec w, word ≠ 0 →
      IsLast (inWord (fun (word : BitVec w) b => word.getLsbD b = true) w word) (myGBitNthMsf wild word w) := by
    intro word _
    have same : inWord (fun (word : BitVec w) b => word.getLsbD b = true ∧ b < w) w word =
        inWord (fun (word : BitVec w) b => word.getLsbD b = true) w word := by
      ext b
      exact ⟨fun inside => ⟨inside.1, inside.2.1⟩, fun inside => ⟨inside.1, inside.2, inside.1⟩⟩
    rw [← same]
    exact finds word w (le_refl w)
  have last : IsLast (inWord (fun (word : BitVec w) b => word.getLsbD b = true ∧ b < upos % w) w set.data[upos / w])
      (if set.data[upos / w] ≠ 0 then myGBitNthMsf wild set.data[upos / w] (upos % w) else -1) := by
    by_cases here : set.data[upos / w] = 0
    · rw [if_neg (not_not.mpr here)]
      refine Or.inl ⟨rfl, Set.eq_empty_iff_forall_notMem.mpr fun b inside => ?_⟩
      exact word_ne_zero_iff.mpr ⟨b, inside.1, inside.2.1⟩ here
    · rw [if_pos here]
      exact finds _ _ small.le
  have split : ∀ k, k < upos ↔ k / w < upos / w ∨ k / w = upos / w ∧ k % w < upos % w := by
    intro k
    rw [lt_iff_place, eq_comm (a := upos / w)]
  simp only [split]
  rw [inWords_before positive is fun b => b < upos % w]
  unfold findBack MonoBitSet.load
  rw [is]
  simp only
  by_cases found : (if set.data[upos / w] ≠ 0 then myGBitNthMsf wild set.data[upos / w] (upos % w) else -1) = -1
  · obtain ⟨r, earlier, computes⟩ :=
      earlierWords_spec positive (fun _ => word_ne_zero_iff) whole set.data (upos / w) index.le
    have none := Set.not_nonempty_iff_eq_empty.mp (mt last.ne_iff.mpr (not_not.mpr found))
    rw [none, Set.image_empty, Set.empty_union, if_neg (not_not.mpr found)]
    exact ⟨r, earlier, congrArg some computes⟩
  · have shifted := last.shift (n := upos / w * w) found
    rw [if_pos found]
    refine ⟨_, shifted.union (shifted.ne_iff.mpr ((last.ne_iff.mp found).image _)) ?_, rfl⟩
    intro a inside b before
    exact (place_lt (before.2.trans_eq ((mem_shift_inWord positive).mp inside).1.symm)).le

end Sets

/-! ### Results as `int` -/

section Results

variable {places : Set Nat} {r : Int}

theorem int32_natCast {k : Nat} (word : k < 2 ^ 32) : int32 k = if k < 2 ^ 31 then (k : Int) else k - 2 ^ 32 := by
  unfold int32
  split
  next small => exact Int.bmod_eq_of_le (by omega) (by omega)
  next large =>
    have turn : (k : Int) = k - 2 ^ 32 + (2 ^ 32 : Nat) := by omega
    rw [turn, Int.add_bmod_right, Int.bmod_eq_of_le (by omega) (by omega)]
    omega

theorem isFirst_int32_iff (bounded : ∀ k ∈ places, k < 2 ^ 32) (first : IsFirst places r) :
    IsFirst places (int32 r) ↔ (places.Nonempty → ∃ k ∈ places, k < 2 ^ 31) := by
  rcases first with ⟨rfl, none⟩ | ⟨k, rfl, least⟩
  · rw [int32_neg_one, none]
    exact iff_of_true (Or.inl ⟨rfl, rfl⟩) fun some_ => absurd some_ Set.not_nonempty_empty
  · rw [int32_natCast (bounded k least.1)]
    split
    next small => exact iff_of_true (Or.inr ⟨k, rfl, least⟩) fun _ => ⟨k, least.1, small⟩
    next large =>
      refine iff_of_false ?_ fun holds => ?_
      · have word := bounded k least.1
        rintro (⟨-, none⟩ | ⟨m, is, -⟩)
        · exact Set.eq_empty_iff_forall_notMem.mp none k least.1
        · omega
      · obtain ⟨m, inside, small⟩ := holds ⟨k, least.1⟩
        exact large ((least.2 inside).trans_lt small)

theorem isLast_int32_iff (bounded : ∀ k ∈ places, k < 2 ^ 32) (last : IsLast places r) :
    IsLast places (int32 r) ↔ ∀ k ∈ places, k < 2 ^ 31 := by
  rcases last with ⟨rfl, none⟩ | ⟨k, rfl, greatest⟩
  · rw [int32_neg_one, none]
    exact iff_of_true (Or.inl ⟨rfl, rfl⟩) fun k inside => absurd inside (Set.notMem_empty k)
  · rw [int32_natCast (bounded k greatest.1)]
    split
    next small => exact iff_of_true (Or.inr ⟨k, rfl, greatest⟩) fun m inside => (greatest.2 inside).trans_lt small
    next large =>
      refine iff_of_false ?_ fun holds => large (holds k greatest.1)
      have word := bounded k greatest.1
      rintro (⟨-, none⟩ | ⟨m, is, -⟩)
      · exact Set.eq_empty_iff_forall_notMem.mp none k greatest.1
      · omega

end Results

/-! ### The searches -/

/-- A search in a set. -/
inductive Search where
  | start
  | first (pos : BitVec 32)
  | firstUnset (pos : BitVec 32)
  | last (pos : BitVec 32)
  deriving DecidableEq, Repr

section Searching

variable {w : Nat}

/-- What the searches assert: the position is before the end of the set. -/
def Search.Asserted (set : MonoBitSet w) : Search → Prop
  | .start => True
  | .first pos | .firstUnset pos | .last pos => pos.toInt < set.size

/-- What a search returns. -/
def Search.run (wild : BitVec w) (set : MonoBitSet w) : Search → Option Int
  | .start => some (monoBitsetFindStart set)
  | .first pos => monoBitsetFindFirst set wild pos
  | .firstUnset pos => monoBitsetFindFirstUnset set wild pos
  | .last pos => monoBitsetFindLast set wild pos

/-- The bits that a search is about. -/
def Search.places (set : MonoBitSet w) : Search → Set Nat
  | .start => {k | set.test k = true}
  | .first pos => {k | set.test k = true ∧ pos.toInt < k}
  | .firstUnset pos => {k | k < set.size ∧ set.test k = false ∧ pos.toInt < k}
  | .last pos => {k | set.test k = true ∧ (0 ≤ pos.toInt → k < pos.toInt)}

/-- The first or the last of its bits is found, and -1 where there is none. -/
def Search.Finds (set : MonoBitSet w) (search : Search) (result : Option Int) : Prop :=
  ∃ r, result = some r ∧
    match search with
    | .last _ => IsLast (search.places set) r
    | _ => IsFirst (search.places set) r

/-- Where a search finds what it is for: the bit is an `int`, there is a word to begin with, and the last bit of all is not
set where the search begins before it. -/
def Search.Holds (set : MonoBitSet w) (search : Search) : Prop :=
  match search with
  | .start => (search.places set).Nonempty → ∃ k ∈ search.places set, k < 2 ^ 31
  | .first pos | .firstUnset pos =>
    (pos.toInt < 0 → set.size ≠ 0) ∧ ((search.places set).Nonempty → ∃ k ∈ search.places set, k < 2 ^ 31)
  | .last pos =>
    0 ≤ pos.toInt ∨ search.places set = ∅ ∨
      set.test (set.size - 1) = false ∧ (set.size ≤ 2 ^ 31 ∨ w = 32 ∧ ∀ k ∈ search.places set, k < 2 ^ 31)

section Places

variable (set : MonoBitSet w) {k : Nat}

theorem MonoBitSet.test_eq (k : Nat) : set.test k = (set.data.getD (k / w) 0).getLsbD (k % w) :=
  rfl

theorem mem_set_places :
    k ∈ inWords (fun (word : BitVec w) b => word.getLsbD b = true) w set.data 0 ↔ set.test k = true := by
  rw [mem_inWords, set.test_eq, List.getD_eq_getElem?_getD]
  cases word : set.data[k / w]? with
  | none | some word => simp

theorem index_iff : k / w < set.data.length ↔ k < set.size := by
  rw [set.sized, Nat.div_lt_iff_lt_mul set.positive, Nat.mul_comm]

theorem mem_unset_places :
    k ∈ inWords (fun (word : BitVec w) b => word.getLsbD b = false) w set.data 0 ↔
      k < set.size ∧ set.test k = false := by
  rw [mem_inWords, set.test_eq, List.getD_eq_getElem?_getD, ← index_iff]
  cases word : set.data[k / w]? with
  | none =>
    have outside := List.getElem?_eq_none_iff.mp word
    simp [Nat.not_lt.mpr outside]
  | some word =>
    obtain ⟨index, -⟩ := List.getElem?_eq_some_iff.mp word
    simp [index]

theorem MonoBitSet.lt_size (is : set.test k = true) : k < set.size := by
  obtain ⟨word, found, -⟩ := mem_inWords.mp ((mem_set_places set).mpr is)
  obtain ⟨index, -⟩ := List.getElem?_eq_some_iff.mp found
  exact (index_iff set).mp index

end Places

theorem Search.bounded (set : MonoBitSet w) (search : Search) : ∀ k ∈ search.places set, k < 2 ^ 32 := by
  have small := set.small.1
  have bits (k : Nat) (is : set.test k = true) : k < 2 ^ 32 := (set.lt_size is).trans_le small
  intro k inside
  cases search with
  | start => exact bits k inside
  | first pos => exact bits k inside.1
  | firstUnset pos => exact inside.1.trans_le small
  | last pos => exact bits k inside.1

theorem findStart_meets_iff (wild : BitVec w) (set : MonoBitSet w) :
    Search.start.Finds set (Search.start.run wild set) ↔ Search.start.Holds set := by
  obtain ⟨r, first, computes⟩ := laterWords_spec set.positive (fun word => decide_eq_true_iff.trans word_ne_zero_iff)
    (fun word some_ => myGBitNthLsfNomask_spec set.positive (of_decide_eq_true some_)) set.data 0
  have same : inWords (fun (word : BitVec w) b => word.getLsbD b = true) w set.data 0 = Search.start.places set :=
    Set.ext fun k => mem_set_places set
  have result : Search.start.run wild set = some (int32 r) := congrArg some computes
  rw [same] at first
  unfold Search.Finds
  simp only [result, some_inj, exists_eq_left']
  exact isFirst_int32_iff (Search.bounded set .start) first

theorem findAfter_meets_iff (wild : BitVec w) (set : MonoBitSet w) {pos : BitVec 32} {search : Search}
    (isSearch : search = .first pos ∨ search = .firstUnset pos) (asserted : search.Asserted set) :
    search.Finds set (search.run wild set) ↔ search.Holds set := by
  have positive := set.positive
  by_cases empty : pos.toInt < 0 ∧ set.size = 0
  · -- The set has no words, and the first one is read nevertheless.
    obtain ⟨start, none⟩ := empty
    have words : set.data = [] := by
      have sized := set.sized
      rw [none] at sized
      exact List.eq_nil_of_length_eq_zero ((Nat.mul_eq_zero.mp sized.symm).resolve_left positive.ne')
    have nothing (worth search outside) : findAfter set worth search outside pos = Option.none := by
      unfold findAfter findFrom MonoBitSet.load
      rw [if_pos start, words]
      rfl
    rcases isSearch with rfl | rfl
    · refine iff_of_false ?_ fun holds => holds.1 start none
      rintro ⟨r, is, -⟩
      exact absurd ((nothing _ _ _).symm.trans is) nofun
    · refine iff_of_false ?_ fun holds => holds.1 start none
      rintro ⟨r, is, -⟩
      exact absurd ((nothing _ _ _).symm.trans is) nofun
  have some_ : pos.toInt < 0 → set.size ≠ 0 := fun start none => empty ⟨start, none⟩
  have spec : ∃ r, IsFirst (search.places set) r ∧ search.run wild set = some (int32 r) := by
    rcases isSearch with rfl | rfl
    · obtain ⟨r, first, computes⟩ := findAfter_spec none (fun word => decide_eq_true_iff.trans word_ne_zero_iff)
        (fun word bit lower upper => myGBitNthLsf_spec positive word lower upper) asserted some_
      have same : {k | k ∈ inWords (fun (word : BitVec w) b => word.getLsbD b = true) w set.data 0 ∧
          pos.toInt < (k : Nat)} = (Search.first pos).places set :=
        Set.ext fun k => and_congr_left fun _ => mem_set_places set
      exact ⟨r, same ▸ first, computes⟩
    · obtain ⟨r, first, computes⟩ := findAfter_spec (some (-1)) (fun word => decide_eq_true_iff.trans word_ne_ones_iff)
        (fun word bit lower upper => unsetLoop_spec positive (w + 1) bit lower upper (by omega)) asserted some_
      have same : {k | k ∈ inWords (fun (word : BitVec w) b => word.getLsbD b = false) w set.data 0 ∧
          pos.toInt < (k : Nat)} = (Search.firstUnset pos).places set := by
        ext k
        exact (and_congr_left fun _ => mem_unset_places set).trans and_assoc
      exact ⟨r, same ▸ first, computes⟩
  obtain ⟨r, first, computes⟩ := spec
  have result := isFirst_int32_iff (search.bounded set) first
  rcases isSearch with rfl | rfl
  · unfold Search.Finds Search.Holds
    simp only [computes, some_inj, exists_eq_left']
    exact result.trans (and_iff_right some_).symm
  · unfold Search.Finds Search.Holds
    simp only [computes, some_inj, exists_eq_left']
    exact result.trans (and_iff_right some_).symm

/-- The end of the set as an `int`, where it is one, or where a word is no larger than an `int`. -/
theorem upos_end (set : MonoBitSet w) (some_ : 0 < set.size) (reaches : set.size ≤ 2 ^ 31 ∨ w = 32) :
    (int32 (set.size - 1) % 2 ^ w).toNat = set.size - 1 := by
  have small := set.small.1
  have value := int32_natCast (show set.size - 1 < 2 ^ 32 by omega)
  rw [Nat.cast_sub some_, Nat.cast_one] at value
  rw [value]
  rcases set.chunk with rfl | rfl
  · split
    all_goals omega
  · rw [if_pos (by omega)]
    omega

theorem upos_behind (set : MonoBitSet w) (misses : ¬(0 < set.size ∧ (set.size ≤ 2 ^ 31 ∨ w = 32))) :
    set.size ≤ (int32 (set.size - 1) % 2 ^ w).toNat := by
  have small := set.small.1
  by_cases none : set.size = 0
  · rw [none]
    exact Nat.zero_le _
  · have value := int32_natCast (show set.size - 1 < 2 ^ 32 by omega)
    rw [Nat.cast_sub (by omega), Nat.cast_one, if_neg (by omega)] at value
    rcases set.chunk with rfl | rfl
    · omega
    · omega

theorem findLast_meets_iff (wild : BitVec w) (set : MonoBitSet w) (pos : BitVec 32) (asserted : pos.toInt < set.size) :
    (Search.last pos).Finds set ((Search.last pos).run wild set) ↔ (Search.last pos).Holds set := by
  have small := set.small
  have places_eq : (Search.last pos).places set = {k | set.test k = true ∧ (0 ≤ pos.toInt → k < pos.toInt)} := rfl
  have bounded := Search.bounded set (.last pos)
  have back (upos : Nat) (inside : upos < set.size) : ∃ r, IsLast {k | set.test k = true ∧ k < upos} r ∧
      findBack set wild (upos / w) (upos % w) = some (int32 r) := by
    obtain ⟨r, last, computes⟩ := findBack_spec set wild inside
    have same : {k | k ∈ inWords (fun (word : BitVec w) b => word.getLsbD b = true) w set.data 0 ∧ k < upos} =
        {k | set.test k = true ∧ k < upos} := Set.ext fun k => and_congr_left fun _ => mem_set_places set
    exact ⟨r, same ▸ last, computes⟩
  unfold Search.Finds
  simp only
  change (∃ r, monoBitsetFindLast set wild pos = some r ∧ IsLast _ r) ↔ _
  unfold monoBitsetFindLast
  simp only
  by_cases start : pos.toInt < 0
  · have all : (Search.last pos).places set = {k | set.test k = true} := by
      ext k
      exact and_iff_left fun nonneg => absurd start (not_lt.mpr nonneg)
    have holds : (Search.last pos).Holds set ↔ (Search.last pos).places set = ∅ ∨
        set.test (set.size - 1) = false ∧
          (set.size ≤ 2 ^ 31 ∨ w = 32 ∧ ∀ k ∈ (Search.last pos).places set, k < 2 ^ 31) :=
      or_iff_right (not_le.mpr start)
    rw [if_pos start, holds]
    by_cases reaches : 0 < set.size ∧ (set.size ≤ 2 ^ 31 ∨ w = 32)
    · obtain ⟨r, last, computes⟩ := back (set.size - 1) (by omega)
      rw [upos_end set reaches.1 reaches.2, if_neg (by omega), computes]
      simp only [some_inj, exists_eq_left']
      by_cases top : set.test (set.size - 1) = false
      · have same : {k | set.test k = true ∧ k < set.size - 1} = (Search.last pos).places set := by
          rw [all]
          ext k
          refine and_iff_left_of_imp fun is => ?_
          have other : k ≠ set.size - 1 := fun same => Bool.eq_false_iff.mp top (same ▸ is)
          have inside := set.lt_size is
          omega
        rw [same] at last
        refine (isLast_int32_iff bounded last).trans ⟨fun ints => ?_, ?_⟩
        · exact Or.inr ⟨top, reaches.2.imp_right fun word => ⟨word, ints⟩⟩
        · rintro (none | ⟨-, short | ⟨-, ints⟩⟩)
          · exact fun k inside => absurd inside (Set.eq_empty_iff_forall_notMem.mp none k)
          · exact fun k inside => (set.lt_size inside.1).trans_le short
          · exact ints
      · -- The last bit of all is set, and the search begins before it.
        have inside : set.size - 1 ∈ (Search.last pos).places set := by
          rw [all]
          exact Bool.eq_true_of_not_eq_false top
        refine iff_of_false ?_ ?_
        · have before : int32 r < (set.size - 1 : Nat) := by
            rcases last with ⟨rfl, -⟩ | ⟨k, rfl, ⟨-, before⟩, -⟩
            · rw [int32_neg_one]
              omega
            · rw [int32_natCast (by omega)]
              split
              all_goals omega
          rintro (⟨-, none⟩ | ⟨k, is, -, upper⟩)
          · exact Set.eq_empty_iff_forall_notMem.mp none _ inside
          · have le := upper inside
            omega
        · rintro (none | ⟨clear, -⟩)
          · exact Set.eq_empty_iff_forall_notMem.mp none _ inside
          · exact top clear
    · rw [if_pos (upos_behind set reaches)]
      simp only [some_inj, exists_eq_left']
      constructor
      · rintro (⟨-, none⟩ | ⟨k, is, -⟩)
        · exact Or.inl none
        · omega
      · rintro (none | ⟨-, reached⟩)
        · exact Or.inl ⟨rfl, none⟩
        · have empty : set.size = 0 := by
            by_contra some_
            exact reaches ⟨Nat.pos_of_ne_zero some_, reached.imp_right fun word => word.1⟩
          refine Or.inl ⟨rfl, Set.eq_empty_iff_forall_notMem.mpr fun k inside => ?_⟩
          have below := set.lt_size inside.1
          omega
  · have unsigned := toInt_of_nonneg start
    have word : (pos.toInt % 2 ^ w).toNat = pos.toNat := by
      rcases set.chunk with rfl | rfl
      · omega
      · omega
    have inside : pos.toNat < set.size := by omega
    obtain ⟨r, last, computes⟩ := back pos.toNat inside
    have same : {k | set.test k = true ∧ k < pos.toNat} = (Search.last pos).places set := by
      ext k
      refine and_congr_right fun _ => ?_
      omega
    rw [if_neg start, word, if_neg (by omega), computes]
    simp only [some_inj, exists_eq_left']
    rw [same] at last
    refine (isLast_int32_iff bounded last).trans (iff_of_true ?_ (Or.inl (by omega)))
    rintro k ⟨-, before⟩
    have upper := pos.toInt_lt
    omega

/-- Each search finds its bit where it holds, and shifts by the width of a word do not show. -/
theorem search_meets_iff (wild : BitVec w) (set : MonoBitSet w) (search : Search) (asserted : search.Asserted set) :
    search.Finds set (search.run wild set) ↔ search.Holds set := by
  cases search with
  | start => exact findStart_meets_iff wild set
  | first pos => exact findAfter_meets_iff wild set (Or.inl rfl) asserted
  | firstUnset pos => exact findAfter_meets_iff wild set (Or.inr rfl) asserted
  | last pos => exact findLast_meets_iff wild set pos asserted

end Searching

/-- A set of one word, of which the bits 3 and 63 are set. -/
def twoBits : MonoBitSet 64 where
  size := 64
  flags := 0
  data := [0x8000000000000008]
  chunk := Or.inr rfl
  sized := rfl
  small := by decide

/-- The last bit before the bit 63 of the set. -/
theorem search_meets_twoBits :
    (Search.last 63).Finds twoBits ((Search.last 63).run 0 twoBits) ↔ (Search.last 63).Holds twoBits :=
  search_meets_iff 0 twoBits (.last 63) (by show (63#32).toInt < ((64 : Nat) : Int); decide)

/-- The last bit of all is not found: the search from the end begins before it. -/
theorem search_misses :
    ∃ (set : MonoBitSet 64) (search : Search), search.Asserted set ∧
      ∀ wild, ¬search.Finds set (search.run wild set) := by
  have asserted : (-1#32).toInt < ((64 : Nat) : Int) := by decide
  refine ⟨twoBits, .last (-1#32), asserted, fun wild finds => ?_⟩
  rcases (findLast_meets_iff wild twoBits (-1#32) asserted).mp finds with nonneg | none | ⟨clear, -⟩
  · exact absurd nonneg (by decide)
  · have bit : 3 ∈ (Search.last (-1#32)).places twoBits := ⟨by decide, fun nonneg => absurd nonneg (by decide)⟩
    exact Set.eq_empty_iff_forall_notMem.mp none 3 bit
  · exact absurd clear (by decide)

end MonoRuntime.MonoBitset
