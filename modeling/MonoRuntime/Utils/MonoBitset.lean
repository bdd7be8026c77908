/-
Module: MonoRuntime.Utils.MonoBitset
Purpose: The bit sets of `utils/monobitset.c`: an array of words behind its size, the searches for a bit from a position, and
  the operations on two or three sets of different sizes. A `guint32` and an `int` wrap at 32 bits, a `gsize` at the size of a
  word. A failed `g_assert`, and a word outside of the array, is the result `none`.
Trusted boundary: human-reviewed translation of the source
Main exports: MonoBitSet
-/
import Mathlib.Algebra.Order.Ring.Int
import MonoRuntime.Lib.Bitmap

namespace MonoRuntime.MonoBitset

open MonoRuntime.Bitmap

/-! ### The sets -/

/-- A bit set. The size counts the bits of the words, so that bits are never left over in the last one. -/
structure MonoBitSet (w : Nat) where
  size : Nat
  flags : BitVec w
  data : List (BitVec w)
  chunk : w = 32 ∨ w = 64
  sized : size = w * data.length
  small : size ≤ 2 ^ 32 ∧ size < 2 ^ w

/-- `MONO_BITSET_DONT_FREE`. -/
def dontFree (w : Nat) : BitVec w := 1

/-- The value of an `int` after an operation. -/
def int32 (x : Int) : Int :=
  Int.bmod x (2 ^ 32)

/-- `real_size`: the words that hold `max_size` bits. -/
def realSize (w : Nat) (maxSize : BitVec 32) : Nat :=
  (maxSize.toNat + (w - 1)) % 2 ^ w / w % 2 ^ 32

variable {w : Nat}

theorem realSize_small (chunk : w = 32 ∨ w = 64) (maxSize : BitVec 32) :
    w * realSize w maxSize ≤ 2 ^ 32 ∧ w * realSize w maxSize < 2 ^ w := by
  unfold realSize
  rcases chunk with rfl | rfl
  · omega
  · omega

/-- `mono_bitset_new`. -/
def monoBitsetNew (chunk : w = 32 ∨ w = 64) (maxSize : BitVec 32) (flags : BitVec w) : MonoBitSet w where
  size := w * realSize w maxSize
  flags := flags
  data := List.replicate (realSize w maxSize) 0
  chunk := chunk
  sized := by rw [List.length_replicate]
  small := realSize_small chunk maxSize

variable (set : MonoBitSet w)

/-- Whether a bit is set. -/
def MonoBitSet.test (k : Nat) : Bool :=
  testBit set.data k

/-- Read a word. -/
def MonoBitSet.load (i : Nat) : Option (BitVec w) :=
  set.data[i]?

/-- Write a word. -/
def MonoBitSet.store (i : Nat) (word : BitVec w) : Option (MonoBitSet w) :=
  if i < set.data.length then
    some { set with data := set.data.set i word, sized := by rw [List.length_set, set.sized] }
  else none

/-! ### Searches in a word -/

/-- The loops that count the clear bits below the first one that is set. `bsf` computes the same. -/
def lsfLoop : (rounds : Nat) → (mask : BitVec w) → (nthBit : Int) → Int
  | 0, _, nthBit => nthBit
  | rounds + 1, mask, nthBit => if mask &&& 1#w = 0 then lsfLoop rounds (mask >>> 1) (nthBit + 1) else nthBit

/-- `my_g_bit_nth_lsf_nomask`. -/
def myGBitNthLsfNomask (mask : BitVec w) : Int :=
  lsfLoop w mask 0

/-- A shift to the right. By the width of a word or more the language does not say what it gives. -/
def shiftRight (wild : BitVec w) (mask : BitVec w) (n : Nat) : BitVec w :=
  if n < w then mask >>> n else wild

/-- A shift to the left, likewise. -/
def shiftLeft (wild : BitVec w) (mask : BitVec w) (n : Nat) : BitVec w :=
  if n < w then mask <<< n else wild

/-- `my_g_bit_nth_lsf`. -/
def myGBitNthLsf (wild : BitVec w) (mask : BitVec w) (nthBit : Int) : Int :=
  let nthBit := nthBit + 1
  let mask := shiftRight wild mask nthBit.toNat
  if mask = 0 ∨ nthBit = w then -1 else lsfLoop w mask nthBit

/-- The loop of `my_g_bit_nth_msf` that skips bytes. -/
def skipBytes : (rounds : Nat) → (mask : BitVec w) → (i : Int) → BitVec w × Int
  | 0, mask, i => (mask, i)
  | rounds + 1, mask, i => if i > 0 ∧ mask >>> (w - 8) = 0 then skipBytes rounds (mask <<< 8) (i - 8) else (mask, i)

/-- The loop that goes down the bits. -/
def msfLoop (nthBit : Nat) : (rounds : Nat) → (mask : BitVec w) → (i : Int) → Int
  | 0, _, _ => -1
  | rounds + 1, mask, i =>
    let i := i - 1
    if mask &&& 1#w <<< (w - 1) ≠ 0 then i - (w - nthBit)
    else
      let mask := mask <<< 1
      if mask ≠ 0 then msfLoop nthBit rounds mask i else -1

/-- `my_g_bit_nth_msf`. -/
def myGBitNthMsf (wild : BitVec w) (mask : BitVec w) (nthBit : Nat) : Int :=
  if nthBit = 0 then -1
  else
    let (mask, i) := skipBytes (w / 8) (shiftLeft wild mask (w - nthBit)) w
    if mask = 0 then -1 else msfLoop nthBit w mask i

/-- The loop of `find_first_unset`. -/
def unsetLoop (wild : BitVec w) (mask : BitVec w) : (rounds : Nat) → (nthBit : Int) → Int
  | 0, _ => -1
  | rounds + 1, nthBit =>
    let nthBit := nthBit + 1
    if mask &&& shiftLeft wild 1#w nthBit.toNat = 0 then if nthBit = w then -1 else nthBit
    else if nthBit < w then unsetLoop wild mask rounds nthBit
    else -1

/-- `find_first_unset`. -/
def findFirstUnset (wild : BitVec w) (mask : BitVec w) (nthBit : Int) : Int :=
  unsetLoop wild mask (w + 1) nthBit

/-! ### Searches in a set -/

/-- The loops over the words from the `i`th on: the first word that is worth a search is searched from its start. -/
def laterWords (worth : BitVec w → Bool) (search : BitVec w → Int) : (words : List (BitVec w)) → (i : Nat) → Int
  | [], _ => -1
  | word :: words, i => if worth word then int32 (search word + i * w) else laterWords worth search words (i + 1)

/-- The loop over the words below the `i`th. -/
def earlierWords (search : BitVec w → Int) (words : List (BitVec w)) : (i : Nat) → Int
  | 0 => -1
  | i + 1 =>
    let word := words.getD i 0
    if word ≠ 0 then int32 (search word + i * w) else earlierWords search words i

/-- `mono_bitset_find_start`. -/
def monoBitsetFindStart : Int :=
  laterWords (· ≠ 0) myGBitNthLsfNomask set.data 0

/-- What `mono_bitset_find_first` and `mono_bitset_find_first_unset` share: the search from a word on, behind one of its
bits. -/
def findFrom (worth : BitVec w → Bool) (search : BitVec w → Int → Int) (j : Nat) (bit : Int) : Option Int :=
  match set.load j with
  | none => none
  | some word =>
    let result := if worth word then search word bit else -1
    if result ≠ -1 then some (int32 (result + j * w))
    else some (laterWords worth (search · (-1)) (set.data.drop (j + 1)) (j + 1))

/-- The two searches from a position. `outside` is the result where the position is not one of the set. -/
def findAfter (worth : BitVec w → Bool) (search : BitVec w → Int → Int) (outside : Option Int) (pos : BitVec 32) :
    Option Int :=
  if pos.toInt < 0 then findFrom set worth search 0 (-1)
  else if set.size ≤ pos.toInt then outside
  else findFrom set worth search (pos.toNat / w) (pos.toNat % w : Nat)

/-- `mono_bitset_find_first`. -/
def monoBitsetFindFirst (wild : BitVec w) (pos : BitVec 32) : Option Int :=
  findAfter set (· ≠ 0) (myGBitNthLsf wild) none pos

/-- `mono_bitset_find_first_unset`. -/
def monoBitsetFindFirstUnset (wild : BitVec w) (pos : BitVec 32) : Option Int :=
  findAfter set (· ≠ -1) (findFirstUnset wild) (some (-1)) pos

/-- The search from a word down, before one of its bits. -/
def findBack (wild : BitVec w) (j bit : Nat) : Option Int :=
  match set.load j with
  | none => none
  | some word =>
    let result := if word ≠ 0 then myGBitNthMsf wild word bit else -1
    if result ≠ -1 then some (int32 (result + j * w))
    else some (earlierWords (myGBitNthMsf wild · w) set.data j)

/-- `mono_bitset_find_last`. The position is an `int`, which the divisions and the comparison read as a `gsize`. -/
def monoBitsetFindLast (wild : BitVec w) (pos : BitVec 32) : Option Int :=
  let pos := if pos.toInt < 0 then int32 (set.size - 1) else pos.toInt
  let upos := (pos % 2 ^ w).toNat
  if set.size ≤ upos then some (-1) else findBack set wild (upos / w) (upos % w)

/-! ### Operations -/

/-- A loop over the words of a set that is written to. -/
def forWords (body : Nat → MonoBitSet w → Option (MonoBitSet w)) :
    (rounds i : Nat) → (dest : MonoBitSet w) → Option (MonoBitSet w)
  | 0, _, dest => some dest
  | rounds + 1, i, dest => (body i dest).bind (forWords body rounds (i + 1))

/-- `memcpy` of whole words. -/
def copyWords (src : MonoBitSet w) (words : Nat) (dest : MonoBitSet w) : Option (MonoBitSet w) :=
  forWords (fun i dest => do dest.store i (← src.load i)) words 0 dest

/-- The loops of the operations that combine the words of two sets. -/
def combineWords (op : BitVec w → BitVec w → BitVec w) (src : MonoBitSet w) (words : Nat) (dest : MonoBitSet w) :
    Option (MonoBitSet w) :=
  forWords (fun i dest => do dest.store i (op (← dest.load i) (← src.load i))) words 0 dest

/-- `mono_bitset_invert`. -/
def monoBitsetInvert : Option (MonoBitSet w) :=
  forWords (fun i set => do set.store i (~~~ (← set.load i))) (set.size / w) 0 set

/-- The bits that are set in a word, by sums over pairs, nibbles and bytes. -/
def countWord (d : BitVec w) : Nat :=
  if w = 64 then
    let d := d - ((d >>> 1) &&& 0x5555555555555555)
    let d := ((d >>> 2) &&& 0x3333333333333333) + (d &&& 0x3333333333333333)
    let d := ((d >>> 4) + d) &&& 0x0f0f0f0f0f0f0f0f
    let d := d * 0x0101010101010101
    (d >>> 56).toNat
  else
    let d := d - ((d >>> 1) &&& 0x55555555)
    let d := ((d >>> 2) &&& 0x33333333) + (d &&& 0x33333333)
    let d := ((d >>> 4) + d) &&& 0x0f0f0f0f
    let d := d + (d >>> 8)
    let d := d + (d >>> 16)
    (d &&& 0x0000003f).toNat

/-- `mono_bitset_count`. -/
def monoBitsetCount : Nat :=
  set.data.foldl (fun count d => if d ≠ 0 then (count + countWord d) % 2 ^ 32 else count) 0

/-- The set that `mono_bitset_clone` copies into. -/
def cloneRoom (newSize : BitVec 32) : MonoBitSet w :=
  let result := monoBitsetNew set.chunk newSize ((set.flags.setWidth 32).setWidth w)
  { result with flags := result.flags &&& ~~~ dontFree w }

/-- `mono_bitset_clone`. -/
def monoBitsetClone (newSize : BitVec 32) : Option (MonoBitSet w) :=
  let newSize := if newSize = 0 then BitVec.ofNat 32 set.size else newSize
  copyWords set (set.size / w) (cloneRoom set newSize)

/-- `mono_bitset_copyto`. -/
def monoBitsetCopyto (src dest : MonoBitSet w) : Option (MonoBitSet w) :=
  if dest.size ≤ src.size then copyWords src (dest.size / w) dest else none

/-- `mono_bitset_union`. -/
def monoBitsetUnion (dest src : MonoBitSet w) : Option (MonoBitSet w) :=
  if src.size ≤ dest.size then combineWords (· ||| ·) src (dest.size / w) dest else none

/-- `mono_bitset_intersection`. -/
def monoBitsetIntersection (dest src : MonoBitSet w) : Option (MonoBitSet w) :=
  if src.size ≤ dest.size then combineWords (· &&& ·) src (dest.size / w) dest else none

/-- `mono_bitset_intersection_2`. -/
def monoBitsetIntersection2 (dest src1 src2 : MonoBitSet w) : Option (MonoBitSet w) :=
  if src1.size ≤ dest.size ∧ src2.size ≤ dest.size then
    forWords (fun i dest => do dest.store i ((← src1.load i) &&& (← src2.load i))) (dest.size / w) 0 dest
  else none

/-- `mono_bitset_sub`. -/
def monoBitsetSub (dest src : MonoBitSet w) : Option (MonoBitSet w) :=
  if src.size ≤ dest.size then combineWords (fun word mask => word &&& ~~~ mask) src (src.size / w) dest else none

end MonoRuntime.MonoBitset
