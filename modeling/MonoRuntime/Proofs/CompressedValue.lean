/-
Module: MonoRuntime.Proofs.CompressedValue
Purpose: Compressed values are read back one after the other, by both readers, and their encoding is the shortest one.
  Signed values are read back but for the least ones of the two longer classes.
Trusted boundary: none
Main exports: compressedValues_roundTrip, signedValues_survive_iff
-/
import MonoRuntime.Metadata.CompressedValue
import MonoRuntime.Proofs.SignatureBlob

namespace MonoRuntime.CompressedValue

open Reader MethodSignature BitVec
open DebugInfo (lowByte wide firstBits shiftLeft_toNat or_wide wide_mask join_toNat)

/-! ### The three classes -/

/-- The bytes of a compressed value, and its number; the bit `0x20` of the first of four bytes says nothing. -/
inductive Compressed : List Byte → Nat → Prop
  | byte (b : Byte) (low : b.toNat < 128) : Compressed [b] b.toNat
  | two (b b1 : Byte) (low : 128 ≤ b.toNat) (high : b.toNat < 192) :
      Compressed [b, b1] (2 ^ 8 * (b.toNat % 64) + b1.toNat)
  | four (b b1 b2 b3 : Byte) (low : 192 ≤ b.toNat) :
      Compressed [b, b1, b2, b3] (2 ^ 24 * (b.toNat % 32) + 2 ^ 16 * b1.toNat + 2 ^ 8 * b2.toNat + b3.toNat)

/-- The first byte does not have the three upper bits `111`. -/
def Unreserved : List Byte → Prop
  | [] => True
  | b :: _ => b.toNat < 224

theorem wide_toNat (b : Byte) : (wide b).toNat = b.toNat := by
  exact (toNat_setWidth _ _).trans (Nat.mod_eq_of_lt (by omega))

theorem twoBytes_toNat (b b1 : Byte) :
    ((wide b &&& 0x3f) <<< 8 ||| wide b1).toNat = 2 ^ 8 * (b.toNat % 64) + b1.toNat := by
  have mask : (wide b &&& 0x3f).toNat = b.toNat % 64 := wide_mask b 6 (by decide)
  have high : ((wide b &&& 0x3f) <<< 8).toNat = 2 ^ 8 * (b.toNat % 64) := by
    rw [shiftLeft_toNat (by omega), mask]
  have joined := or_wide ((wide b &&& 0x3f) <<< 8) b1 (n := 0) (q := b.toNat % 64) (by decide) (by omega)
  rw [shiftLeft_zero] at joined
  omega

theorem highByte_toNat (b : Byte) : ((wide b &&& 0x1f) <<< 24).toNat = 2 ^ 24 * (b.toNat % 32) := by
  have mask : (wide b &&& 0x1f).toNat = b.toNat % 32 := wide_mask b 5 (by decide)
  rw [shiftLeft_toNat (by omega), mask]

variable {bytes other : List Byte} {n : Nat}

/-- What `mono_metadata_decode_value` reads is a compressed value, and it reads every compressed value. -/
theorem compressed_of_decode {symbols rest : List Byte} {value : BitVec 32}
    (run : monoMetadataDecodeValue symbols = some (value, rest)) :
    ∃ bytes, symbols = bytes ++ rest ∧ Compressed bytes value.toNat := by
  obtain ⟨b, after, first, run⟩ := bind_eq_some run
  rw [next_eq_some first]
  split at run
  next zero =>
    cases run
    refine ⟨[b], rfl, ?_⟩
    exact .byte b ((firstBits b).1.1 zero)
  next set =>
  have low : ¬ b.toNat < 128 := fun less => set ((firstBits b).1.2 less)
  split at run
  next zero =>
    obtain ⟨b1, after', second, run⟩ := bind_eq_some run
    cases run
    have below := (firstBits b).2.1 zero
    refine ⟨[b, b1], congrArg _ (next_eq_some second), ?_⟩
    rw [twoBytes_toNat]
    exact .two b b1 (by omega) (by omega)
  next set' =>
    have high : ¬ b.toNat % 128 < 64 := fun less => set' ((firstBits b).2.2 less)
    obtain ⟨b1, after1, second, run⟩ := bind_eq_some run
    obtain ⟨b2, after2, third, run⟩ := bind_eq_some run
    obtain ⟨b3, after3, fourth, run⟩ := bind_eq_some run
    cases run
    refine ⟨[b, b1, b2, b3], ?_, ?_⟩
    · rw [next_eq_some second, next_eq_some third, next_eq_some fourth]
      rfl
    · rw [join_toNat b1 b2 b3 (highByte_toNat b)]
      exact .four b b1 b2 b3 (by omega)

theorem reads_of_compressed (isCompressed : Compressed bytes n) :
    Reads monoMetadataDecodeValue bytes (BitVec.ofNat 32 n) := by
  have ofToNat : ∀ {value : BitVec 32}, value.toNat = n → Reads monoMetadataDecodeValue bytes value →
      Reads monoMetadataDecodeValue bytes (BitVec.ofNat 32 n) := by
    rintro value rfl reads
    rwa [BitVec.ofNat_toNat, setWidth_eq]
  cases isCompressed with
  | byte b low =>
    refine ofToNat (wide_toNat b) (reads_bind (reads_next b) ?_)
    rw [if_pos ((firstBits b).1.2 low)]
    exact reads_pure _
  | two b b1 low high =>
    refine ofToNat (twoBytes_toNat b b1) (reads_bind (reads_next b) ?_)
    rw [if_neg fun zero => absurd ((firstBits b).1.1 zero) (by omega), if_pos ((firstBits b).2.2 (by omega))]
    exact reads_bind (reads_next b1) (reads_pure _)
  | four b b1 b2 b3 low =>
    refine ofToNat (join_toNat b1 b2 b3 (highByte_toNat b)) (reads_bind (reads_next b) ?_)
    rw [if_neg fun zero => absurd ((firstBits b).1.1 zero) (by omega),
      if_neg fun zero => absurd ((firstBits b).2.1 zero) (by omega)]
    exact reads_bind (reads_next b1) (reads_bind (reads_next b2) (reads_bind (reads_next b3) (reads_pure _)))

/-! ### Sizes of blobs -/

/-- The two readers compute the same: the sums have no carries. -/
theorem monoMetadataDecodeBlobSize_eq : monoMetadataDecodeBlobSize = monoMetadataDecodeValue := by
  have byte : ∀ {b : Byte}, b &&& 0x80 = 0 → wide b &&& 0x7f = wide b := by
    intro b zero
    apply eq_of_toNat_eq
    have mask : (wide b &&& 0x7f).toNat = b.toNat % 128 := wide_mask b 7 (by decide)
    rw [mask, wide_toNat, Nat.mod_eq_of_lt ((firstBits b).1.1 zero)]
  have two : ∀ b b1 : Byte, (wide b &&& 0x3f) <<< 8 + wide b1 = (wide b &&& 0x3f) <<< 8 ||| wide b1 := by
    intro b b1
    apply eq_of_toNat_eq
    have mask : (wide b &&& 0x3f).toNat = b.toNat % 64 := wide_mask b 6 (by decide)
    rw [twoBytes_toNat, toNat_add, shiftLeft_toNat (by omega), mask, wide_toNat]
    omega
  have four : ∀ b b1 b2 b3 : Byte,
      (wide b &&& 0x1f) <<< 24 + wide b1 <<< 16 + wide b2 <<< 8 + wide b3 =
        (wide b &&& 0x1f) <<< 24 ||| wide b1 <<< 16 ||| wide b2 <<< 8 ||| wide b3 := by
    intro b b1 b2 b3
    apply eq_of_toNat_eq
    have shift1 : (wide b1 <<< 16).toNat = 2 ^ 16 * b1.toNat := by
      rw [shiftLeft_toNat (by rw [wide_toNat]; omega), wide_toNat]
    have shift2 : (wide b2 <<< 8).toNat = 2 ^ 8 * b2.toNat := by
      rw [shiftLeft_toNat (by rw [wide_toNat]; omega), wide_toNat]
    rw [join_toNat b1 b2 b3 (highByte_toNat b)]
    simp only [toNat_add, highByte_toNat, shift1, shift2, wide_toNat]
    omega
  unfold monoMetadataDecodeBlobSize monoMetadataDecodeValue
  simp only [two, four]
  congr 1
  funext b
  split
  next zero => rw [byte zero]
  next => rfl

/-! ### The shortest encoding -/

theorem monoMetadataEncodeValue_length (value : BitVec 32) :
    (monoMetadataEncodeValue value).length = if value.toNat < 128 then 1 else if value.toNat < 16384 then 2 else 4 := by
  unfold monoMetadataEncodeValue
  split
  next => rfl
  next =>
    split
    next => rfl
    next => rfl

theorem compressed_encode {value : BitVec 32} (small : value.toNat < 2 ^ 29) :
    Compressed (monoMetadataEncodeValue value) value.toNat := by
  have run := reads_monoMetadataDecodeValue small []
  obtain ⟨bytes, split, isCompressed⟩ := compressed_of_decode run
  rw [List.append_nil, List.append_nil] at split
  rwa [split]

theorem Compressed.shortest {value : BitVec 32} (isCompressed : Compressed bytes value.toNat) :
    (monoMetadataEncodeValue value).length ≤ bytes.length := by
  rw [monoMetadataEncodeValue_length]
  generalize value.toNat = m at isCompressed
  cases isCompressed with
  | byte b low =>
    rw [if_pos low]
    exact Nat.le_refl 1
  | two b b1 low high =>
    rw [if_pos (show 2 ^ 8 * (b.toNat % 64) + b1.toNat < 16384 by omega)]
    change _ ≤ 2
    split <;> omega
  | four b b1 b2 b3 low =>
    change _ ≤ 4
    split
    next => omega
    next => split <;> omega

/-- Without the reserved bit, the number and the length say what the bytes are. -/
theorem Compressed.unique (one : Compressed bytes n) (two : Compressed other n) (sameLength : bytes.length = other.length)
    (unreserved : Unreserved bytes) (unreserved' : Unreserved other) : bytes = other := by
  generalize same : n = m at two
  have byteEq : ∀ {b b' : Byte}, b.toNat = b'.toNat → b = b' := eq_of_toNat_eq
  cases one with
  | byte b low =>
    cases two with
    | byte b' low' => rw [byteEq same]
    | two | four => cases sameLength
  | two b b1 low high =>
    cases two with
    | byte | four => cases sameLength
    | two b' b1' low' high' =>
      have first : b = b' := byteEq (by omega)
      have second : b1 = b1' := byteEq (by omega)
      rw [first, second]
  | four b b1 b2 b3 low =>
    cases two with
    | byte | two => cases sameLength
    | four b' b1' b2' b3' low' =>
      have unreserved : b.toNat < 224 := unreserved
      have unreserved' : b'.toNat < 224 := unreserved'
      have first : b = b' := byteEq (by omega)
      have second : b1 = b1' := byteEq (by omega)
      have third : b2 = b2' := byteEq (by omega)
      have fourth : b3 = b3' := byteEq (by omega)
      rw [first, second, third, fourth]

theorem unreserved_encode {value : BitVec 32} (small : value.toNat < 2 ^ 29) :
    Unreserved (monoMetadataEncodeValue value) := by
  obtain ⟨b, tail, begins, less⟩ := monoMetadataEncodeValue_head small
  rw [begins]
  exact less

/-- Every list of values below `2 ^ 29` is read back, value by value, and no other bytes that read as the value are
shorter or, without the reserved bit, as short. -/
theorem compressedValues_roundTrip (values : List (BitVec 32)) (small : ∀ value ∈ values, value.toNat < 2 ^ 29) :
    Reads (many monoMetadataDecodeValue values.length) (values.flatMap monoMetadataEncodeValue) values ∧
      Reads (many monoMetadataDecodeBlobSize values.length) (values.flatMap monoMetadataEncodeValue) values ∧
      ∀ value ∈ values, Reads monoMetadataDecodeValue (monoMetadataEncodeValue value) value ∧
        Reads monoMetadataDecodeBlobSize (monoMetadataEncodeValue value) value ∧
        ∀ bytes, Reads monoMetadataDecodeValue bytes value →
          (monoMetadataEncodeValue value).length ≤ bytes.length ∧
            (bytes.length = (monoMetadataEncodeValue value).length → Unreserved bytes →
              bytes = monoMetadataEncodeValue value) := by
  have each : ∀ value ∈ values, Reads monoMetadataDecodeValue (monoMetadataEncodeValue value) value :=
    fun value member => reads_monoMetadataDecodeValue (small value member)
  have all := reads_many values each
  rw [List.map_id'] at all
  rw [monoMetadataDecodeBlobSize_eq]
  refine ⟨all, all, fun value member => ⟨each value member, each value member, ?_⟩⟩
  intro bytes reads
  obtain ⟨read, split, isCompressed⟩ := compressed_of_decode (reads [])
  rw [List.append_nil, List.append_nil] at split
  rw [← split] at isCompressed
  exact ⟨isCompressed.shortest, fun sameLength unreserved =>
    isCompressed.unique (compressed_encode (small value member)) sameLength unreserved
      (unreserved_encode (small value member))⟩

theorem compressedValues_roundTrip_boundaries :
    Reads (many monoMetadataDecodeValue 4) [0x7f, 0x80, 0x80, 0xbf, 0xff, 0xc0, 0x00, 0x40, 0x00]
      [0x7f, 0x80, 0x3fff, 0x4000] :=
  (compressedValues_roundTrip [0x7f, 0x80, 0x3fff, 0x4000] (by simp)).1

/-! ### The signed encoding -/

/-- The rotation puts the sign into the lowest bit. -/
theorem rotateLeft_ofInt {k : Nat} {v : Int} (pos : 0 < k) (low : -2 ^ k ≤ v) (high : v < 2 ^ k) :
    (((BitVec.ofInt (k + 1) v).rotateLeft 1).toNat : Int) = if 0 ≤ v then 2 * v else 2 * (v + 2 ^ k) + 1 := by
  have one : 1 % (k + 1) = 1 := Nat.mod_eq_of_lt (by omega)
  have double : 2 ^ (k + 1) = 2 * 2 ^ k := Nat.pow_succ'
  have cast : ((2 ^ k : Nat) : Int) = 2 ^ k := Int.natCast_pow 2 k
  have number : ((BitVec.ofInt (k + 1) v).toNat : Int) = if 0 ≤ v then v else v + 2 * 2 ^ k := by
    rw [toNat_ofInt, double]
    push_cast
    split
    · rw [Int.emod_eq_of_lt ‹_› (by omega)]
      omega
    · rw [← Int.add_emod_right, Int.emod_eq_of_lt (by omega) (by omega)]
      omega
  generalize (BitVec.ofInt (k + 1) v) = x at number
  have bit : x.toNat / 2 ^ k < 2 ^ 1 := Nat.div_lt_of_lt_mul (by omega)
  have rotated : (x.rotateLeft 1).toNat = 2 * (x.toNat % 2 ^ k) + x.toNat / 2 ^ k := by
    rw [toNat_rotateLeft, one, Nat.add_sub_cancel, Nat.shiftRight_eq_div_pow, Nat.shiftLeft_eq, Nat.pow_one,
      double, Nat.mul_comm x.toNat, Nat.mul_mod_mul_left]
    exact (Nat.two_pow_add_eq_or_of_lt bit _).symm
  rw [rotated]
  split at number
  · rw [Nat.div_eq_of_lt (by omega), Nat.mod_eq_of_lt (by omega)]
    omega
  · have quotient : x.toNat / 2 ^ k = 1 := Nat.div_eq_of_lt_le (by omega) (by omega)
    have remainder := Nat.div_add_mod x.toNat (2 ^ k)
    rw [quotient] at remainder ⊢
    omega

theorem classByte_toNat {class_ bits : Byte} {k m : Nat} (isClass : class_.toNat = 2 ^ k * m)
    (below : bits.toNat < 2 ^ k) : (class_ ||| bits).toNat = 2 ^ k * m + bits.toNat := by
  rw [toNat_or, isClass, ← Nat.two_pow_add_eq_or_of_lt below]

theorem byteOf_toNat {w : Nat} (value : BitVec w) (k : Nat) :
    ((value >>> k).setWidth 8).toNat = value.toNat / 2 ^ k % 2 ^ 8 := by
  rw [toNat_setWidth, toNat_ushiftRight, Nat.shiftRight_eq_div_pow]

theorem compressed_byte (value : BitVec 7) : Compressed (compressByte value) value.toNat := by
  have byte : (value.setWidth 8).toNat = value.toNat := by
    rw [toNat_setWidth]
    omega
  exact .byte _ (by omega)

theorem compressed_two (value : BitVec 14) : Compressed (compressTwo value) value.toNat := by
  have high := byteOf_toNat value 8
  have low : (value.setWidth 8).toNat = value.toNat % 2 ^ 8 := toNat_setWidth _ _
  have first : (0x80 ||| (value >>> 8).setWidth 8 : Byte).toNat = 2 ^ 7 * 1 + _ :=
    classByte_toNat (by decide) (by omega)
  have isCompressed := Compressed.two _ (value.setWidth 8) (by omega) (by omega : (0x80 ||| (value >>> 8).setWidth 8).toNat < 192)
  rwa [show 2 ^ 8 * ((0x80 ||| (value >>> 8).setWidth 8 : Byte).toNat % 64) + (value.setWidth 8).toNat = value.toNat
    by omega] at isCompressed

theorem compressed_four (value : BitVec 29) : Compressed (compressFour value) value.toNat := by
  have highest := byteOf_toNat value 24
  have higher := byteOf_toNat value 16
  have high := byteOf_toNat value 8
  have low : (value.setWidth 8).toNat = value.toNat % 2 ^ 8 := toNat_setWidth _ _
  have first : (0xc0 ||| (value >>> 24).setWidth 8 : Byte).toNat = 2 ^ 6 * 3 + _ :=
    classByte_toNat (by decide) (by omega)
  have isCompressed := Compressed.four (0xc0 ||| (value >>> 24).setWidth 8) ((value >>> 16).setWidth 8)
    ((value >>> 8).setWidth 8) (value.setWidth 8) (by omega)
  rwa [show 2 ^ 24 * ((0xc0 ||| (value >>> 24).setWidth 8 : Byte).toNat % 32) +
    2 ^ 16 * ((value >>> 16).setWidth 8).toNat + 2 ^ 8 * ((value >>> 8).setWidth 8).toNat +
    (value.setWidth 8).toNat = value.toNat by omega] at isCompressed

/-! ### Signed values -/

/-- The power of two that the reader subtracts from a negative number without its sign. -/
def subtracted (k : Nat) : Int :=
  if k < 2 ^ 6 then 2 ^ 6 else if k < 2 ^ 13 then 2 ^ 13 else 2 ^ 28

theorem slt_ofNat {k c : Nat} (small : k < 2 ^ 28) (small' : c < 2 ^ 31) :
    ((BitVec.ofNat 32 k).slt (BitVec.ofNat 32 c) = true) = (k < c) := by
  have number : ∀ {m : Nat}, m < 2 ^ 31 → (BitVec.ofNat 32 m).toInt = m := by
    intro m less
    have own := toInt_ofInt_eq_self (w := 32) (n := (m : Int)) (by decide) (by omega) (by omega)
    rwa [ofInt_natCast] at own
  rw [slt_iff_toInt_lt, number (by omega), number small', Int.ofNat_lt]

theorem ofNat_sub (k c : Nat) : BitVec.ofNat 32 k - BitVec.ofNat 32 c = BitVec.ofInt 32 (k - c) := by
  rw [Int.sub_eq_add_neg, ofInt_add, ofInt_neg, BitVec.sub_eq_add_neg]
  rfl

theorem halved {k bit : Nat} (small : k < 2 ^ 28) (isBit : bit < 2) :
    BitVec.ofNat 32 (2 * k + bit) >>> 1 = BitVec.ofNat 32 k ∧ (BitVec.ofNat 32 (2 * k + bit) &&& 1 = 0 ↔ bit = 0) := by
  have number : (BitVec.ofNat 32 (2 * k + bit)).toNat = 2 * k + bit := by
    exact Nat.mod_eq_of_lt (by omega)
  have lowest : (BitVec.ofNat 32 (2 * k + bit) &&& 1).toNat = bit := by
    rw [toNat_and, number, show (1 : BitVec 32).toNat = 1 from rfl, Nat.and_one_is_mod]
    omega
  refine ⟨eq_of_toNat_eq ?_, ?_⟩
  · rw [toNat_ushiftRight, number, BitVec.toNat_ofNat, Nat.shiftRight_eq_div_pow]
    omega
  · rw [← toNat_inj, lowest]
    rfl

theorem signedOf_even {k : Nat} (small : k < 2 ^ 28) : signedOf (BitVec.ofNat 32 (2 * k)) = some (BitVec.ofInt 32 k) := by
  obtain ⟨half, sign⟩ := @halved k 0 small (by decide)
  unfold signedOf
  rw [← Nat.add_zero (2 * k), half, if_pos (sign.mpr rfl)]
  rfl

theorem signedOf_odd {k : Nat} (small : k < 2 ^ 28) :
    signedOf (BitVec.ofNat 32 (2 * k + 1)) = some (BitVec.ofInt 32 (k - subtracted k)) := by
  obtain ⟨half, sign⟩ := @halved k 1 small (by decide)
  have below6 := slt_ofNat small (show 2 ^ 6 < 2 ^ 31 by decide)
  have below13 := slt_ofNat small (show 2 ^ 13 < 2 ^ 31 by decide)
  have below28 := slt_ofNat small (show 2 ^ 28 < 2 ^ 31 by decide)
  unfold signedOf subtracted
  rw [half, if_neg (fun zero => absurd (sign.mp zero) (by decide))]
  change (if (BitVec.ofNat 32 k).slt (BitVec.ofNat 32 (2 ^ 6)) = true then
      some (BitVec.ofNat 32 k - BitVec.ofNat 32 (2 ^ 6))
    else if (BitVec.ofNat 32 k).slt (BitVec.ofNat 32 (2 ^ 13)) = true then
      some (BitVec.ofNat 32 k - BitVec.ofNat 32 (2 ^ 13))
    else if (BitVec.ofNat 32 k).slt (BitVec.ofNat 32 (2 ^ 28)) = true then
      some (BitVec.ofNat 32 k - BitVec.ofNat 32 (2 ^ 28))
    else _) = _
  simp only [below6, below13, below28, if_pos small, ofNat_sub]
  split
  · rfl
  split <;> rfl

/-- The power of two of the class of a negative number. -/
def signClass (v : Int) : Int :=
  if -2 ^ 6 ≤ v then 2 ^ 6 else if -2 ^ 13 ≤ v then 2 ^ 13 else 2 ^ 28

/-- What is read for the encoding of a number. -/
def restored (v : Int) : Int :=
  if 0 ≤ v then v else v + signClass v - subtracted (v + signClass v).toNat

theorem restored_spec {v : Int} (range : InRange v) : InRange (restored v) ∧ (restored v = v ↔ ¬ Confused v) := by
  obtain ⟨low, high⟩ := range
  unfold InRange restored signClass subtracted Confused
  split_ifs <;> omega

/-- The class of the encoding is that of the number, with the sign in the lowest bit. -/
theorem compressed_signed {v : Int} (range : InRange v) :
    Compressed (compressSigned v) (if 0 ≤ v then 2 * v else 2 * (v + signClass v) + 1).toNat := by
  obtain ⟨low, high⟩ := range
  have rotated : ∀ {k : Nat}, 0 < k → -2 ^ k ≤ v → v < 2 ^ k → (0 ≤ v ∨ signClass v = 2 ^ k) →
      (if 0 ≤ v then 2 * v else 2 * (v + signClass v) + 1).toNat = ((BitVec.ofInt (k + 1) v).rotateLeft 1).toNat := by
    intro k pos low high ofClass
    rw [← Int.toNat_natCast ((BitVec.ofInt (k + 1) v).rotateLeft 1).toNat, rotateLeft_ofInt pos low high]
    split
    · rfl
    · rw [ofClass.resolve_left ‹_›]
  unfold compressSigned
  split
  next small =>
    rw [rotated (k := 6) (by decide) small.1 small.2 (.inr (if_pos small.1))]
    exact compressed_byte _
  next notSmall =>
    split
    next middle =>
      rw [rotated (k := 13) (by decide) middle.1 middle.2 (by unfold signClass; grind)]
      exact compressed_two _
    next large =>
      rw [rotated (k := 28) (by decide) low high (by unfold signClass; grind)]
      exact compressed_four _

theorem reads_signed {v : Int} (range : InRange v) :
    Reads monoMetadataDecodeSignedValue (compressSigned v) (BitVec.ofInt 32 (restored v)) := by
  have isCompressed := compressed_signed range
  obtain ⟨low, high⟩ := range
  have read : ∀ {uval value : BitVec 32}, Reads monoMetadataDecodeValue (compressSigned v) uval →
      signedOf uval = some value → Reads monoMetadataDecodeSignedValue (compressSigned v) value := by
    intro uval value first isValue
    have both : Reads monoMetadataDecodeSignedValue (compressSigned v ++ []) value :=
      reads_bind first (by simp only [isValue]; exact reads_pure value)
    rwa [List.append_nil] at both
  by_cases positive : 0 ≤ v
  · rw [if_pos positive] at isCompressed
    have even := signedOf_even (k := v.toNat) (by omega)
    rw [Int.toNat_of_nonneg positive] at even
    rw [restored, if_pos positive]
    exact read (reads_of_compressed isCompressed) (by rwa [show (2 * v).toNat = 2 * v.toNat by omega])
  · rw [if_neg positive] at isCompressed
    have above : 0 ≤ v + signClass v ∧ v + signClass v < 2 ^ 28 := by
      unfold signClass
      split
      next => omega
      next => split <;> omega
    have odd := signedOf_odd (k := (v + signClass v).toNat) (by omega)
    rw [Int.toNat_of_nonneg above.1] at odd
    rw [restored, if_neg positive]
    exact read (reads_of_compressed isCompressed)
      (by rwa [show (2 * (v + signClass v) + 1).toNat = 2 * (v + signClass v).toNat + 1 by omega])

theorem ofInt_restored_iff {v : Int} (range : InRange v) :
    BitVec.ofInt 32 (restored v) = BitVec.ofInt 32 v ↔ ¬ Confused v := by
  rw [← (restored_spec range).2]
  have number : ∀ {u : Int}, InRange u → (BitVec.ofInt 32 u).toInt = u := by
    rintro u ⟨low, high⟩
    exact toInt_ofInt_eq_self (w := 32) (by decide) (by omega) (by omega)
  constructor
  · intro same
    rw [← number (restored_spec range).1, same, number range]
  · exact congrArg _

/-! ### Array shapes -/

variable {classes : Classes} {parse : Reader Byte MonoType} {element : List Byte} {etype : MonoType}
  {sizes : List (BitVec 32)} {lobounds : List Int}

theorem count_eq {length : Nat} (few : length < 256) :
    (BitVec.ofNat 32 length).toNat < 2 ^ 29 ∧ ((BitVec.ofNat 32 length).setWidth 8).toNat = length := by
  rw [toNat_setWidth, BitVec.toNat_ofNat]
  omega

/-- The shape is read with the lower bounds as they are restored. -/
theorem reads_arrayFull (inside : Reads parse element etype) (rank : BitVec 8) (fewSizes : sizes.length < 256)
    (small : ∀ size ∈ sizes, size.toNat < 2 ^ 29) (few : lobounds.length < 256) (range : ∀ v ∈ lobounds, InRange v) :
    Reads (monoMetadataParseArrayFull classes parse) (element ++ encodeShape rank sizes lobounds)
      ⟨monoClassFromMonoType classes etype.data, rank, sizes, lobounds.map fun v => BitVec.ofInt 32 (restored v)⟩ := by
  have wideRank : (rank.setWidth 32).toNat < 2 ^ 29 := by
    rw [toNat_setWidth]
    omega
  have sameRank : (rank.setWidth 32).setWidth 8 = rank := by
    rw [setWidth_setWidth_of_le _ (by decide), setWidth_eq]
  obtain ⟨smallSizes, numsizes⟩ := count_eq fewSizes
  obtain ⟨smallBounds, numlobounds⟩ := count_eq few
  have readSizes := reads_many sizes fun size member => reads_monoMetadataDecodeValue (small size member)
  have readBounds := reads_many lobounds fun v member => reads_signed (range v member)
  rw [List.map_id'] at readSizes
  refine reads_bind inside (reads_bind (reads_monoMetadataDecodeValue wideRank)
    (reads_bind (reads_monoMetadataDecodeValue smallSizes) ?_))
  rw [numsizes, sameRank]
  refine reads_bind readSizes (reads_bind (reads_monoMetadataDecodeValue smallBounds) ?_)
  rw [numlobounds]
  exact reads_bind_pure readBounds

/-- A number survives, by itself and among the lower bounds of an array, exactly if it is none of the least ones of the
two longer classes; the bytes are consumed all the same. -/
theorem signedValues_survive_iff (inside : Reads parse element etype) (rank : BitVec 8) (fewSizes : sizes.length < 256)
    (small : ∀ size ∈ sizes, size.toNat < 2 ^ 29)
    (few : lobounds.length < 256)
    (range : ∀ v ∈ lobounds, InRange v) :
    (∀ v, InRange v → (Reads monoMetadataDecodeSignedValue (compressSigned v) (BitVec.ofInt 32 v) ↔ ¬ Confused v) ∧
      ∃ value, Reads monoMetadataDecodeSignedValue (compressSigned v) value) ∧
      (Reads (monoMetadataParseArrayFull classes parse) (element ++ encodeShape rank sizes lobounds)
        ⟨monoClassFromMonoType classes etype.data, rank, sizes, lobounds.map (BitVec.ofInt 32)⟩ ↔
          ∀ v ∈ lobounds, ¬ Confused v) := by
  have read := @reads_arrayFull classes _ _ _ _ _ inside rank fewSizes small few range
  refine ⟨fun v isIn => ⟨?_, _, reads_signed isIn⟩, ?_⟩
  · rw [← ofInt_restored_iff isIn]
    refine ⟨fun reads => (reads_signed isIn).unique reads, fun same => ?_⟩
    rw [← same]
    exact reads_signed isIn
  · have each : (lobounds.map fun v => BitVec.ofInt 32 (restored v)) = lobounds.map (BitVec.ofInt 32) ↔
        ∀ v ∈ lobounds, ¬ Confused v := by
      rw [List.map_inj_left]
      exact forall₂_congr fun v member => ofInt_restored_iff (range v member)
    rw [← each]
    refine ⟨fun reads => congrArg MonoArrayType.lobounds (read.unique reads), fun same => ?_⟩
    rw [← same]
    exact read

/-- A two-dimensional array of integers with the lower bounds 1 and -2. -/
theorem signedValues_survive_intArray :
    Reads (monoMetadataParseArrayFull ⟨fun _ => none, fun _ => false, fun _ => false⟩
        (monoMetadataParseTypeFull ⟨fun _ => none, fun _ => false, fun _ => false⟩ ⟨fun _ => 0, fun _ => none⟩ 0 1 none 0))
      ([0x08] ++ encodeShape 2 [] [1, -2]) ⟨.simple .i4, 2, [], [1, 0xfffffffe]⟩ :=
  have element : Reads _ (encodeType _ _ ⟨0, false, false, [], .simple .i4⟩) _ := reads_encodeType 1 0 trivial (by decide)
  (@signedValues_survive_iff _ _ _ _ [] [1, -2] element 2 (by decide) (by simp) (by decide) (by simp [InRange])).2.2
    (by simp [Confused])

/-- `-8192` comes back as `-64`. -/
theorem signedValue_misread :
    compressSigned (-8192) = [0x80, 0x01] ∧
      monoMetadataDecodeSignedValue [0x80, 0x01] = some (BitVec.ofInt 32 (-64), []) ∧
      ¬ Reads monoMetadataDecodeSignedValue (compressSigned (-8192)) (BitVec.ofInt 32 (-8192)) := by
  refine ⟨by decide, by decide, fun reads => ?_⟩
  exact absurd (reads []) (by decide)

end MonoRuntime.CompressedValue
