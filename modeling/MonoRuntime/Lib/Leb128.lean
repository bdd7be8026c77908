/-
Module: MonoRuntime.Lib.Leb128
Purpose: Little-endian base-128 integers over bit vectors of any width. A value is written seven bits at
  a time, lowest group first, with the top bit of a byte telling that more bytes follow. The unsigned
  form stops when no bit is left; the signed form stops when the remaining bits are all copies of the
  sign bit of the last group.
Trusted boundary: none
Main exports: Byte
-/
import Mathlib.Tactic

namespace MonoRuntime

/-- A byte of a buffer. -/
abbrev Byte := BitVec 8

namespace Leb128

variable {w : Nat}

/-- The low seven bits of a value, as a byte. -/
def lowGroup (value : BitVec w) : Byte :=
  value.setWidth 8 &&& 0x7f

/-- The payload of a byte, widened to the accumulator. -/
def payload (w : Nat) (b : Byte) : BitVec w :=
  (b &&& 0x7f).setWidth w

/-- Write a value without sign, `fuel` groups at most. -/
def encodeUnsignedAux : Nat → BitVec w → List Byte
  | 0, _ => []
  | fuel + 1, value =>
      let rest := value >>> 7
      if rest = 0 then [lowGroup value]
      else (lowGroup value ||| 0x80) :: encodeUnsignedAux fuel rest

/-- Write a value without sign. A value of `w` bits has no more than `w` groups. -/
def encodeUnsigned (value : BitVec w) : List Byte :=
  encodeUnsignedAux (w + 1) value

/-- Read groups into `res` from bit `shift` on. -/
def decodeUnsignedAux (res : BitVec w) (shift : Nat) :
    List Byte → Option (BitVec w × List Byte)
  | [] => none
  | b :: p =>
      let res := res ||| (payload w b <<< shift)
      if b &&& 0x80 = 0 then some (res, p) else decodeUnsignedAux res (shift + 7) p

/-- Read a value without sign and the bytes after it; `none` when the bytes end inside it. -/
def decodeUnsigned (w : Nat) (p : List Byte) : Option (BitVec w × List Byte) :=
  decodeUnsignedAux 0 0 p

/-- The signed writer may stop: what remains repeats the sign bit of the last group. -/
def SignedStop (rest : BitVec w) (b : Byte) : Prop :=
  (rest = 0 ∧ b &&& 0x40 = 0) ∨ (rest = -1 ∧ b &&& 0x40 ≠ 0)

instance (rest : BitVec w) (b : Byte) : Decidable (SignedStop rest b) :=
  inferInstanceAs (Decidable (_ ∨ _))

/-- Write a signed value, `fuel` groups at most. -/
def encodeSignedAux : Nat → BitVec w → List Byte
  | 0, _ => []
  | fuel + 1, value =>
      let rest := value.sshiftRight 7
      if SignedStop rest (lowGroup value) then [lowGroup value]
      else (lowGroup value ||| 0x80) :: encodeSignedAux fuel rest

/-- Write a signed value. -/
def encodeSigned (value : BitVec w) : List Byte :=
  encodeSignedAux (w + 1) value

/-- Read groups into `res` from bit `shift` on and extend the sign of the last one. -/
def decodeSignedAux (res : BitVec w) (shift : Nat) :
    List Byte → Option (BitVec w × List Byte)
  | [] => none
  | b :: p =>
      let res := res ||| (payload w b <<< shift)
      if b &&& 0x80 = 0 then
        if shift + 7 < w ∧ b &&& 0x40 ≠ 0 then
          some (res ||| -((1 : BitVec w) <<< (shift + 7)), p)
        else some (res, p)
      else decodeSignedAux res (shift + 7) p

/-- Read a signed value and the bytes after it; `none` when the bytes end inside it. -/
def decodeSigned (w : Nat) (p : List Byte) : Option (BitVec w × List Byte) :=
  decodeSignedAux 0 0 p

/-! ### Groups

Every fact below is read off bit by bit: the payload of a written byte is the low seven bits of the
value, whether or not the byte carries the continuation bit. -/

theorem getLsbD_low7 (i : Nat) : (0x7f : Byte).getLsbD i = decide (i < 7) := by
  by_cases small : i < 8
  · interval_cases i <;> rfl
  · have big : ¬ i < 7 := by omega
    rw [BitVec.getLsbD_of_ge _ _ (by omega)]
    simp [big]

theorem getLsbD_payload (b : Byte) (i : Nat) :
    (payload w b).getLsbD i = (decide (i < w) && decide (i < 7) && b.getLsbD i) := by
  simp only [payload, BitVec.getLsbD_setWidth, BitVec.getLsbD_and, getLsbD_low7]
  cases b.getLsbD i <;> simp

theorem getLsbD_lowGroup (value : BitVec w) (i : Nat) :
    (lowGroup value).getLsbD i = (decide (i < 7) && value.getLsbD i) := by
  simp only [lowGroup, BitVec.getLsbD_and, BitVec.getLsbD_setWidth, getLsbD_low7]
  by_cases small : i < 7
  · have : i < 8 := by omega
    simp [small, this]
  · simp [small]

theorem payload_or_continue (b : Byte) : payload w (b ||| 0x80) = payload w b := by
  have mask : (b ||| 0x80) &&& 0x7f = b &&& 0x7f := by
    revert b
    decide
  simp only [payload, mask]

theorem lowGroup_stops (value : BitVec w) : lowGroup value &&& 0x80 = 0 := by
  have mask : ∀ b : Byte, (b &&& 0x7f) &&& 0x80 = 0 := by decide
  exact mask _

theorem lowGroup_continues (value : BitVec w) : (lowGroup value ||| 0x80) &&& 0x80 ≠ 0 := by
  have mask : ∀ b : Byte, (b ||| 0x80) &&& 0x80 ≠ 0 := by decide
  exact mask _

/-- The bits of a value are those of its low group and, from the seventh on, those of the rest. -/
theorem split_groups (res : BitVec w) {value rest : BitVec w} (shift : Nat)
    (high : ∀ i, 7 + i < w → rest.getLsbD i = value.getLsbD (7 + i)) :
    res ||| (payload w (lowGroup value) <<< shift) ||| (rest <<< (shift + 7)) = res ||| (value <<< shift) := by
  apply BitVec.eq_of_getLsbD_eq
  intro i hi
  simp only [BitVec.getLsbD_or, BitVec.getLsbD_shiftLeft, getLsbD_payload, getLsbD_lowGroup]
  rcases Nat.lt_or_ge i shift with below | above
  · have : i < shift + 7 := by omega
    simp [below, this]
  · rcases Nat.lt_or_ge i (shift + 7) with inGroup | past
    · have small : i - shift < 7 := by omega
      have bound : i - shift < w := by omega
      simp [hi, inGroup, small, bound]
    · have big : ¬ i - shift < 7 := by omega
      have index : 7 + (i - (shift + 7)) = i - shift := by omega
      have notBelow : ¬ i < shift + 7 := by omega
      have notBelow' : ¬ i < shift := by omega
      have same := high (i - (shift + 7)) (by omega)
      rw [index] at same
      simp [hi, notBelow, notBelow', big, same]

theorem split_unsigned (res value : BitVec w) (shift : Nat) :
    res ||| (payload w (lowGroup value) <<< shift) ||| ((value >>> 7) <<< (shift + 7))
      = res ||| (value <<< shift) :=
  split_groups res shift fun _ _ => BitVec.getLsbD_ushiftRight ..

/-! ### Round trips -/

theorem decodeUnsignedAux_encodeUnsignedAux (fuel : Nat) :
    ∀ (value res : BitVec w) (shift : Nat) (p : List Byte), value.toNat < 2 ^ (7 * (fuel + 1)) →
        decodeUnsignedAux res shift (encodeUnsignedAux (fuel + 1) value ++ p)
          = some (res ||| (value <<< shift), p) := by
  induction fuel with
  | zero =>
    intro value res shift p small
    have rest : value >>> 7 = 0 := by
      apply BitVec.eq_of_toNat_eq
      simp only [BitVec.toNat_ushiftRight, Nat.shiftRight_eq_div_pow]
      simpa using Nat.div_eq_of_lt small
    have whole := split_unsigned res value shift
    rw [rest] at whole
    simp only [encodeUnsignedAux, rest, if_pos, List.cons_append, List.nil_append,
      decodeUnsignedAux, lowGroup_stops, Option.some.injEq, Prod.mk.injEq, and_true]
    simpa using whole
  | succ fuel ih =>
    intro value res shift p small
    have whole := split_unsigned res value shift
    rw [encodeUnsignedAux]
    by_cases rest : value >>> 7 = 0
    · rw [rest] at whole
      simp only [rest, if_pos, List.cons_append, List.nil_append, decodeUnsignedAux,
        lowGroup_stops, Option.some.injEq, Prod.mk.injEq, and_true]
      simpa using whole
    · have smaller : (value >>> 7).toNat < 2 ^ (7 * (fuel + 1)) := by
        simp only [BitVec.toNat_ushiftRight, Nat.shiftRight_eq_div_pow]
        rw [Nat.div_lt_iff_lt_mul (by decide), ← Nat.pow_add]
        exact small
      simp only [rest, if_false, List.cons_append, decodeUnsignedAux, payload_or_continue,
        lowGroup_continues]
      rw [ih _ _ _ _ smaller, whole]

/-- Reading what was written gives the value back and leaves the bytes after it. -/
theorem decodeUnsigned_encodeUnsigned (value : BitVec w) (p : List Byte) :
    decodeUnsigned w (encodeUnsigned value ++ p) = some (value, p) := by
  have small : value.toNat < 2 ^ (7 * (w + 1)) :=
    Nat.lt_of_lt_of_le value.isLt (Nat.pow_le_pow_right (by decide) (by omega))
  rw [decodeUnsigned, encodeUnsigned, decodeUnsignedAux_encodeUnsignedAux w value 0 0 p small]
  simp

/-! ### The signed form -/

theorem neg_one_shiftLeft (k : Nat) : -((1 : BitVec w) <<< k) = BitVec.allOnes w <<< k := by
  rw [BitVec.shiftLeft_eq_mul_twoPow, BitVec.shiftLeft_eq_mul_twoPow, ← BitVec.neg_mul]
  congr 1
  exact BitVec.neg_one_eq_allOnes

theorem split_signed (res value : BitVec w) (shift : Nat) :
    res ||| (payload w (lowGroup value) <<< shift) ||| ((value.sshiftRight 7) <<< (shift + 7))
      = res ||| (value <<< shift) := by
  refine split_groups res shift fun i inside => ?_
  have bound : ¬ w ≤ i := by omega
  simp [BitVec.getLsbD_sshiftRight, bound, inside]

theorem signedStop_completes (res : BitVec w) (shift : Nat) {value : BitVec w}
    (stop : SignedStop (value.sshiftRight 7) (lowGroup value)) :
    (if shift + 7 < w ∧ lowGroup value &&& 0x40 ≠ 0 then
        res ||| (payload w (lowGroup value) <<< shift) ||| -((1 : BitVec w) <<< (shift + 7))
      else res ||| (payload w (lowGroup value) <<< shift))
      = res ||| (value <<< shift) := by
  rw [← split_signed res value shift, neg_one_shiftLeft]
  rcases stop with ⟨zero, clear⟩ | ⟨ones, set⟩
  · rw [zero, if_neg (fun extend => extend.2 clear)]
    simp
  · rw [ones, show (-1 : BitVec w) = BitVec.allOnes w from BitVec.neg_one_eq_allOnes]
    by_cases inside : shift + 7 < w
    · rw [if_pos ⟨inside, set⟩]
    · have gone : BitVec.allOnes w <<< (shift + 7) = 0 := by
        apply BitVec.eq_of_getLsbD_eq
        intro i hi
        have : i < shift + 7 := by omega
        simp [this]
      rw [if_neg (fun extend => inside extend.1), gone]
      simp

theorem lowGroup_toNat (value : BitVec w) : (lowGroup value).toNat = value.toNat % 128 := by
  have mask : (0x7f : Byte).toNat = 2 ^ 7 - 1 := rfl
  rw [lowGroup, BitVec.toNat_and, mask, Nat.and_two_pow_sub_one_eq_mod, BitVec.toNat_setWidth]
  omega

theorem signBit_iff {b : Byte} (small : b.toNat < 128) : b &&& 0x40 ≠ 0 ↔ 64 ≤ b.toNat := by
  have table : ∀ b : Byte, b.toNat < 128 → (b &&& 0x40 ≠ 0 ↔ 64 ≤ b.toNat) := by decide
  exact table b small

theorem toInt_sshiftRight_seven (value : BitVec w) : (value.sshiftRight 7).toInt = value.toInt / 128 := by
  rw [BitVec.toInt_sshiftRight, Int.shiftRight_eq_div_pow]
  rfl

theorem lowGroup_toInt (wide : 7 ≤ w) (value : BitVec w) : ((lowGroup value).toNat : Int) = value.toInt % 128 := by
  have divides : (128 : Int) ∣ ((2 ^ w : Nat) : Int) := by
    have : (2 : Nat) ^ 7 ∣ 2 ^ w := Nat.pow_dvd_pow 2 wide
    exact_mod_cast this
  rw [lowGroup_toNat, BitVec.toInt_eq_toNat_bmod, Int.natCast_mod]
  have same : (128 : Int) ∣ (value.toNat : Int) - (value.toNat : Int).bmod (2 ^ w) :=
    Int.dvd_trans divides Int.dvd_self_sub_bmod
  omega

theorem signedStop_of_small (wide : 7 ≤ w) {value : BitVec w} (lower : -64 ≤ value.toInt) (upper : value.toInt < 64) :
    SignedStop (value.sshiftRight 7) (lowGroup value) := by
  have rest := toInt_sshiftRight_seven value
  have group := lowGroup_toInt wide value
  have bound : (lowGroup value).toNat < 128 := by
    rw [lowGroup_toNat]
    omega
  rcases Int.lt_or_le value.toInt 0 with negative | nonneg
  · refine Or.inr ⟨?_, (signBit_iff bound).mpr (by omega)⟩
    apply BitVec.eq_of_toInt_eq
    have minusOne : (-1 : BitVec w).toInt = -1 := by
      rw [show (-1 : BitVec w) = BitVec.allOnes w from BitVec.neg_one_eq_allOnes,
        BitVec.toInt_allOnes, if_pos (by omega)]
    omega
  · refine Or.inl ⟨?_, ?_⟩
    · apply BitVec.eq_of_toInt_eq
      rw [rest, show (0 : BitVec w).toInt = 0 from BitVec.toInt_zero]
      omega
    · by_contra set
      have := (signBit_iff bound).mp set
      omega

theorem decodeSignedAux_encodeSignedAux (wide : 7 ≤ w) (fuel : Nat) :
    ∀ (value res : BitVec w) (shift : Nat) (p : List Byte),
      -(2 ^ (7 * fuel + 6) : Int) ≤ value.toInt → value.toInt < 2 ^ (7 * fuel + 6) →
        decodeSignedAux res shift (encodeSignedAux (fuel + 1) value ++ p)
          = some (res ||| (value <<< shift), p) := by
  induction fuel with
  | zero =>
    intro value res shift p lower upper
    have stop := signedStop_of_small wide (by simpa using lower) (by simpa using upper)
    simp only [encodeSignedAux, stop, if_true, List.cons_append, List.nil_append,
      decodeSignedAux, lowGroup_stops]
    rw [← signedStop_completes res shift stop]
    split <;> rfl
  | succ fuel ih =>
    intro value res shift p lower upper
    rw [encodeSignedAux]
    by_cases stop : SignedStop (value.sshiftRight 7) (lowGroup value)
    · simp only [stop, if_true, List.cons_append, List.nil_append, decodeSignedAux,
        lowGroup_stops]
      rw [← signedStop_completes res shift stop]
      split <;> rfl
    · have rest := toInt_sshiftRight_seven value
      have power : (2 : Int) ^ (7 * (fuel + 1) + 6) = 128 * 2 ^ (7 * fuel + 6) := by
        rw [show 7 * (fuel + 1) + 6 = 7 + (7 * fuel + 6) by omega, pow_add]
        rfl
      simp only [stop, if_false, List.cons_append, decodeSignedAux, payload_or_continue,
        lowGroup_continues]
      rw [ih _ _ _ _ (by omega) (by omega), split_signed]

/-- Reading what was written gives the signed value back and leaves the bytes after it. -/
theorem decodeSigned_encodeSigned (wide : 7 ≤ w) (value : BitVec w) (p : List Byte) :
    decodeSigned w (encodeSigned value ++ p) = some (value, p) := by
  have power : (2 : Int) ^ (w - 1) ≤ 2 ^ (7 * w + 6) :=
    pow_le_pow_right₀ (by decide) (by omega)
  have lower := BitVec.le_toInt value
  have upper := BitVec.toInt_lt (x := value)
  rw [decodeSigned, encodeSigned,
    decodeSignedAux_encodeSignedAux wide w value 0 0 p (by omega) (by omega)]
  simp

/-! ### Lengths -/

/-- A value of seven bits takes one group, and any other one more than what is left of it. -/
theorem length_encodeUnsignedAux (fuel : Nat) (value : BitVec w) : (encodeUnsignedAux (fuel + 1) value).length
      = if value.toNat < 128 then 1 else 1 + (encodeUnsignedAux fuel (value >>> 7)).length := by
  have rest : value >>> 7 = 0 ↔ value.toNat < 128 := by
    rw [← BitVec.toNat_inj, BitVec.toNat_ushiftRight, Nat.shiftRight_eq_div_pow]
    simp only [BitVec.ofNat_eq_ofNat, BitVec.toNat_ofNat, Nat.zero_mod, Nat.reducePow]
    omega
  rw [encodeUnsignedAux]
  by_cases small : value.toNat < 128
  · rw [if_pos (rest.mpr small), if_pos small, List.length_singleton]
  · rw [if_neg (fun none => small (rest.mp none)), if_neg small, List.length_cons, Nat.add_comm]

theorem small_of_signedStop (wide : 7 ≤ w) {value : BitVec w}
    (stop : SignedStop (value.sshiftRight 7) (lowGroup value)) : -64 ≤ value.toInt ∧ value.toInt < 64 := by
  have rest := toInt_sshiftRight_seven value
  have group := lowGroup_toInt wide value
  have bound : (lowGroup value).toNat < 128 := by
    rw [lowGroup_toNat]
    omega
  have sign := signBit_iff bound
  rcases stop with ⟨zero, clear⟩ | ⟨minusOne, set⟩
  · have low : ¬ 64 ≤ (lowGroup value).toNat := fun high => sign.mpr high clear
    rw [zero, show (0 : BitVec w).toInt = 0 from BitVec.toInt_zero] at rest
    omega
  · have high := sign.mp set
    rw [minusOne, show (-1 : BitVec w) = BitVec.allOnes w from BitVec.neg_one_eq_allOnes,
      BitVec.toInt_allOnes, if_pos (by omega)] at rest
    omega

/-- A signed value of seven bits takes one group, and any other one more than what is left of it. -/
theorem length_encodeSignedAux (wide : 7 ≤ w) (fuel : Nat) (value : BitVec w) : (encodeSignedAux (fuel + 1) value).length
      = if -64 ≤ value.toInt ∧ value.toInt < 64 then 1
        else 1 + (encodeSignedAux fuel (value.sshiftRight 7)).length := by
  rw [encodeSignedAux]
  by_cases small : -64 ≤ value.toInt ∧ value.toInt < 64
  · rw [if_pos (signedStop_of_small wide small.1 small.2), if_pos small, List.length_singleton]
  · rw [if_neg (fun stop => small (small_of_signedStop wide stop)), if_neg small, List.length_cons,
      Nat.add_comm]

end Leb128

end MonoRuntime
