/-
Module: MonoRuntime.Proofs.StrEnc
Purpose: The checks of UTF-8 accept a sequence exactly when it encodes a character that is no noncharacter, so that
  all three accept the same strings. A check with a bound stores where it gave up unless that is a sequence that does
  not fit. Without one a check reads behind the terminator unless all sequences are as long as they announce.
Trusted boundary: none
Main exports: validate_promise_iff, validate_inside_iff
-/
import MonoRuntime.Utils.StrEnc
import MonoRuntime.Proofs.Utf8WellFormed

namespace MonoRuntime.StrEnc

open List
open Utf8 (exists_char char_range toNat_ofNat)

/-! ### The bytes of a character -/

theorem encode_spec (c : Char) : (c.val.toNat < 0x80 ∧ ∃ a, String.utf8EncodeChar c = [a] ∧ a.toNat = c.val.toNat) ∨
    (0x80 ≤ c.val.toNat ∧ c.val.toNat < 0x800 ∧ ∃ a b, String.utf8EncodeChar c = [a, b] ∧
      a.toNat = c.val.toNat / 64 + 0xC0 ∧ b.toNat = c.val.toNat % 64 + 0x80) ∨
    (0x800 ≤ c.val.toNat ∧ c.val.toNat < 0x10000 ∧ ∃ a b d, String.utf8EncodeChar c = [a, b, d] ∧
      a.toNat = c.val.toNat / 4096 + 0xE0 ∧ b.toNat = c.val.toNat / 64 % 64 + 0x80 ∧ d.toNat = c.val.toNat % 64 + 0x80) ∨
    (0x10000 ≤ c.val.toNat ∧ ∃ a b d e, String.utf8EncodeChar c = [a, b, d, e] ∧
      a.toNat = c.val.toNat / 262144 + 0xF0 ∧ b.toNat = c.val.toNat / 4096 % 64 + 0x80 ∧
      d.toNat = c.val.toNat / 64 % 64 + 0x80 ∧ e.toNat = c.val.toNat % 64 + 0x80) := by
  have range := char_range c
  unfold String.utf8EncodeChar
  generalize c.val.toNat = v at range ⊢
  by_cases one : v ≤ 0x7f
  · rw [if_pos one]
    exact Or.inl ⟨by omega, _, rfl, toNat_ofNat (by omega)⟩
  · rw [if_neg one]
    by_cases two : v ≤ 0x7ff
    · rw [if_pos two]
      refine Or.inr (Or.inl ⟨by omega, by omega, _, _, rfl, ?_, ?_⟩)
      · rw [toNat_ofNat (by omega)]
        omega
      · rw [toNat_ofNat (by omega)]
    · rw [if_neg two]
      by_cases three : v ≤ 0xffff
      · rw [if_pos three]
        refine Or.inr (Or.inr (Or.inl ⟨by omega, by omega, _, _, _, rfl, ?_, ?_, ?_⟩))
        · rw [toNat_ofNat (by omega)]
          omega
        · rw [toNat_ofNat (by omega)]
        · rw [toNat_ofNat (by omega)]
      · rw [if_neg three]
        refine Or.inr (Or.inr (Or.inr ⟨by omega, _, _, _, _, rfl, ?_, ?_, ?_, ?_⟩))
        · rw [toNat_ofNat (by omega)]
          omega
        · rw [toNat_ofNat (by omega)]
        · rw [toNat_ofNat (by omega)]
        · rw [toNat_ofNat (by omega)]

/-! ### The tests as statements about numbers -/

theorem follows_iff (a : Nat) : follows a = true ↔ 0x80 ≤ a ∧ a ≤ 0xBF := by
  unfold follows
  simp only [Bool.not_eq_true', Bool.or_eq_false_iff, decide_eq_false_iff_not]
  omega

theorem endsPlane_iff (a before first : Nat) : endsPlane a before first = true ↔
    (a = 0xBF ∨ a = 0xBE) ∧ before = 0xBF ∧ (first = 0x8F ∨ first = 0x9F ∨ first = 0xAF ∨ first = 0xBF) := by
  unfold endsPlane
  simp only [Bool.and_eq_true, Bool.or_eq_true, beq_iff_eq, and_assoc, or_assoc]

theorem innerSwitch_iff (first a after : Nat) : innerSwitch first a after = true ↔
    (first = 0xE0 → 0xA0 ≤ a) ∧ (first = 0xED → a ≤ 0x9F) ∧
      (first = 0xEF → ¬ (a = 0xB7 ∧ 0x8F < after ∧ after < 0xB0) ∧ ¬ (a = 0xBF ∧ (after = 0xBE ∨ after = 0xBF))) ∧
      (first = 0xF0 → 0x90 ≤ a) ∧ (first = 0xF4 → a ≤ 0x8F) ∧
      (first ≠ 0xE0 ∧ first ≠ 0xED ∧ first ≠ 0xEF ∧ first ≠ 0xF0 ∧ first ≠ 0xF4 → 0x80 ≤ a) := by
  unfold innerSwitch
  split
  · simp only [Bool.not_eq_true', decide_eq_false_iff_not]
    omega
  · split
    · simp only [Bool.not_eq_true', decide_eq_false_iff_not]
      omega
    · split
      · simp only [Bool.and_eq_true, Bool.not_eq_true', Bool.and_eq_false_iff, Bool.or_eq_false_iff, beq_eq_false_iff_ne,
          decide_eq_false_iff_not]
        omega
      · split
        · simp only [Bool.not_eq_true', decide_eq_false_iff_not]
          omega
        · split
          · simp only [Bool.not_eq_true', decide_eq_false_iff_not]
            omega
          · simp only [Bool.not_eq_true', decide_eq_false_iff_not]
            omega

/-- What it asks of a sequence of four bytes, where the second one is known to follow. -/
theorem innerSwitch_four {first a after : Nat} (four : 0xF0 ≤ first) (follow : 0x80 ≤ a) : innerSwitch first a after = true ↔
    (first = 0xF0 → 0x90 ≤ a) ∧ (first = 0xF4 → a ≤ 0x8F) := by
  rw [innerSwitch_iff]
  omega

theorem caseOne_iff (s : List UInt8) : caseOne s = true ↔ ¬ (0x80 ≤ byteAt s 0 ∧ byteAt s 0 < 0xC2) := by
  unfold caseOne
  simp only [Bool.not_eq_true', Bool.and_eq_false_iff, decide_eq_false_iff_not]
  omega

section Lengths

variable {s : List UInt8}

theorem sequenceValid_one (length : trailingBytesForUtf8 (byteAt s 0) + 1 = 1) :
    sequenceValid s = true ↔ byteAt s 0 < 0x80 := by
  have range : byteAt s 0 < 0xC0 ∨ 0xFE ≤ byteAt s 0 := by
    unfold trailingBytesForUtf8 at length
    grind
  unfold sequenceValid
  rw [length]
  simp only [Bool.and_eq_true, caseOne_iff, Bool.not_eq_true', decide_eq_false_iff_not]
  omega

theorem sequenceValid_two (length : trailingBytesForUtf8 (byteAt s 0) + 1 = 2) :
    sequenceValid s = true ↔ 0xC2 ≤ byteAt s 0 ∧ byteAt s 0 < 0xE0 ∧ 0x80 ≤ byteAt s 1 ∧ byteAt s 1 ≤ 0xBF := by
  have range : 0xC0 ≤ byteAt s 0 ∧ byteAt s 0 < 0xE0 := by
    unfold trailingBytesForUtf8 at length
    grind
  unfold sequenceValid
  rw [length]
  simp only [Bool.and_eq_true, caseTwo, caseOne_iff, follows_iff, innerSwitch_iff, Bool.not_eq_true',
    decide_eq_false_iff_not]
  omega

theorem sequenceValid_three (length : trailingBytesForUtf8 (byteAt s 0) + 1 = 3) :
    sequenceValid s = true ↔ 0xE0 ≤ byteAt s 0 ∧ byteAt s 0 < 0xF0 ∧
      (0x80 ≤ byteAt s 1 ∧ byteAt s 1 ≤ 0xBF) ∧ (0x80 ≤ byteAt s 2 ∧ byteAt s 2 ≤ 0xBF) ∧
      innerSwitch (byteAt s 0) (byteAt s 1) (byteAt s 2) = true := by
  have range : 0xE0 ≤ byteAt s 0 ∧ byteAt s 0 < 0xF0 := by
    unfold trailingBytesForUtf8 at length
    grind
  unfold sequenceValid
  rw [length]
  simp only [Bool.and_eq_true, caseTwo, caseThree, caseOne_iff, follows_iff, Bool.not_eq_true', decide_eq_false_iff_not]
  constructor
  · rintro ⟨⟨⟨third, second, inner⟩, -⟩, -⟩
    exact ⟨range.1, range.2, second, third, inner⟩
  · rintro ⟨-, -, second, third, inner⟩
    exact ⟨⟨⟨third, second, inner⟩, by omega⟩, by omega⟩

theorem sequenceValid_four (length : trailingBytesForUtf8 (byteAt s 0) + 1 = 4) :
    sequenceValid s = true ↔ 0xF0 ≤ byteAt s 0 ∧ byteAt s 0 ≤ 0xF4 ∧
      (0x80 ≤ byteAt s 1 ∧ byteAt s 1 ≤ 0xBF) ∧ (0x80 ≤ byteAt s 2 ∧ byteAt s 2 ≤ 0xBF) ∧
      (0x80 ≤ byteAt s 3 ∧ byteAt s 3 ≤ 0xBF) ∧ ¬ ((byteAt s 3 = 0xBF ∨ byteAt s 3 = 0xBE) ∧ byteAt s 2 = 0xBF ∧
        (byteAt s 1 = 0x8F ∨ byteAt s 1 = 0x9F ∨ byteAt s 1 = 0xAF ∨ byteAt s 1 = 0xBF)) ∧
      (byteAt s 0 = 0xF0 → 0x90 ≤ byteAt s 1) ∧ (byteAt s 0 = 0xF4 → byteAt s 1 ≤ 0x8F) := by
  have range : 0xF0 ≤ byteAt s 0 ∧ byteAt s 0 < 0xF8 := by
    unfold trailingBytesForUtf8 at length
    grind
  unfold sequenceValid
  rw [length]
  simp only [Bool.and_eq_true, caseTwo, caseThree, caseFour, caseOne_iff, follows_iff, Bool.not_eq_true',
    ← Bool.not_eq_true, endsPlane_iff, decide_eq_true_eq, Nat.reduceSub]
  constructor
  · rintro ⟨⟨⟨⟨⟨fourth, plane⟩, third⟩, second, inner⟩, -⟩, first⟩
    exact ⟨range.1, by omega, second, third, fourth, plane, (innerSwitch_four range.1 second.1).mp inner⟩
  · rintro ⟨-, first, second, third, fourth, plane, inner⟩
    exact ⟨⟨⟨⟨⟨fourth, plane⟩, third⟩, second, (innerSwitch_four range.1 second.1).mpr inner⟩, by omega⟩, by omega⟩

theorem sequenceValid_long (length : 4 < trailingBytesForUtf8 (byteAt s 0) + 1) : sequenceValid s = false := by
  unfold sequenceValid
  split
  · omega
  · omega
  · omega
  · omega
  · rfl

end Lengths

/-! ### A sequence is valid exactly when it encodes an allowed character -/

@[simp] theorem byteAt_zero (a : UInt8) (s : List UInt8) : byteAt (a :: s) 0 = a.toNat :=
  rfl

@[simp] theorem byteAt_succ (a : UInt8) (s : List UInt8) (i : Nat) : byteAt (a :: s) (i + 1) = byteAt s i :=
  rfl

theorem announced_char (c : Char) (tail : List UInt8) :
    announced (String.utf8EncodeChar c ++ tail) = (String.utf8EncodeChar c).length := by
  have range := char_range c
  rcases encode_spec c with ⟨small, a, bytes, first⟩ | ⟨low, high, a, b, bytes, first, -⟩ |
    ⟨low, high, a, b, d, bytes, first, -⟩ | ⟨low, a, b, d, e, bytes, first, -⟩
  all_goals
    rw [bytes]
    simp only [cons_append, announced, length_cons, length_nil, trailingBytesForUtf8]
  · rw [if_pos (by omega)]
  · rw [if_neg (by omega), if_pos (by omega)]
  · rw [if_neg (by omega), if_neg (by omega), if_pos (by omega)]
  · rw [if_neg (by omega), if_neg (by omega), if_neg (by omega), if_pos (by omega)]

theorem sequenceValid_char (c : Char) (tail : List UInt8) :
    sequenceValid (String.utf8EncodeChar c ++ tail) = true ↔ ¬ Noncharacter c := by
  have range := char_range c
  have length := announced_char c tail
  unfold Noncharacter
  rcases encode_spec c with ⟨small, a, bytes, first⟩ | ⟨low, high, a, b, bytes, first, second⟩ |
    ⟨low, high, a, b, d, bytes, first, second, third⟩ | ⟨low, a, b, d, e, bytes, first, second, third, fourth⟩
  all_goals
    rw [bytes] at length ⊢
    simp only [cons_append, nil_append, length_cons, length_nil, announced] at length ⊢
  · rw [sequenceValid_one (s := a :: tail) length, byteAt_zero]
    omega
  · rw [sequenceValid_two (s := a :: b :: tail) length]
    simp only [byteAt_zero, byteAt_succ]
    omega
  · rw [sequenceValid_three (s := a :: b :: d :: tail) length, innerSwitch_iff]
    simp only [byteAt_zero, byteAt_succ]
    generalize c.val.toNat = v at *
    omega
  · rw [sequenceValid_four (s := a :: b :: d :: e :: tail) length]
    simp only [byteAt_zero, byteAt_succ]
    generalize c.val.toNat = v at *
    omega

/-- Every sequence of which enough bytes are there and that the switch accepts encodes an allowed character. -/
theorem char_of_sequenceValid {s : List UInt8} (some_ : s ≠ []) (enough : announced s ≤ s.length)
    (valid : sequenceValid s = true) : ∃ c tail, s = String.utf8EncodeChar c ++ tail ∧ ¬ Noncharacter c := by
  suffices encoded : ∃ c tail, s = String.utf8EncodeChar c ++ tail by
    obtain ⟨c, tail, same⟩ := encoded
    rw [same, sequenceValid_char] at valid
    exact ⟨c, tail, same, valid⟩
  obtain ⟨a, s, rfl⟩ := exists_cons_of_ne_nil some_
  have short : trailingBytesForUtf8 a.toNat + 1 ≤ 4 := by
    by_contra long
    rw [sequenceValid_long (s := a :: s) (by rw [byteAt_zero]; omega)] at valid
    cases valid
  simp only [announced] at enough
  obtain length | length | length | length : trailingBytesForUtf8 a.toNat + 1 = 1 ∨
      trailingBytesForUtf8 a.toNat + 1 = 2 ∨ trailingBytesForUtf8 a.toNat + 1 = 3 ∨
      trailingBytesForUtf8 a.toNat + 1 = 4 := by omega
  · rw [sequenceValid_one (s := a :: s) length, byteAt_zero] at valid
    obtain ⟨c, value⟩ := exists_char (v := a.toNat) (by omega)
    obtain ⟨-, a', bytes, first⟩ := (encode_spec c).resolve_right (by omega)
    refine ⟨c, s, ?_⟩
    rw [bytes, UInt8.toNat_inj.mp (first.trans value)]
    rfl
  · rw [sequenceValid_two (s := a :: s) length] at valid
    rw [length] at enough
    obtain _ | ⟨b, s⟩ := s
    · simp at enough
    simp only [byteAt_zero, byteAt_succ] at valid
    obtain ⟨c, value⟩ := exists_char (v := (a.toNat - 0xC0) * 64 + (b.toNat - 0x80)) (by omega)
    obtain ⟨-, -, a', b', bytes, first, second⟩ :=
      ((encode_spec c).resolve_left (by omega)).resolve_right (by omega)
    refine ⟨c, s, ?_⟩
    rw [bytes, UInt8.toNat_inj.mp (show a'.toNat = a.toNat by omega),
      UInt8.toNat_inj.mp (show b'.toNat = b.toNat by omega)]
    rfl
  · rw [sequenceValid_three (s := a :: s) length, innerSwitch_iff] at valid
    rw [length] at enough
    obtain _ | ⟨b, _ | ⟨d, s⟩⟩ := s
    · simp at enough
    · simp at enough
    simp only [byteAt_zero, byteAt_succ] at valid
    obtain ⟨low, high, follow, follow', least, most, -⟩ := valid
    obtain ⟨c, value⟩ := exists_char
      (v := (a.toNat - 0xE0) * 4096 + (b.toNat - 0x80) * 64 + (d.toNat - 0x80)) (by omega)
    obtain ⟨-, -, a', b', d', bytes, first, second, third⟩ :=
      (((encode_spec c).resolve_left (by omega)).resolve_left (by omega)).resolve_right (by omega)
    refine ⟨c, s, ?_⟩
    rw [bytes, UInt8.toNat_inj.mp (show a'.toNat = a.toNat by omega),
      UInt8.toNat_inj.mp (show b'.toNat = b.toNat by omega), UInt8.toNat_inj.mp (show d'.toNat = d.toNat by omega)]
    rfl
  · rw [sequenceValid_four (s := a :: s) length] at valid
    rw [length] at enough
    obtain _ | ⟨b, _ | ⟨d, _ | ⟨e, s⟩⟩⟩ := s
    · simp at enough
    · simp at enough
    · simp at enough
    simp only [byteAt_zero, byteAt_succ] at valid
    -- the ends of the planes are no matter of the encoding
    obtain ⟨low, high, follow, follow', follow'', -, least, most⟩ := valid
    obtain ⟨c, value⟩ := exists_char
      (v := (a.toNat - 0xF0) * 262144 + (b.toNat - 0x80) * 4096 + (d.toNat - 0x80) * 64 + (e.toNat - 0x80)) (by omega)
    obtain ⟨-, a', b', d', e', bytes, first, second, third, fourth⟩ :=
      (((encode_spec c).resolve_left (by omega)).resolve_left (by omega)).resolve_left (by omega)
    refine ⟨c, s, ?_⟩
    rw [bytes, UInt8.toNat_inj.mp (show a'.toNat = a.toNat by omega),
      UInt8.toNat_inj.mp (show b'.toNat = b.toNat by omega), UInt8.toNat_inj.mp (show d'.toNat = d.toNat by omega),
      UInt8.toNat_inj.mp (show e'.toNat = e.toNat by omega)]
    rfl

theorem zero_mem_char {c : Char} (zero : 0 ∈ String.utf8EncodeChar c) : String.utf8EncodeChar c = [0] := by
  have ne_zero {a : UInt8} (positive : 0 < a.toNat) : a ≠ 0 := by
    rintro rfl
    cases positive
  rcases encode_spec c with ⟨-, a, bytes, -⟩ | ⟨low, -, a, b, bytes, first, second⟩ |
    ⟨low, -, a, b, d, bytes, first, second, third⟩ | ⟨low, a, b, d, e, bytes, first, second, third, fourth⟩
  all_goals rw [bytes] at zero ⊢
  · rw [mem_singleton.mp zero]
  · simp only [mem_cons, not_mem_nil, or_false] at zero
    obtain rfl | rfl := zero
    · exact absurd rfl (ne_zero (by omega))
    · exact absurd rfl (ne_zero (by omega))
  · simp only [mem_cons, not_mem_nil, or_false] at zero
    obtain rfl | rfl | rfl := zero
    · exact absurd rfl (ne_zero (by omega))
    · exact absurd rfl (ne_zero (by omega))
    · exact absurd rfl (ne_zero (by omega))
  · simp only [mem_cons, not_mem_nil, or_false] at zero
    obtain rfl | rfl | rfl | rfl := zero
    · exact absurd rfl (ne_zero (by omega))
    · exact absurd rfl (ne_zero (by omega))
    · exact absurd rfl (ne_zero (by omega))
    · exact absurd rfl (ne_zero (by omega))

/-- A character that the memory of a string begins with lies in front of the terminator. -/
theorem char_inside {s beyond tail : List UInt8} {c : Char} (some_ : s ≠ []) (noNul : 0 ∉ s)
    (same : s ++ 0 :: beyond = String.utf8EncodeChar c ++ tail) :
    ∃ rest, s = String.utf8EncodeChar c ++ rest ∧ tail = rest ++ 0 :: beyond := by
  have noZero : 0 ∉ String.utf8EncodeChar c := by
    intro zero
    rw [zero_mem_char zero] at same
    obtain ⟨a, s, rfl⟩ := exists_cons_of_ne_nil some_
    obtain ⟨rfl, -⟩ := List.cons.inj same
    exact noNul mem_cons_self
  obtain ⟨rest, whole, split⟩ | ⟨rest, whole, split⟩ := append_eq_append_iff.mp same
  · obtain _ | ⟨a, rest⟩ := rest
    · exact ⟨[], by simpa using whole.symm, by simpa using split.symm⟩
    · obtain ⟨rfl, -⟩ := List.cons.inj split
      exact absurd (whole ▸ mem_append_right s mem_cons_self) noZero
  · exact ⟨rest, whole, split⟩

/-! ### The loop over a string -/

section Loop

variable {fits : Nat → Bool} {v : Vars} {s beyond : List UInt8}

theorem scan_nul : scan (fun _ => true) fits v (0 :: beyond) = some v.verdict := by
  rw [scan, if_pos (Or.inl rfl)]

theorem scan_unfit (some_ : s ≠ []) (noNul : 0 ∉ s) (unfit : fits (v.ptr + announced s) = false) :
    scan (fun _ => true) fits v (s ++ 0 :: beyond) = some { v with retVal := false }.verdict := by
  obtain ⟨a, s, rfl⟩ := exists_cons_of_ne_nil some_
  have noZero : ¬ (a = 0 ∨ true = false) := by
    rintro (rfl | impossible)
    · exact noNul mem_cons_self
    · cases impossible
  rw [cons_append, scan, if_neg noZero]
  exact if_pos unfit

theorem scan_turn (some_ : s ≠ []) (noNul : 0 ∉ s) (fit : fits (v.ptr + announced s) = true) :
    scan (fun _ => true) fits v (s ++ 0 :: beyond) =
      if (s ++ 0 :: beyond).length < announced s then none
      else scan (fun _ => true) fits (v.next (announced s) (sequenceValid (s ++ 0 :: beyond)))
        ((s ++ 0 :: beyond).drop (announced s)) := by
  obtain ⟨a, s, rfl⟩ := exists_cons_of_ne_nil some_
  have noZero : ¬ (a = 0 ∨ true = false) := by
    rintro (rfl | impossible)
    · exact noNul mem_cons_self
    · cases impossible
  rw [cons_append, scan, if_neg noZero, if_neg (by simpa [announced] using fit)]
  rfl

theorem scan_char (fits : Nat → Bool) (v : Vars) (beyond : List UInt8) {c : Char}
    (noNul : 0 ∉ String.utf8EncodeChar c ++ s) (fit : fits (v.ptr + (String.utf8EncodeChar c).length) = true)
    (allowed : ¬ Noncharacter c) :
    scan (fun _ => true) fits v (String.utf8EncodeChar c ++ s ++ 0 :: beyond) =
      scan (fun _ => true) fits (v.next (String.utf8EncodeChar c).length true) (s ++ 0 :: beyond) := by
  have some_ : String.utf8EncodeChar c ++ s ≠ [] := by
    intro none_
    have positive := String.length_utf8EncodeChar c ▸ Char.utf8Size_pos c
    rw [(append_eq_nil_iff.mp none_).1] at positive
    cases positive
  rw [scan_turn some_ noNul (by rwa [announced_char]), announced_char, append_assoc, if_neg (by simp),
    (sequenceValid_char c _).mpr allowed, drop_left]

theorem scan_chars (fits : Nat → Bool) (v : Vars) (beyond : List UInt8) {chars : List Char}
    (noNul : 0 ∉ encoding chars) (fit : ∀ next ≤ v.ptr + (encoding chars).length, fits next = true)
    (plain : Plain chars) (good : v.retVal = true) :
    scan (fun _ => true) fits v (encoding chars ++ 0 :: beyond) =
      some ⟨true, some (v.ptr + (encoding chars).length), v.oLength + chars.length⟩ := by
  induction chars generalizing v with
  | nil =>
    rw [encoding, flatMap_nil, nil_append, scan_nul]
    simp [Vars.verdict, good]
  | cons c chars ih =>
    have whole : encoding (c :: chars) = String.utf8EncodeChar c ++ encoding chars := flatMap_cons
    rw [whole] at noNul fit ⊢
    rw [length_append] at fit
    rw [scan_char fits v beyond noNul (fit _ (by omega)) (plain c mem_cons_self),
      ih _ (fun zero => noNul (mem_append_right _ zero)) (fun next bound => fit next (by dsimp [Vars.next] at bound; omega))
        (fun c' member => plain c' (mem_cons_of_mem _ member)) (by simp [Vars.next, good])]
    simp only [Vars.next, length_append, length_cons]
    grind

theorem scan_refused {mem : List UInt8} {w : Verdict} (returns : scan (fun _ => true) fits v mem = some w)
    (refused : v.retVal = false) (noticed : v.lastRet = false) : w.result = false ∧ w.oEnd = v.oEnd := by
  fun_induction scan (fun _ => true) fits v mem with
  | case1 => cases returns
  | case2 v c rest stop =>
    obtain rfl := Option.some.inj returns
    simp [Vars.verdict, refused]
  | case3 v c rest more length unfit =>
    obtain rfl := Option.some.inj returns
    simp [Vars.verdict]
  | case4 => cases returns
  | case5 v c rest more length fit short ih =>
    obtain ⟨result, place⟩ := ih returns (by simp [Vars.next, refused]) (by simp [Vars.next, noticed])
    exact ⟨result, by simpa [Vars.next, noticed] using place⟩

/-- What the loop returns and stores for any string, from variables that nothing was refused with: the string is
acceptable, or it is refused where an invalid sequence is, or nothing is stored because a sequence does not fit. -/
theorem scan_outcome {w : Verdict} (noNul : 0 ∉ s) (returns : scan (fun _ => true) fits v (s ++ 0 :: beyond) = some w)
    (good : v.retVal = true) (last : v.lastRet = true) (unset : v.oEnd = none) : (w.result = true ∧ Acceptable s) ∨
      (w.result = false ∧ ∃ chars rest, s = encoding chars ++ rest ∧ Plain chars ∧ rest ≠ [] ∧
        (chars ≠ [] → fits (v.ptr + (encoding chars).length) = true) ∧
        (Invalid rest ∧ w.oEnd = some (v.ptr + (encoding chars).length) ∨
          fits (v.ptr + (encoding chars).length + announced rest) = false)) := by
  induction size : s.length using Nat.strong_induction_on generalizing s v
  rename_i n ih
  by_cases none_ : s = []
  · subst none_
    rw [nil_append, scan_nul] at returns
    obtain rfl := Option.some.inj returns
    exact Or.inl ⟨by simp [Vars.verdict, good], [], rfl, by simp [Plain]⟩
  · by_cases fit : fits (v.ptr + announced s) = true
    · rw [scan_turn none_ noNul fit] at returns
      split at returns
      · cases returns
      · next enough =>
          by_cases valid : sequenceValid (s ++ 0 :: beyond) = true
          · have same : announced (s ++ 0 :: beyond) = announced s := by
              obtain ⟨a, s, rfl⟩ := exists_cons_of_ne_nil none_
              rfl
            obtain ⟨c, tail, split, allowed⟩ :=
              char_of_sequenceValid (by simp) (by rw [same]; exact Nat.le_of_not_lt enough) valid
            obtain ⟨rest, rfl, -⟩ := char_inside none_ noNul split
            have positive : 0 < (String.utf8EncodeChar c).length :=
              String.length_utf8EncodeChar c ▸ Char.utf8Size_pos c
            rw [announced_char] at fit
            rw [valid, announced_char, append_assoc, drop_left] at returns
            obtain ⟨result, chars, rfl, plain⟩ | ⟨result, chars, rest, rfl, plain, some_, before, place⟩ :=
              ih rest.length (by rw [← size, length_append]; omega) (fun zero => noNul (mem_append_right _ zero)) returns (by simp [Vars.next, good])
                (by simp [Vars.next, last, good]) (by simp [Vars.next, good, unset]) rfl
            · exact Or.inl ⟨result, c :: chars, flatMap_cons.symm, forall_mem_cons.mpr ⟨allowed, plain⟩⟩
            · have whole : encoding (c :: chars) = String.utf8EncodeChar c ++ encoding chars := flatMap_cons
              refine Or.inr ⟨result, c :: chars, rest, by rw [whole, append_assoc],
                forall_mem_cons.mpr ⟨allowed, plain⟩, some_, fun _ => ?_, ?_⟩
              · rw [whole, length_append, ← Nat.add_assoc]
                by_cases first : chars = []
                · subst first
                  exact fit
                · exact before first
              · rw [whole, length_append, ← Nat.add_assoc]
                exact place
          · obtain ⟨result, place⟩ := scan_refused returns (by simp [Vars.next, valid]) (by simp [Vars.next, valid])
            refine Or.inr ⟨result, [], s, rfl, by simp [Plain], none_, by simp, Or.inl ⟨⟨none_, ?_⟩, ?_⟩⟩
            · rintro c tail rfl
              by_contra allowed
              rw [append_assoc, sequenceValid_char] at valid
              exact valid allowed
            · rw [place]
              simp [Vars.next, valid, last, encoding]
    · rw [scan_unfit none_ noNul (by simpa using fit)] at returns
      obtain rfl := Option.some.inj returns
      exact Or.inr ⟨rfl, [], s, rfl, by simp [Plain], none_, by simp, Or.inr (by simpa [encoding] using fit)⟩
end Loop

/-! ### The checks -/

section Checks

variable {s beyond : List UInt8} {maxBytes : Int}

theorem accepts_iff {fits : Nat → Bool} (noNul : 0 ∉ s) (fit : ∀ next ≤ s.length, fits next = true) :
    (∃ w, scan (fun _ => true) fits Vars.start (s ++ 0 :: beyond) = some w ∧ w.result = true) ↔ Acceptable s := by
  constructor
  · rintro ⟨w, returns, result⟩
    obtain ⟨-, acceptable⟩ | ⟨refused, -⟩ := scan_outcome noNul returns rfl rfl rfl
    · exact acceptable
    · rw [refused] at result
      cases result
  · rintro ⟨chars, rfl, plain⟩
    exact ⟨_, scan_chars fits .start beyond noNul (fun next bound => fit next (by simpa [Vars.start] using bound)) plain rfl, rfl⟩

theorem gUtf8Validate_unlimited (mem : List UInt8) :
    gUtf8Validate mem (-1) = (monoUtf8ValidateAndLen mem).map fun verdict => (verdict.result, verdict.oEnd) := by
  unfold gUtf8Validate
  rw [if_neg (by omega)]
  simp only [Int.reduceNeg, gt_iff_lt, Int.reduceLT, if_false]
  rfl

theorem withBounds_small (mem : List UInt8) (small : maxBytes < 1) :
    monoUtf8ValidateAndLenWithBounds mem maxBytes = some { result := false, oEnd := some 0, oLength := 0 } :=
  if_pos small

theorem withBounds_large (mem : List UInt8) (large : ¬ maxBytes < 1) : monoUtf8ValidateAndLenWithBounds mem maxBytes =
      scan (fun _ => true) (fun srcPtr => decide (srcPtr < maxBytes)) Vars.start mem :=
  if_neg large

theorem stores_chars {chars : List Char} (noNul : 0 ∉ encoding chars) (plain : Plain chars) :
    monoUtf8ValidateAndLen (encoding chars ++ 0 :: beyond) = some ⟨true, some (encoding chars).length, chars.length⟩ ∧
      gUtf8Validate (encoding chars ++ 0 :: beyond) (-1) = some (true, some (encoding chars).length) ∧
      monoUtf8ValidateAndLenWithBounds (encoding chars ++ 0 :: beyond) ((encoding chars).length + 1) =
        some ⟨true, some (encoding chars).length, chars.length⟩ := by
  have unbounded : monoUtf8ValidateAndLen (encoding chars ++ 0 :: beyond) =
      some ⟨true, some (encoding chars).length, chars.length⟩ := by
    simpa [Vars.start, monoUtf8ValidateAndLen] using
      scan_chars (fun _ => true) .start beyond noNul (by simp) plain rfl
  refine ⟨unbounded, by rw [gUtf8Validate_unlimited, unbounded]; rfl, ?_⟩
  rw [withBounds_large _ (by omega)]
  simpa [Vars.start] using
    scan_chars (fun srcPtr => decide ((srcPtr : Int) < (encoding chars).length + 1)) .start beyond noNul (by intro next bound; simp [Vars.start] at bound ⊢; omega) plain rfl

/-- Where allowed characters are in front of a sequence that does not fit, the check gives up and stores nothing. -/
theorem scan_gives_up (v : Vars) (beyond : List UInt8) (maxBytes : Int) {chars : List Char} {rest : List UInt8}
    (noNul : 0 ∉ encoding chars ++ rest) (plain : Plain chars) (some_ : rest ≠ [])
    (unfit : maxBytes ≤ v.ptr + (encoding chars).length + announced rest) (unset : v.oEnd = none)
    (good : v.retVal = true) :
    ∃ w, scan (fun _ => true) (fun srcPtr => decide (srcPtr < maxBytes)) v (encoding chars ++ rest ++ 0 :: beyond) =
      some w ∧ w.result = false ∧ w.oEnd = none := by
  induction chars generalizing v with
  | nil =>
    refine ⟨_, scan_unfit some_ noNul ?_, rfl, unset⟩
    simpa [encoding] using unfit
  | cons c chars ih =>
    have whole : encoding (c :: chars) = String.utf8EncodeChar c ++ encoding chars := flatMap_cons
    rw [whole, append_assoc] at noNul ⊢
    rw [whole, length_append] at unfit
    by_cases fit : ((v.ptr + (String.utf8EncodeChar c).length : Nat) : Int) < maxBytes
    · have turn := scan_char (fun srcPtr => decide ((srcPtr : Int) < maxBytes)) v beyond noNul
        (decide_eq_true fit) (plain c mem_cons_self)
      rw [append_assoc, append_assoc] at turn
      rw [append_assoc, turn, ← append_assoc]
      exact ih _ (fun zero => noNul (mem_append_right _ zero))
        (fun c' member => plain c' (mem_cons_of_mem _ member)) (by simp only [Vars.next]; omega)
        (by simp [Vars.next, good, unset]) (by simp [Vars.next, good])
    · refine ⟨{ v with retVal := false }.verdict, ?_, rfl, unset⟩
      rw [← append_assoc] at noNul ⊢
      refine scan_unfit ?_ noNul ?_
      · exact fun none_ => some_ (append_eq_nil_iff.mp none_).2
      · rw [append_assoc, announced_char]
        exact decide_eq_false fit

/-- Where every sequence fits, a check with a bound that refuses a string stores where. -/
theorem stores_refused {w : Verdict} (noNul : 0 ∉ s) (fit : Fits maxBytes s)
    (returns : monoUtf8ValidateAndLenWithBounds (s ++ 0 :: beyond) maxBytes = some w) (refused : w.result = false) :
    ∃ e, w.oEnd = some e ∧ FirstBad maxBytes s e := by
  by_cases small : maxBytes < 1
  · rw [withBounds_small _ small] at returns
    obtain rfl := Option.some.inj returns
    exact ⟨0, rfl, [], s, rfl, by simp [Plain], rfl, by simp, Or.inr (by omega)⟩
  · rw [withBounds_large _ small] at returns
    obtain ⟨result, -⟩ | ⟨-, chars, rest, split, plain, some_, before, place⟩ := scan_outcome noNul returns rfl rfl rfl
    · rw [result] at refused
      cases refused
    · simp only [Vars.start, Nat.zero_add, decide_eq_true_eq, decide_eq_false_iff_not] at before place
      have inside := fit.resolve_left small chars rest split plain some_
      obtain ⟨invalid, stored⟩ | unfit := place
      · exact ⟨_, stored, chars, rest, split, plain, rfl, before, Or.inl invalid⟩
      · omega

/-- The checks keep what is promised for a string and a bound exactly when the bound leaves room for every sequence that
only allowed characters are in front of. -/
theorem validate_promise_iff (s beyond : List UInt8) (maxBytes : Int)
    (noNul : 0 ∉ s) :
    Promise s beyond maxBytes ↔ Fits maxBytes s := by
  constructor
  · intro promise
    by_contra unfit
    unfold Fits at unfit
    push Not at unfit
    obtain ⟨large, chars, rest, rfl, plain, some_, unfit⟩ := unfit
    obtain ⟨w, returns, result, unset⟩ := scan_gives_up .start beyond maxBytes noNul plain some_ (by simpa [Vars.start] using unfit) rfl rfl
    obtain ⟨e, stored, -⟩ := promise.refused w (by rw [withBounds_large _ (by omega)]; exact returns) result
    rw [unset] at stored
    cases stored
  · intro fit
    have unbounded : (∃ w, monoUtf8ValidateAndLen (s ++ 0 :: beyond) = some w ∧ w.result = true) ↔ Acceptable s :=
      accepts_iff noNul (by simp)
    refine ⟨unbounded, ?_, ?_, ?_, fun w returns refused => stores_refused noNul fit returns refused⟩
    · rw [← unbounded, gUtf8Validate_unlimited]
      constructor
      · rintro ⟨e, returns⟩
        obtain ⟨w, returns, same⟩ := Option.map_eq_some_iff.mp returns
        exact ⟨w, returns, congrArg Prod.fst same⟩
      · rintro ⟨w, returns, result⟩
        exact ⟨w.oEnd, by rw [returns, ← result]; rfl⟩
    · rw [withBounds_large _ (by omega)]
      exact accepts_iff noNul (by intro next bound; simp; omega)
    · rintro chars rfl plain
      exact stores_chars noNul plain

theorem announced_le (s : List UInt8) : announced s ≤ 6 := by
  unfold announced trailingBytesForUtf8
  grind

theorem Fits.of_length (room : (s.length + 6 : Int) < maxBytes) : Fits maxBytes s := by
  refine Or.inr ?_
  rintro chars rest rfl - -
  have bound := announced_le rest
  rw [length_append] at room
  omega

end Checks

/-- The promise holds for a lead byte without its followers and a bound well behind it. -/
theorem validate_promise_lead : Promise [0x61, 0xE2, 0x28, 0x28] [] 11 :=
  (validate_promise_iff [0x61, 0xE2, 0x28, 0x28] [] 11 (by decide)).mpr (Fits.of_length (by decide))

/-- With two bytes as the bound, an `é` is refused and no end is stored. -/
theorem withBounds_stores_nothing :
    monoUtf8ValidateAndLenWithBounds [0xC3, 0xA9, 0] 2 = some ⟨false, none, 0⟩ ∧ ¬ Promise [0xC3, 0xA9] [] 2 := by
  have returns : monoUtf8ValidateAndLenWithBounds [0xC3, 0xA9, 0] 2 = some ⟨false, none, 0⟩ := by decide +kernel
  refine ⟨returns, fun promise => ?_⟩
  obtain ⟨e, stored, -⟩ := promise.refused ⟨false, none, 0⟩ returns rfl
  cases stored

/-- An accepted text goes to UTF-16 and back. -/
theorem accepted_roundTrips (text : Utf8.Text UInt8) (rest : List UInt8) {w : Verdict} (noNul : 0 ∉ text.input)
    (returns : monoUtf8ValidateAndLen (text.input ++ 0 :: rest) = some w) (accepted : w.result)
    (error error' : Bool) : ∃ wide units, Utf8.gUtf8ToUtf16 text error = .ok wide ∧ wide.stored = units ++ [0] ∧
      ∀ held : Utf8.Text UInt16, held.input = units →
        ∃ back, Utf8.gUtf16ToUtf8 held error' = .ok back ∧ back.stored = text.input ++ [0] := by
  obtain ⟨chars, same, -⟩ := (accepts_iff noNul (by simp)).mp ⟨w, returns, accepted⟩
  obtain ⟨wide, done, kept⟩ := Utf8.gUtf8ToUtf16_wellFormed text error chars same
  refine ⟨wide, _, done, kept, fun held whole => ?_⟩
  obtain ⟨⟨total, counted⟩, converted⟩ := Utf8.units_chars chars error' 0 0
  rw [← whole] at counted converted
  exact ⟨_, by rw [Utf8.gUtf16ToUtf8, counted], congrArg (· ++ [0]) (converted.trans same.symm)⟩

theorem accepted_roundTrips_char : ∃ wide units, Utf8.gUtf8ToUtf16 ⟨[0xC3, 0xA9], 2, by decide⟩ true = .ok wide ∧
      wide.stored = units ++ [0] ∧ ∀ held : Utf8.Text UInt16, held.input = units →
        ∃ back, Utf8.gUtf16ToUtf8 held true = .ok back ∧ back.stored = [0xC3, 0xA9, 0] :=
  accepted_roundTrips _ [] (w := ⟨true, some 2, 1⟩) (by decide) (by decide +kernel) rfl true true

/-! ### What is read -/

/-- The string is cut into pieces as long as their first bytes announce, up to its end or to a place that is past a
limit. -/
def InPieces (past : Nat → Prop) (s : List UInt8) : Prop :=
  ∃ (pieces : List (List UInt8)) (rest : List UInt8), s = pieces.flatten ++ rest ∧
      (∀ piece ∈ pieces, piece ≠ [] ∧ piece.length = announced piece) ∧ (rest = [] ∨ past pieces.flatten.length)

theorem announced_append {piece : List UInt8} (some_ : piece ≠ []) (rest : List UInt8) :
    announced (piece ++ rest) = announced piece := by
  cases piece with
  | nil => exact absurd rfl some_
  | cons c piece => rfl

theorem InPieces.cons_iff {past : Nat → Prop} {s : List UInt8} (some_ : s ≠ []) (within : ¬ past 0) : InPieces past s ↔
      announced s ≤ s.length ∧ InPieces (fun i => past (announced s + i)) (s.drop (announced s)) := by
  constructor
  · rintro ⟨_ | ⟨piece, pieces⟩, rest, rfl, whole, done⟩
    · exact (done.elim some_ within).elim
    · obtain ⟨⟨nonempty, length⟩, later⟩ := forall_mem_cons.mp whole
      rw [flatten_cons, append_assoc, announced_append nonempty, ← length, drop_left]
      refine ⟨by simp, pieces, rest, rfl, later, done.imp_right fun far => ?_⟩
      rwa [flatten_cons, length_append] at far
  · rintro ⟨fits, pieces, rest, split, whole, done⟩
    have front := take_append_drop (announced s) s
    have length : (s.take (announced s)).length = announced s := length_take_of_le fits
    have nonempty : s.take (announced s) ≠ [] := by
      obtain ⟨c, s, rfl⟩ := exists_cons_of_ne_nil some_
      nofun
    refine ⟨s.take (announced s) :: pieces, rest, ?_, ?_, done.imp_right fun far => ?_⟩
    · rw [flatten_cons, append_assoc, ← split, front]
    · refine forall_mem_cons.mpr ⟨⟨nonempty, ?_⟩, whole⟩
      rw [length, ← announced_append nonempty, front]
    · rwa [flatten_cons, length_append, length]

/-- Without a test that a sequence fits, the loop stays inside where all pieces do. -/
theorem scan_isSome_iff (more : Nat → Bool) {v : Vars} {s : List UInt8} (noNul : 0 ∉ s) :
    (scan more (fun _ => true) v (s ++ [0])).isSome ↔ InPieces (fun i => more (v.ptr + i) = false) s := by
  induction size : s.length using Nat.strong_induction_on generalizing s v with
  | _ n ih =>
    cases s with
    | nil => exact iff_of_true (by simp [scan]) ⟨[], [], rfl, by simp, .inl rfl⟩
    | cons c s =>
      have noZero : c ≠ 0 := fun zero => noNul (zero ▸ mem_cons_self)
      by_cases stops : more v.ptr = false
      · rw [cons_append, scan, if_pos (.inr stops)]
        exact iff_of_true rfl ⟨[], c :: s, rfl, by simp, .inr stops⟩
      · have positive : 1 ≤ announced (c :: s) := Nat.le_add_left ..
        rw [InPieces.cons_iff (cons_ne_nil c s) stops, cons_append, scan, if_neg (by simp [noZero, stops]),
          if_neg (by decide)]
        change (if (c :: s ++ [0]).length < announced (c :: s) then none
          else scan more _ (v.next (announced (c :: s)) _) ((c :: s ++ [0]).drop (announced (c :: s)))).isSome ↔ _
        generalize announced (c :: s) = length at *
        by_cases fits : length ≤ (c :: s).length
        · rw [if_neg (by rw [length_append]; omega), drop_append_of_le_length fits, and_iff_right fits]
          have shorter : ((c :: s).drop length).length < n := by rw [length_drop]; omega
          rw [ih _ shorter (fun zero => noNul (drop_subset _ _ zero)) rfl]
          simp only [Vars.next, Nat.add_assoc]
        · rw [iff_false_right (fun both => fits both.1)]
          split_ifs
          · simp
          · rw [drop_eq_nil_of_le (by rw [length_append, length_singleton]; omega), scan]
            simp

/-- With the test that a sequence fits, the loop stays in front of the bound over any memory. -/
theorem scan_isSome_of_bound {maxBytes : Int} {v : Vars} {mem : List UInt8} (some_ : mem ≠ [])
    (bound : v.ptr + mem.length = maxBytes) :
    (scan (fun _ => true) (fun srcPtr => decide (srcPtr < maxBytes)) v mem).isSome := by
  fun_induction scan (fun _ => true) (fun srcPtr => decide (srcPtr < maxBytes)) v mem with
  | case1 => exact absurd rfl some_
  | case2 => rfl
  | case3 => rfl
  | case4 v c rest more length fit short =>
    rw [Bool.not_eq_false, decide_eq_true_iff] at fit
    omega
  | case5 v c rest more length fit short ih =>
    rw [Bool.not_eq_false, decide_eq_true_iff] at fit
    have left : ((c :: rest).drop length).length = (c :: rest).length - length := length_drop
    refine ih (ne_nil_of_length_pos ?_) ?_
    · omega
    · dsimp only [Vars.next]
      omega

/-- Where the checks read nothing behind the terminator; with a bound nothing is read at the bound or behind it. -/
theorem validate_inside_iff (s : List UInt8) (noNul : 0 ∉ s) :
    ((monoUtf8ValidateAndLen (s ++ [0])).isSome ↔ InPieces (fun _ => False) s) ∧
      (∀ maxLen : Int, (gUtf8Validate (s ++ [0]) maxLen).isSome ↔
        maxLen = 0 ∨ InPieces (fun ptr => 0 < maxLen ∧ maxLen < ptr) s) ∧
      ∀ (maxBytes : Int) (mem : List UInt8), mem.length = maxBytes.toNat →
        (monoUtf8ValidateAndLenWithBounds mem maxBytes).isSome := by
  refine ⟨?_, fun maxLen => ?_, fun maxBytes mem length => ?_⟩
  · rw [monoUtf8ValidateAndLen, scan_isSome_iff _ noNul]
    simp
  · unfold gUtf8Validate
    by_cases zero : maxLen = 0
    · simp [zero]
    · rw [if_neg zero, Option.isSome_map, scan_isSome_iff _ noNul, or_iff_right zero]
      simp [Vars.start]
  · by_cases small : maxBytes < 1
    · rw [withBounds_small _ small]
      rfl
    · rw [withBounds_large _ small]
      exact scan_isSome_of_bound (ne_nil_of_length_pos (by omega)) (by simp [Vars.start]; omega)

/-- An `é` is whole. -/
theorem validate_inside_char : (monoUtf8ValidateAndLen ([0xC3, 0xA9] ++ [0])).isSome :=
  (validate_inside_iff [0xC3, 0xA9] (by decide)).1.mpr ⟨[[0xC3, 0xA9]], [], rfl, by decide, .inl rfl⟩

/-- Of a sequence of two bytes the terminator is taken for the second, of one of three a byte behind it for the third.
-/
theorem validate_outside :
    monoUtf8ValidateAndLen ([0xC3] ++ [0]) = none ∧ monoUtf8ValidateAndLen ([0xE2] ++ [0]) = none ∧
      gUtf8Validate ([0xC3] ++ [0]) (-1) = none ∧ gUtf8Validate ([0xE2] ++ [0]) 1 = none := by
  decide +kernel

end MonoRuntime.StrEnc
