/-
Module: MonoRuntime.Proofs.Utf8WellFormed
Purpose: Which texts the conversion from UTF-8 accepts, what it makes of well-formed ones, and the way from UTF-16 to UTF-8 and back.
Trusted boundary: none
Main exports: conversions_ofWellFormedTexts
-/
import MonoRuntime.Proofs.Utf8

namespace MonoRuntime.Utf8

open List

/-! ### Characters and pieces -/

theorem toNat_ofNat {n : Nat} (small : n < 256) : (UInt8.ofNat n).toNat = n :=
  UInt8.toNat_ofNat_of_lt' small

variable (x : Nat) (chars : List Char) {α : Type} {l : List α} (fuel : Nat) (c : Char)

theorem char_range : c.val.toNat < 0xD800 ∨ (0xDFFF < c.val.toNat ∧ c.val.toNat < 0x110000) :=
  c.valid

variable {lead ch : UInt8} (text : Text UInt8) (error : Bool) {v : Nat}

theorem exists_char (valid : v < 0xD800 ∨ (0xDFFF < v ∧ v < 0x110000)) : ∃ c : Char, c.val.toNat = v := by
  refine ⟨Char.ofNatAux v valid, ?_⟩
  rfl

theorem convertCharacter_char : (convertCharacter c.val.toNat).2 = utf16EncodeChar c := by
  have range := char_range c
  unfold convertCharacter utf16EncodeChar
  simp only
  generalize c.val.toNat = v at range ⊢
  by_cases small : v < 0x10000
  · rw [if_pos small, if_pos small, Nat.mod_eq_of_lt small]
  · rw [if_neg small, if_neg small, if_pos (by omega)]
    have low : (v - 0x10000) &&& 0x3FF = (v - 0x10000) % 1024 :=
      Nat.and_two_pow_sub_one_eq_mod (v - 0x10000) 10
    rw [low, Nat.shiftRight_eq_div_pow, Nat.add_comm _ 0xD800, Nat.add_comm _ 0xDC00]

theorem following_byte :
    continues (UInt8.ofNat (x % 0x40 + 0x80)) = true ∧ (UInt8.ofNat (x % 0x40 + 0x80)).toNat % 64 = x % 64 := by
  have value := toNat_ofNat (n := x % 0x40 + 0x80) (by omega)
  rw [continues_iff, value]
  exact ⟨⟨by omega, by omega⟩, by omega⟩

theorem takeWhile_all {p : α → Bool} {l : List α} (all : ∀ a ∈ l, p a = true) : l.takeWhile p = l := by
  have front : (l ++ []).takeWhile p = l ++ List.takeWhile p [] :=
    takeWhile_append_of_pos all
  rw [takeWhile_nil, append_nil] at front
  exact front

theorem cut_whole {tail : List UInt8} (payload : Nat) (rest : List UInt8)
    (found : leadByte lead = some (payload, tail.length + 1)) (high : ¬ lead < 0x80)
    (follow : ∀ ch ∈ tail, continues ch = true) : cut (fuel + 1) (lead :: (tail ++ rest))
      = .whole (tail.foldl accumulate payload) lead tail :: cut fuel rest := by
  have taken : ((tail ++ rest).take (tail.length + 1 - 1)).takeWhile continues = tail := by
    rw [Nat.add_sub_cancel, take_left, takeWhile_all follow]
  rw [cut, if_neg high, found]
  simp only [taken]
  rw [if_pos (Nat.add_sub_cancel ..).symm, drop_left]

theorem leadByte_high {announced : Nat × Nat} (found : leadByte ch = some announced) : ¬ ch < 0x80 := by
  intro ascii
  rw [lt_0x80_iff] at ascii
  rw [leadByte_eq, if_pos (by omega)] at found
  cases found

theorem foldl_accumulate (parts : List Nat) (payload : Nat) (bounds : (payload + 1) * 64 ^ parts.length ≤ 2 ^ 31) :
    (parts.map fun x => UInt8.ofNat (x % 0x40 + 0x80)).foldl accumulate payload
      = parts.foldl (fun v x => v * 64 + x % 64) payload := by
  induction parts generalizing payload with
  | nil => rfl
  | cons x parts ih =>
    obtain ⟨-, bits⟩ := following_byte x
    have positive : 1 ≤ 64 ^ parts.length := Nat.pow_pos (by decide)
    rw [length_cons, Nat.pow_succ', ← Nat.mul_assoc] at bounds
    have first : (payload + 1) * 64 ≤ 2 ^ 31 :=
      Nat.le_trans (Nat.le_mul_of_pos_right _ positive) bounds
    have next : (payload * 64 + x % 64 + 1) * 64 ^ parts.length ≤ 2 ^ 31 := by
      have less : payload * 64 + x % 64 + 1 ≤ (payload + 1) * 64 := by omega
      exact Nat.le_trans (Nat.mul_le_mul_right _ less) bounds
    rw [map_cons, foldl_cons, foldl_cons, accumulate_eq _ (by omega), bits]
    exact ih _ next

/-- A character of more than one byte in front of a string is its first piece: the payload of its
first byte, the following bytes with six bits each, and a value that is neither below the threshold
nor tolerated. -/
theorem cut_sequence (payload : Nat) (parts : List Nat) (rest : List UInt8)
    (announced : leadByte lead = some (payload, parts.length + 1))
    (value : parts.foldl (fun v x => v * 64 + x % 64) payload = c.val.toNat)
    (fits : c.val.toNat < 0x10000 → overlong (parts.length + 1) c.val.toNat = false)
    (shortest : ¬ (Piece.whole c.val.toNat lead (parts.map fun x => UInt8.ofNat (x % 0x40 + 0x80))).Tolerated) :
    ∃ piece, cut (fuel + 1)
        (lead :: (parts.map fun x => UInt8.ofNat (x % 0x40 + 0x80)) ++ rest) = piece :: cut fuel rest
      ∧ piece.written = utf16EncodeChar c ∧ ¬ piece.Refused ∧ ¬ piece.Tolerated := by
  have range := char_range c
  have length : (parts.map fun x => UInt8.ofNat (x % 0x40 + 0x80)).length = parts.length :=
    length_map ..
  have follow : ∀ ch ∈ parts.map fun x => UInt8.ofNat (x % 0x40 + 0x80), continues ch = true := by
    intro ch member
    obtain ⟨x, -, rfl⟩ := mem_map.mp member
    exact (following_byte x).1
  have bounds := (leadByte_bounds announced).2.2
  have first := cut_whole fuel payload rest (by rw [length]; exact announced)
    (leadByte_high announced) follow
  rw [foldl_accumulate parts payload bounds, value] at first
  refine ⟨_, first, convertCharacter_char c, ?_, shortest⟩
  rintro (⟨small, low⟩ | large)
  · rw [length, fits small] at low
    cases low
  · omega

/-- The first piece of a string that starts with a character is that character. -/
theorem cut_char (rest : List UInt8) : ∃ piece, cut (fuel + 1) (String.utf8EncodeChar c ++ rest) = piece :: cut fuel rest
      ∧ piece.written = utf16EncodeChar c ∧ ¬ piece.Refused ∧ ¬ piece.Tolerated := by
  have range := char_range c
  unfold String.utf8EncodeChar
  by_cases one : c.val.toNat ≤ 0x7f
  · rw [if_pos one]
    have value := toNat_ofNat (n := c.val.toNat) (by omega)
    have ascii : UInt8.ofNat c.val.toNat < 0x80 := by
      rw [lt_0x80_iff, value]
      omega
    refine ⟨.single (UInt8.ofNat c.val.toNat), ?_, ?_, fun no => no, fun no => no⟩
    · rw [singleton_append, cut, if_pos ascii]
    · have unit : (UInt8.ofNat c.val.toNat).toUInt16 = UInt16.ofNat c.val.toNat := by
        apply UInt16.toNat_inj.mp
        have small : c.val.toNat < UInt16.size := by
          show c.val.toNat < 65536
          omega
        rw [UInt8.toNat_toUInt16, UInt16.toNat_ofNat_of_lt' small]
        exact value
      unfold utf16EncodeChar
      rw [Piece.written, unit, if_pos (by omega)]
  · rw [if_neg one]
    by_cases two : c.val.toNat ≤ 0x7ff
    · rw [if_pos two]
      have value := toNat_ofNat (n := c.val.toNat / 64 % 0x20 + 0xc0) (by omega)
      refine cut_sequence fuel c (c.val.toNat / 64) [c.val.toNat] rest ?_ ?_ ?_ ?_
      · have payload : c.val.toNat / 64 % 0x20 + 0xc0 - 0xC0 = c.val.toNat / 64 := by omega
        rw [leadByte_eq, value, if_neg (by omega), if_pos (by omega), payload]
        rfl
      · simp only [foldl_cons, foldl_nil]
        omega
      · intro small
        simp only [overlong, length_singleton, Nat.reduceAdd, decide_eq_false_iff_not]
        omega
      · simp only [Piece.Tolerated, map_cons, map_nil, length_cons, length_nil]
        omega
    · rw [if_neg two]
      by_cases three : c.val.toNat ≤ 0xffff
      · rw [if_pos three]
        have value := toNat_ofNat (n := c.val.toNat / 4096 % 0x10 + 0xe0) (by omega)
        refine cut_sequence fuel c (c.val.toNat / 4096) [c.val.toNat / 64, c.val.toNat] rest
          ?_ ?_ ?_ ?_
        · have payload : c.val.toNat / 4096 % 0x10 + 0xe0 - 0xE0 = c.val.toNat / 4096 := by omega
          rw [leadByte_eq, value, if_neg (by omega), if_neg (by omega), if_pos (by omega), payload]
          rfl
        · simp only [foldl_cons, foldl_nil]
          omega
        · intro small
          simp only [overlong, length_cons, length_nil, Nat.reduceAdd,
            decide_eq_false_iff_not]
          omega
        · simp only [Piece.Tolerated, map_cons, map_nil, length_cons,
            length_nil]
          omega
      · rw [if_neg three]
        have value := toNat_ofNat (n := c.val.toNat / 262144 % 0x08 + 0xf0) (by omega)
        refine cut_sequence fuel c (c.val.toNat / 262144)
          [c.val.toNat / 4096, c.val.toNat / 64, c.val.toNat] rest ?_ ?_ ?_ ?_
        · have payload : c.val.toNat / 262144 % 0x08 + 0xf0 - 0xF0 = c.val.toNat / 262144 := by omega
          rw [leadByte_eq, value, if_neg (by omega), if_neg (by omega), if_neg (by omega),
            if_pos (by omega), payload]
          rfl
        · simp only [foldl_cons, foldl_nil]
          omega
        · intro small
          omega
        · simp only [Piece.Tolerated, map_cons, map_nil, length_cons,
            length_nil]
          omega

theorem cut_chars (enough : (chars.flatMap String.utf8EncodeChar).length ≤ fuel) :
    (cut fuel (chars.flatMap String.utf8EncodeChar)).flatMap Piece.written = utf16Encode chars
      ∧ ∀ piece ∈ cut fuel (chars.flatMap String.utf8EncodeChar), ¬ piece.Refused ∧ ¬ piece.Tolerated := by
  induction chars generalizing fuel with
  | nil =>
    have none : cut fuel [] = [] := by
      cases fuel with
      | zero | succ fuel => rfl
    rw [flatMap_nil, none]
    refine ⟨rfl, ?_⟩
    intro piece member
    cases member
  | cons c chars ih =>
    rw [flatMap_cons, length_append] at enough
    have positive : (String.utf8EncodeChar c).length ≠ 0 := by
      intro empty
      exact String.utf8EncodeChar_ne_nil (eq_nil_of_length_eq_zero empty)
    obtain ⟨fuel, rfl⟩ : ∃ n, fuel = n + 1 := ⟨fuel - 1, by omega⟩
    obtain ⟨piece, first, units, passes, shortest⟩ :=
      cut_char fuel c (chars.flatMap String.utf8EncodeChar)
    obtain ⟨written, clean⟩ := ih fuel (by omega)
    rw [flatMap_cons, first]
    refine ⟨?_, ?_⟩
    · rw [flatMap_cons, units, written]
      rfl
    · intro other member
      rcases mem_cons.mp member with same | member
      · rw [same]
        exact ⟨passes, shortest⟩
      · exact clean other member

/-! ### Pieces that are characters -/

theorem following_eq (follow : continues ch = true)
    (bits : ch.toNat % 64 = x % 64) : UInt8.ofNat (x % 0x40 + 0x80) = ch := by
  rw [continues_iff] at follow
  apply UInt8.toNat_inj.mp
  rw [toNat_ofNat (by omega)]
  omega

theorem leadByte_inv {payload mbSize : Nat} (found : leadByte ch = some (payload, mbSize)) :
    (mbSize = 2 ∧ ch.toNat = payload + 0xC0 ∧ payload < 32) ∨ (mbSize = 3 ∧ ch.toNat = payload + 0xE0 ∧ payload < 16)
      ∨ (mbSize = 4 ∧ ch.toNat = payload + 0xF0 ∧ payload < 8) ∨ mbSize = 5 ∨ mbSize = 6 := by
  have all : (leadByte ch).all (fun found => decide
      ((found.2 = 2 ∧ ch.toNat = found.1 + 0xC0 ∧ found.1 < 32)
        ∨ (found.2 = 3 ∧ ch.toNat = found.1 + 0xE0 ∧ found.1 < 16)
        ∨ (found.2 = 4 ∧ ch.toNat = found.1 + 0xF0 ∧ found.1 < 8)
        ∨ found.2 = 5 ∨ found.2 = 6)) = true := by
    clear found
    revert ch
    apply forall_bytes
    decide +kernel
  rw [found] at all
  exact of_decide_eq_true all

theorem length_two (two : l.length = 2) : ∃ a b, l = [a, b] := by
  match l, two with
  | [a, b], _ => exact ⟨a, b, rfl⟩

theorem length_three (three : l.length = 3) : ∃ a b c, l = [a, b, c] := by
  match l, three with
  | [a, b, c], _ => exact ⟨a, b, c, rfl⟩

/-- A piece that is neither refused nor tolerated is the encoding of a character. -/
theorem char_of_piece {piece : Piece} (formed : piece.Formed) (passes : ¬ piece.Refused)
    (shortest : ¬ piece.Tolerated) : ∃ c : Char, piece.bytes = String.utf8EncodeChar c := by
  cases piece with
  | stray byte | broken lead tail byte => exact absurd trivial passes
  | cutOff lead tail => exact absurd trivial shortest
  | single byte =>
    have ascii : byte < 0x80 := formed
    rw [lt_0x80_iff] at ascii
    obtain ⟨c, value⟩ := exists_char (v := byte.toNat) (by omega)
    refine ⟨c, ?_⟩
    unfold String.utf8EncodeChar
    rw [value, if_pos (by omega), UInt8.ofNat_toNat]
    rfl
  | whole codepoint lead tail =>
    obtain ⟨high, payload, found, follow, same⟩ := formed
    simp only [Piece.Refused] at passes
    simp only [Piece.Tolerated] at shortest
    rw [Piece.bytes]
    rcases leadByte_inv found with ⟨size, first, small⟩ | ⟨size, first, small⟩ | ⟨size, first, small⟩
      | size | size
    · obtain ⟨a, rfl⟩ := length_eq_one_iff.mp (Nat.succ.inj size)
      have fa := follow a (by simp)
      have limit : codepoint ≠ 0x7F := fun limit => shortest (Or.inl ⟨rfl, limit⟩)
      rw [foldl_cons, foldl_nil, accumulate_eq _ (by omega)] at same
      simp only [length_singleton, overlong, Nat.reduceAdd, decide_eq_true_eq] at passes
      obtain ⟨c, value⟩ := exists_char (v := codepoint) (by omega)
      refine ⟨c, ?_⟩
      unfold String.utf8EncodeChar
      rw [value, if_neg (by omega), if_pos (by omega), following_eq codepoint fa (by omega)]
      congr 1
      apply UInt8.toNat_inj.mp
      rw [toNat_ofNat (by omega)]
      omega
    · obtain ⟨a, b, rfl⟩ := length_two (Nat.succ.inj size)
      have fa := follow a (by simp)
      have fb := follow b (by simp)
      have range : ¬ (codepoint = 0x7FF ∨ (0xD800 ≤ codepoint ∧ codepoint ≤ 0xDFFF)) :=
        fun tolerated => shortest (Or.inr (Or.inl ⟨rfl, tolerated⟩))
      rw [foldl_cons, foldl_cons, foldl_nil, accumulate_eq a (by omega),
        accumulate_eq b (by omega)] at same
      simp only [length_cons, length_nil, overlong, Nat.reduceAdd, decide_eq_true_eq]
        at passes
      obtain ⟨c, value⟩ := exists_char (v := codepoint) (by omega)
      refine ⟨c, ?_⟩
      unfold String.utf8EncodeChar
      rw [value, if_neg (by omega), if_neg (by omega), if_pos (by omega),
        following_eq (codepoint / 64) fa (by omega), following_eq codepoint fb (by omega)]
      congr 1
      apply UInt8.toNat_inj.mp
      rw [toNat_ofNat (by omega)]
      omega
    · obtain ⟨a, b, d, rfl⟩ := length_three (Nat.succ.inj size)
      have fa := follow a (by simp)
      have fb := follow b (by simp)
      have fd := follow d (by simp)
      rw [foldl_cons, foldl_cons, foldl_cons, foldl_nil,
        accumulate_eq a (by omega), accumulate_eq b (by omega), accumulate_eq d (by omega)] at same
      simp only [length_cons, length_nil, overlong, Nat.reduceAdd, decide_eq_true_eq]
        at passes
      obtain ⟨c, value⟩ := exists_char (v := codepoint) (by omega)
      refine ⟨c, ?_⟩
      unfold String.utf8EncodeChar
      rw [value, if_neg (by omega), if_neg (by omega), if_neg (by omega),
        following_eq (codepoint / 4096) fa (by omega), following_eq (codepoint / 64) fb (by omega),
        following_eq codepoint fd (by omega)]
      congr 1
      apply UInt8.toNat_inj.mp
      rw [toNat_ofNat (by omega)]
      omega
    · rw [Nat.succ.inj size] at passes shortest
      simp only [overlong, Nat.reduceAdd, decide_eq_true_eq] at passes shortest
      omega
    · rw [Nat.succ.inj size] at passes shortest
      simp only [overlong, Nat.reduceAdd, decide_eq_true_eq] at passes shortest
      omega

theorem chars_of_pieces {pieces : List Piece} (cut : WellCut pieces)
    (clean : ∀ piece ∈ pieces, ¬ piece.Refused ∧ ¬ piece.Tolerated) :
    ∃ chars : List Char, pieces.flatMap Piece.bytes = chars.flatMap String.utf8EncodeChar := by
  induction cut with
  | nil => exact ⟨[], rfl⟩
  | cutOff lead tail formed =>
    exact absurd trivial (clean _ (mem_cons_self ..)).2
  | cons piece pieces formed inside cut ih =>
    obtain ⟨passes, shortest⟩ := clean piece (mem_cons_self ..)
    obtain ⟨c, first⟩ := char_of_piece formed passes shortest
    obtain ⟨chars, rest⟩ := ih fun other member => clean other (mem_cons_of_mem _ member)
    exact ⟨c :: chars, by rw [flatMap_cons, flatMap_cons, first, rest]⟩

/-- With an error argument the conversion succeeds exactly when no piece is refused. -/
theorem gUtf8ToUtf16_succeeds : (∃ converted, gUtf8ToUtf16 text true = .ok converted)
      ↔ ∀ piece ∈ pieces text.input, ¬ piece.Refused := by
  constructor
  · rintro ⟨converted, done⟩
    rcases (gUtf8ToUtf16_eq text true converted done).1 with quiet | passes
    · cases quiet
    · exact passes
  · intro passes
    have counted := utf8ToUtf16Len_pieces true text.input (Or.inr passes)
    exact ⟨_, by rw [gUtf8ToUtf16, counted]⟩

/-- A well-formed text is converted to its encoding, with an error argument and without. -/
theorem gUtf8ToUtf16_wellFormed (chars : List Char) (same : text.input = chars.flatMap String.utf8EncodeChar) :
    ∃ converted, gUtf8ToUtf16 text error = .ok converted ∧ converted.stored = utf16Encode chars ++ [0] := by
  obtain ⟨written, clean⟩ := cut_chars chars text.input.length (Nat.le_of_eq (congrArg List.length same.symm))
  rw [← same] at written clean
  have passes : error = false ∨ ∀ piece ∈ pieces text.input, ¬ piece.Refused :=
    Or.inr fun piece member => (clean piece member).1
  have counted := utf8ToUtf16Len_pieces error text.input passes
  refine ⟨_, by rw [gUtf8ToUtf16, counted], ?_⟩
  rw [utf8Units_pieces, pieces, written]

/-! ### Well-formed UTF-16 -/

theorem or_following {x : Nat} (small : x < 64) : 0x80 ||| x = x + 0x80 := by
  revert x
  decide

theorem or_lead {x : Nat} :
    (x < 32 → 0xC0 ||| x = x + 0xC0) ∧ (x < 16 → 0xE0 ||| x = x + 0xE0)
      ∧ (x < 8 → 0xF0 ||| x = x + 0xF0) := by
  have two : ∀ x < 32, 0xC0 ||| x = x + 0xC0 := by decide
  have three : ∀ x < 16, 0xE0 ||| x = x + 0xE0 := by decide
  have four : ∀ x < 8, 0xF0 ||| x = x + 0xF0 := by decide
  exact ⟨two x, three x, four x⟩

theorem codepointBytes_char : codepointBytes c.val.toNat = String.utf8EncodeChar c := by
  have range := char_range c
  have low (x : Nat) : 0x80 ||| (x &&& 0x3F) = x % 0x40 + 0x80 := by
    have masked : x &&& 0x3F = x % 64 := Nat.and_two_pow_sub_one_eq_mod x 6
    rw [masked, or_following (Nat.mod_lt _ (by decide))]
  unfold codepointBytes String.utf8EncodeChar
  simp only [low, Nat.shiftRight_eq_div_pow, Nat.reducePow]
  generalize c.val.toNat = v at range ⊢
  by_cases one : v < 0x80
  · rw [if_pos one, if_pos (show v ≤ 0x7f by omega)]
  · rw [if_neg one, if_neg (show ¬ v ≤ 0x7f by omega)]
    by_cases two : v < 0x800
    · have lead : 0xC0 ||| v / 64 = v / 64 % 0x20 + 0xc0 := by
        rw [or_lead.1 (by omega), Nat.mod_eq_of_lt (by omega)]
      rw [if_pos two, if_pos (show v ≤ 0x7ff by omega), lead]
    · rw [if_neg two, if_neg (show ¬ v ≤ 0x7ff by omega)]
      by_cases three : v < 0x10000
      · have lead : 0xE0 ||| v / 4096 = v / 4096 % 0x10 + 0xe0 := by
          rw [or_lead.2.1 (by omega), Nat.mod_eq_of_lt (by omega)]
        rw [if_pos three, if_pos (show v ≤ 0xffff by omega), lead]
      · have lead : 0xF0 ||| v / 262144 = v / 262144 % 0x08 + 0xf0 := by
          rw [or_lead.2.2 (by omega), Nat.mod_eq_of_lt (by omega)]
        rw [if_neg three, if_neg (show ¬ v ≤ 0xffff by omega), lead]

theorem unit_plain {ch : UInt16} (value : ch.toNat = v) (plain : v < 0xD800 ∨ 0xDFFF < v) :
    (∃ n, countUnit error false ch = .ok (false, n)) ∧ convertUnit 0 ch = (0, codepointBytes v) := by
  unfold countUnit convertUnit
  simp only [UInt16.lt_iff_toNat_lt, UInt16.le_iff_toNat_le, UInt16.reduceToNat, value]
  rw [if_neg Bool.false_ne_true, if_neg (show ¬ (0 ≠ 0) from fun no => no rfl)]
  by_cases one : v < 128
  · rw [if_pos one, if_pos one, codepointBytes, if_pos one]
    exact ⟨⟨_, rfl⟩, rfl⟩
  · rw [if_neg one, if_neg one, if_neg (show ¬ (55296 ≤ v ∧ v ≤ 56319) by omega),
      if_neg (show ¬ (55296 ≤ v ∧ v ≤ 56319) by omega),
      if_neg (show ¬ (56320 ≤ v ∧ v ≤ 57343) by omega),
      if_neg (show ¬ (56320 ≤ v ∧ v ≤ 57343) by omega)]
    refine ⟨?_, rfl⟩
    split
    · exact ⟨_, rfl⟩
    · exact ⟨_, rfl⟩

theorem unit_pair {x : Nat} {high low : UInt16} (highValue : high.toNat = 0xD800 + x / 1024)
    (lowValue : low.toNat = 0xDC00 + x % 1024) (small : x < 0x100000) :
    countUnit error false high = .ok (true, 0) ∧ countUnit error true low = .ok (false, 4)
      ∧ convertUnit 0 high = (high.toNat, []) ∧ convertUnit high.toNat low = (0, codepointBytes (0x10000 + x)) := by
  have first : 55296 ≤ high.toNat ∧ high.toNat ≤ 56319 := by omega
  have second : 56320 ≤ low.toNat ∧ low.toNat ≤ 57343 := by omega
  have joined : 0x10000 + (low.toNat - 0xDC00) + (high.toNat - 0xD800) <<< 10 = 0x10000 + x := by
    omega
  unfold countUnit convertUnit
  simp only [UInt16.lt_iff_toNat_lt, UInt16.le_iff_toNat_le, UInt16.reduceToNat]
  refine ⟨?_, ?_, ?_, ?_⟩
  · rw [if_neg Bool.false_ne_true, if_neg (show ¬ high.toNat < 128 by omega),
      if_neg (show ¬ high.toNat < 2048 by omega), if_pos first]
  · rw [if_pos trivial, if_pos second]
  · rw [if_neg (show ¬ (0 ≠ 0) from fun no => no rfl), if_neg (show ¬ high.toNat < 128 by omega),
      if_pos first]
  · rw [if_pos (show high.toNat ≠ 0 by omega), if_pos second, joined]

variable (position ret : Nat)

/-- The units of a character are counted without an error, and converted to its bytes. -/
theorem units_char (rest : List UInt16) :
    (∃ position' ret', countUnits error false position ret (utf16EncodeChar c ++ rest)
        = countUnits error false position' ret' rest) ∧ convertUnits 0 (utf16EncodeChar c ++ rest)
        = String.utf8EncodeChar c ++ convertUnits 0 rest := by
  have range := char_range c
  have bytes := codepointBytes_char c
  unfold utf16EncodeChar
  generalize c.val.toNat = v at range bytes ⊢
  have fits {n : Nat} (small : n < 65536) : (UInt16.ofNat n).toNat = n :=
    UInt16.toNat_ofNat_of_lt' small
  by_cases one : v < 0x10000
  · obtain ⟨⟨n, counted⟩, converted⟩ := unit_plain error (fits one) (by omega)
    rw [if_pos one, singleton_append, countUnits, convertUnits, counted, converted, bytes]
    exact ⟨⟨_, _, rfl⟩, rfl⟩
  · have small : v - 0x10000 < 0x100000 := by omega
    obtain ⟨first, second, third, fourth⟩ := unit_pair error
      (fits (show 0xD800 + (v - 0x10000) / 1024 < 65536 by omega))
      (fits (show 0xDC00 + (v - 0x10000) % 1024 < 65536 by omega)) small
    have whole : 0x10000 + (v - 0x10000) = v := by omega
    rw [whole, bytes] at fourth
    rw [if_neg one, cons_append, singleton_append, countUnits, convertUnits, first, third]
    simp only
    rw [countUnits, convertUnits, second, fourth]
    exact ⟨⟨_, _, rfl⟩, rfl⟩

/-- A well-formed sequence of units is counted without an error, and converted to UTF-8. -/
theorem units_chars : (∃ total, countUnits error false position ret (utf16Encode chars) = .ok total)
      ∧ convertUnits 0 (utf16Encode chars) = chars.flatMap String.utf8EncodeChar := by
  induction chars generalizing position ret with
  | nil => exact ⟨⟨ret, rfl⟩, rfl⟩
  | cons c chars ih =>
    obtain ⟨⟨position', ret', counted⟩, converted⟩ :=
      units_char c error position ret (utf16Encode chars)
    obtain ⟨⟨total, rest⟩, bytes⟩ := ih position' ret'
    have split : utf16Encode (c :: chars) = utf16EncodeChar c ++ utf16Encode chars := rfl
    rw [split, counted, converted, rest, bytes, flatMap_cons]
    exact ⟨⟨total, rfl⟩, rfl⟩

theorem utf8EncodeChar_ne_zero {c : Char} (nonzero : c ≠ Char.ofNat 0) : ∀ byte ∈ String.utf8EncodeChar c, byte ≠ 0 := by
  have positive : c.val.toNat ≠ 0 := by
    intro zero
    apply nonzero
    apply Char.ext
    apply UInt32.toNat_inj.mp
    exact zero
  have stored (n : Nat) (low : n ≠ 0) (small : n < 256) : UInt8.ofNat n ≠ 0 := by
    intro zero
    have value := congrArg UInt8.toNat zero
    rw [toNat_ofNat small] at value
    exact low value
  intro byte member
  unfold String.utf8EncodeChar at member
  simp only at member
  generalize c.val.toNat = v at positive member
  split at member
  next => exact mem_singleton.mp member ▸ stored _ positive (by omega)
  next =>
    split at member
    next =>
      rcases mem_cons.mp member with rfl | member
      · exact stored _ (by omega) (by omega)
      · exact mem_singleton.mp member ▸ stored _ (by omega) (by omega)
    next =>
      split at member
      next =>
        rcases mem_cons.mp member with rfl | member
        · exact stored _ (by omega) (by omega)
        · rcases mem_cons.mp member with rfl | member
          · exact stored _ (by omega) (by omega)
          · exact mem_singleton.mp member ▸ stored _ (by omega) (by omega)
      next =>
        rcases mem_cons.mp member with rfl | member
        · exact stored _ (by omega) (by omega)
        · rcases mem_cons.mp member with rfl | member
          · exact stored _ (by omega) (by omega)
          · rcases mem_cons.mp member with rfl | member
            · exact stored _ (by omega) (by omega)
            · exact mem_singleton.mp member ▸ stored _ (by omega) (by omega)

/-- A text without NUL is read whole, with its length or up to its terminator. -/
theorem input_whole {text : Text UInt8} (length : text.len = text.cells.length ∨ text.len < 0)
    (nonzero : ∀ byte ∈ text.cells, byte ≠ 0) : text.input = text.cells := by
  unfold Text.input
  rcases length with given | negative
  · rw [if_neg (by omega), given, Int.toNat_natCast, take_length]
  · rw [if_pos negative]
    exact takeWhile_all fun byte member => decide_eq_true (nonzero byte member)

/-! ### What the conversions promise -/

/-- With an error argument, `g_utf8_to_utf16` accepts exactly the well-formed texts and encodes
them, exactly when the text has no malformed piece that the counting pass tolerates, or has one that
it refuses as well. A well-formed sequence of units without NUL always comes back from UTF-8. -/
theorem conversions_ofWellFormedTexts (text : Text UInt8) (chars : List Char) (units : Text UInt16)
    (error error' : Bool) :
    (ConvertsWellFormed text
        ↔ ((∀ piece ∈ pieces text.input, ¬ piece.Tolerated)
          ∨ ∃ piece ∈ pieces text.input, piece.Refused))
      ∧ (Char.ofNat 0 ∉ chars → units.input = utf16Encode chars →
          ∃ bytes : Converted UInt8, gUtf16ToUtf8 units error = .ok bytes
            ∧ ∀ text : Text UInt8, text.cells ++ [0] = bytes.stored →
                text.len = text.cells.length ∨ text.len < 0 →
                  ∃ back, gUtf8ToUtf16 text error' = .ok back
                    ∧ back.stored = utf16Encode chars ++ [0]) := by
  refine ⟨?_, ?_⟩
  · have joined := (pieces_spec text.input).2
    constructor
    · intro promise
      by_cases refused : ∃ piece ∈ pieces text.input, piece.Refused
      · exact Or.inr refused
      · -- the text is accepted, so it is promised to be well-formed, and its pieces are characters
        have passes : ∀ piece ∈ pieces text.input, ¬ piece.Refused :=
          fun piece member refuses => refused ⟨piece, member, refuses⟩
        obtain ⟨chars, same⟩ := promise.1.mp ((gUtf8ToUtf16_succeeds text).mpr passes)
        have clean := (cut_chars chars text.input.length (Nat.le_of_eq (congrArg List.length same.symm))).2
        rw [← same] at clean
        exact Or.inl fun piece member => (clean piece member).2
    · intro condition
      refine ⟨?_, fun chars same => gUtf8ToUtf16_wellFormed text true chars same⟩
      constructor
      · intro success
        have passes := (gUtf8ToUtf16_succeeds text).mp success
        rcases condition with shortest | ⟨piece, member, refuses⟩
        · obtain ⟨chars, same⟩ := chars_of_pieces (pieces_spec text.input).1
            fun piece member => ⟨passes piece member, shortest piece member⟩
          rw [joined] at same
          exact ⟨chars, same⟩
        · exact absurd refuses (passes piece member)
      · rintro ⟨chars, same⟩
        obtain ⟨converted, done, -⟩ := gUtf8ToUtf16_wellFormed text true chars same
        exact ⟨converted, done⟩
  · intro noNul same
    obtain ⟨⟨total, counted⟩, converted⟩ := units_chars chars error 0 0
    rw [← same] at counted converted
    refine ⟨_, by rw [gUtf16ToUtf8, counted], ?_⟩
    intro text stored length
    have cells : text.cells = chars.flatMap String.utf8EncodeChar := by
      rw [converted] at stored
      exact append_cancel_right stored
    have nonzero : ∀ byte ∈ text.cells, byte ≠ 0 := by
      intro byte member
      rw [cells] at member
      obtain ⟨c, inside, part⟩ := mem_flatMap.mp member
      exact utf8EncodeChar_ne_zero (fun nul => noNul (nul ▸ inside)) byte part
    exact gUtf8ToUtf16_wellFormed text error' chars ((input_whole length nonzero).trans cells)

/-- An encoded surrogate with its length. -/
def encodedSurrogate : Text UInt8 :=
  { cells := [0xED, 0xA0, 0x80], len := 3, inside := by decide }

/-- An encoded surrogate is accepted, although it is no well-formed text. -/
theorem gUtf8ToUtf16_acceptsSurrogate :
    gUtf8ToUtf16 encodedSurrogate true
        = .ok { allocated := 2, stored := [0xD800, 0], itemsRead := 3, itemsWritten := 1 }
      ∧ ¬ WellFormed encodedSurrogate.input
      ∧ ¬ ∀ text : Text UInt8, ConvertsWellFormed text := by
  have accepted : gUtf8ToUtf16 encodedSurrogate true
      = .ok { allocated := 2, stored := [0xD800, 0], itemsRead := 3, itemsWritten := 1 } := rfl
  have malformed : ¬ WellFormed encodedSurrogate.input := by
    rintro ⟨chars, same⟩
    have clean := (cut_chars chars encodedSurrogate.input.length
      (Nat.le_of_eq (congrArg List.length same.symm))).2
    rw [← same] at clean
    have first : Piece.whole 0xD800 0xED [0xA0, 0x80]
        ∈ cut encodedSurrogate.input.length encodedSurrogate.input := by decide
    exact (clean _ first).2 (Or.inr (Or.inl ⟨rfl, Or.inr ⟨by decide, by decide⟩⟩))
  refine ⟨accepted, malformed, ?_⟩
  intro all
  exact malformed ((all encodedSurrogate).1.mp ⟨_, accepted⟩)

end MonoRuntime.Utf8
