/-
Module: MonoRuntime.Proofs.Utf8
Purpose: The two passes of the UTF-8 and UTF-16 conversions over the pieces of their input, and when their lengths agree.
Trusted boundary: none
Main exports: conversions_fillTheirBuffers
-/
import MonoRuntime.Eglib.Utf8

namespace MonoRuntime.Utf8

open List

/-! ### Facts about single bytes, checked over all of them -/

theorem forall_bytes {P : UInt8 → Prop} (h : ∀ n < 256, P (UInt8.ofNat n)) (ch : UInt8) : P ch := by
  have found := h ch.toNat ch.toNat_lt
  rw [UInt8.ofNat_toNat] at found
  exact found

variable (ch : UInt8)

set_option maxRecDepth 8000 in
theorem leadByte_eq : leadByte ch
      = if ch.toNat < 0xC0 then none
        else if ch.toNat < 0xE0 then some (ch.toNat - 0xC0, 2)
        else if ch.toNat < 0xF0 then some (ch.toNat - 0xE0, 3)
        else if ch.toNat < 0xF8 then some (ch.toNat - 0xF0, 4)
        else if ch.toNat < 0xFC then some (ch.toNat - 0xF8, 5)
        else if ch.toNat < 0xFE then some (ch.toNat - 0xFC, 6)
        else none := by
  revert ch
  apply forall_bytes
  decide

set_option maxRecDepth 8000 in
theorem continues_iff : continues ch = true ↔ 0x80 ≤ ch.toNat ∧ ch.toNat < 0xC0 := by
  revert ch
  apply forall_bytes
  decide

set_option maxRecDepth 8000 in
theorem payload_eq : (ch &&& 0x3F).toNat = ch.toNat % 64 := by
  revert ch
  apply forall_bytes
  decide

theorem lt_0x80_iff : ch < 0x80 ↔ ch.toNat < 128 :=
  UInt8.lt_iff_toNat_lt

/-- A following byte adds six bits, as long as the value stays within 32 bits. -/
theorem accumulate_eq {codepoint : Nat} (ch : UInt8) (small : codepoint * 64 + 63 < 2 ^ 32) :
    accumulate codepoint ch = codepoint * 64 + ch.toNat % 64 := by
  have bits : (ch &&& 0x3F).toNat < 2 ^ 6 := by
    rw [payload_eq]
    exact Nat.mod_lt _ (by decide)
  unfold accumulate
  rw [← Nat.shiftLeft_add_eq_or_of_lt bits, Nat.shiftLeft_eq, payload_eq]
  apply Nat.mod_eq_of_lt
  omega

set_option maxRecDepth 8000 in
theorem leadByte_bounds {ch : UInt8} {payload mbSize : Nat} (found : leadByte ch = some (payload, mbSize)) :
    2 ≤ mbSize ∧ mbSize ≤ 6 ∧ (payload + 1) * 64 ^ (mbSize - 1) ≤ 2 ^ 31 := by
  have all : (leadByte ch).all (fun found => decide (2 ≤ found.2 ∧ found.2 ≤ 6
      ∧ (found.1 + 1) * 64 ^ (found.2 - 1) ≤ 2 ^ 31)) = true := by
    clear found
    revert ch
    apply forall_bytes
    decide
  rw [found] at all
  exact of_decide_eq_true all

/-! ### The pieces -/

/-- What holds of the pieces of a cut: a single byte is below 0x80, a stray byte starts nothing, and
a sequence starts with a byte that announces its length. -/
def Piece.Formed : Piece → Prop
  | .single byte => byte < 0x80
  | .stray byte => ¬ byte < 0x80 ∧ leadByte byte = none
  | .whole codepoint lead tail =>
      ¬ lead < 0x80 ∧ ∃ payload, leadByte lead = some (payload, tail.length + 1)
        ∧ (∀ ch ∈ tail, continues ch = true) ∧ codepoint = tail.foldl accumulate payload
  | .broken lead tail byte =>
      ¬ lead < 0x80 ∧ ∃ payload mbSize, leadByte lead = some (payload, mbSize)
        ∧ (∀ ch ∈ tail, continues ch = true) ∧ tail.length + 1 < mbSize ∧ continues byte = false
  | .cutOff lead tail =>
      ¬ lead < 0x80 ∧ ∃ payload mbSize, leadByte lead = some (payload, mbSize)
        ∧ (∀ ch ∈ tail, continues ch = true) ∧ tail.length + 1 < mbSize

/-- A list of pieces of which only the last one can be cut off. -/
inductive WellCut : List Piece → Prop
  | nil : WellCut []
  | cutOff (lead : UInt8) (tail : List UInt8) : (Piece.cutOff lead tail).Formed →
      WellCut [.cutOff lead tail]
  | cons (piece : Piece) (pieces : List Piece) : piece.Formed →
      (∀ lead tail, piece ≠ .cutOff lead tail) → WellCut pieces → WellCut (piece :: pieces)

theorem takeWhile_stops (mbSize : Nat) (rest : List UInt8)
    (short : ((rest.take (mbSize - 1)).takeWhile continues).length ≠ mbSize - 1) :
    ((rest.take (mbSize - 1)).takeWhile continues).length < mbSize - 1
      ∧ ∀ byte rest', rest.drop ((rest.take (mbSize - 1)).takeWhile continues).length = byte :: rest' →
          continues byte = false := by
  generalize mbSize - 1 = n at short ⊢
  induction rest generalizing n with
  | nil =>
    simp only [take_nil, takeWhile_nil, length_nil] at short ⊢
    refine ⟨by omega, ?_⟩
    intro byte rest' none
    cases none
  | cons ch rest ih =>
    cases n with
    | zero => exact absurd rfl short
    | succ n =>
      rw [take_succ_cons] at short ⊢
      cases follows : continues ch with
      | true =>
        rw [takeWhile_cons_of_pos follows, length_cons] at short ⊢
        obtain ⟨less, stops⟩ := ih n (by omega)
        exact ⟨by omega, stops⟩
      | false =>
        rw [takeWhile_cons_of_neg (by rw [follows]; decide)]
        refine ⟨Nat.succ_pos n, ?_⟩
        intro byte rest' split
        cases split
        exact follows

theorem tail_split (n : Nat) (rest : List UInt8) : rest = (rest.take n).takeWhile continues
      ++ rest.drop ((rest.take n).takeWhile continues).length := by
  have front : (rest.take n).takeWhile continues <+: rest :=
    ( takeWhile_prefix _).trans ( take_prefix n rest)
  obtain ⟨back, joined⟩ := front
  generalize (rest.take n).takeWhile continues = tail at joined ⊢
  subst joined
  rw [drop_left]

theorem cut_wellCut (fuel : Nat) (str : List UInt8) (enough : str.length ≤ fuel) :
    WellCut (cut fuel str) ∧ (cut fuel str).flatMap Piece.bytes = str := by
  induction fuel generalizing str with
  | zero =>
    rw [eq_nil_of_length_eq_zero (Nat.le_zero.mp enough)]
    exact ⟨WellCut.nil, rfl⟩
  | succ fuel ih =>
    cases str with
    | nil => exact ⟨WellCut.nil, rfl⟩
    | cons ch rest =>
      rw [length_cons] at enough
      unfold cut
      by_cases ascii : ch < 0x80
      · rw [if_pos ascii]
        obtain ⟨formed, joined⟩ := ih rest (by omega)
        refine ⟨WellCut.cons (Piece.single ch) _ ascii (by intro _ _ same; cases same) formed, ?_⟩
        rw [flatMap_cons, joined]
        rfl
      · rw [if_neg ascii]
        cases found : leadByte ch with
        | none =>
          obtain ⟨formed, joined⟩ := ih rest (by omega)
          refine ⟨WellCut.cons (Piece.stray ch) _ ⟨ascii, found⟩ (by intro _ _ same; cases same)
            formed, ?_⟩
          rw [flatMap_cons, joined]
          rfl
        | some announced =>
          obtain ⟨payload, mbSize⟩ := announced
          have bounds := leadByte_bounds found
          have split := tail_split (mbSize - 1) rest
          have follow : ∀ byte ∈ (rest.take (mbSize - 1)).takeWhile continues,
              continues byte = true := by
            intro byte member
            exact all_eq_true.mp all_takeWhile byte member
          have stops := takeWhile_stops mbSize rest
          simp only
          generalize (rest.take (mbSize - 1)).takeWhile continues = tail at split follow stops ⊢
          have total := congrArg List.length split
          rw [length_append] at total
          split
          next complete =>
            obtain ⟨formed, joined⟩ := ih (rest.drop tail.length) (by omega)
            have size : mbSize = tail.length + 1 := by omega
            rw [size] at found
            refine ⟨WellCut.cons _ _ ⟨ascii, payload, found, follow, rfl⟩
              (by intro _ _ same; cases same) formed, ?_⟩
            rw [flatMap_cons, joined, Piece.bytes, cons_append, ← split]
          next short =>
            obtain ⟨less, stop⟩ := stops short
            split
            next ended =>
              rw [ended, append_nil] at split
              refine ⟨WellCut.cutOff _ _ ⟨ascii, payload, mbSize, found, follow, by omega⟩, ?_⟩
              rw [flatMap_cons, flatMap_nil, append_nil, Piece.bytes, ← split]
            next byte rest' interrupted =>
              rw [interrupted, length_cons] at total
              obtain ⟨formed, joined⟩ := ih rest' (by omega)
              refine ⟨WellCut.cons _ _ ⟨ascii, payload, mbSize, found, follow, by omega,
                stop byte rest' interrupted⟩ (by intro _ _ same; cases same) formed, ?_⟩
              rw [flatMap_cons, joined, Piece.bytes, cons_append, cons_append,
                append_assoc, singleton_append, ← interrupted, ← split]

/-! ### One piece in each pass -/

/-- The units that the counting pass adds for a piece that it does not refuse. -/
def Piece.counted : Piece → Nat
  | .single _ => 1
  | .whole codepoint _ tail =>
      if codepoint < 0x10000 then (if overlong (tail.length + 1) codepoint then 0 else 1)
      else if codepoint < 0x110000 then 2
      else 0
  | _ => 0

/-- The units that the converting pass stores for a piece. -/
def Piece.written : Piece → List UInt16
  | .single byte => [byte.toUInt16]
  | .whole codepoint _ _ => (convertCharacter codepoint).2
  | _ => []

variable (error : Bool)

theorem countLoop_tail {tail : List UInt8} (codepoint mbSize mbRemain position ret : Nat) (rest : List UInt8)
    (started : mbSize ≠ 0) (follow : ∀ ch ∈ tail, continues ch = true) (inside : tail.length < mbRemain) :
    countLoop error ⟨codepoint, mbSize, mbRemain⟩ position ret (tail ++ rest)
      = countLoop error ⟨tail.foldl accumulate codepoint, mbSize, mbRemain - tail.length⟩
          (position + tail.length) ret rest := by
  induction tail generalizing codepoint mbRemain position with
  | nil => rfl
  | cons ch tail ih =>
    rw [length_cons] at inside
    have step : countByte error ⟨codepoint, mbSize, mbRemain⟩ ch
        = .ok (⟨accumulate codepoint ch, mbSize, mbRemain - 1⟩, 0) := by
      unfold countByte
      rw [if_neg started, if_pos (follow ch (mem_cons_self ..))]
      exact if_neg (by show ¬ mbRemain - 1 = 0; omega)
    rw [cons_append, countLoop, step]
    simp only [Nat.add_zero, foldl_cons, length_cons]
    rw [ih (accumulate codepoint ch) (mbRemain - 1) (position + 1)
      (fun other member => follow other (mem_cons_of_mem _ member)) (by omega)]
    congr 1
    · congr 1
      omega
    · omega

theorem convertLoop_tail {tail : List UInt8} (codepoint mbSize mbRemain : Nat) (rest : List UInt8)
    (started : mbSize ≠ 0) (follow : ∀ ch ∈ tail, continues ch = true) (inside : tail.length < mbRemain) :
    convertLoop ⟨codepoint, mbSize, mbRemain⟩ (tail ++ rest)
      = convertLoop ⟨tail.foldl accumulate codepoint, mbSize, mbRemain - tail.length⟩ rest := by
  induction tail generalizing codepoint mbRemain with
  | nil => rfl
  | cons ch tail ih =>
    rw [length_cons] at inside
    have step : convertByte ⟨codepoint, mbSize, mbRemain⟩ ch
        = (⟨accumulate codepoint ch, mbSize, mbRemain - 1⟩, []) := by
      unfold convertByte
      rw [if_neg started, if_pos (follow ch (mem_cons_self ..))]
      exact if_neg (by show ¬ mbRemain - 1 = 0; omega)
    rw [cons_append, convertLoop, step]
    simp only [nil_append, foldl_cons, length_cons]
    rw [ih (accumulate codepoint ch) (mbRemain - 1)
      (fun other member => follow other (mem_cons_of_mem _ member)) (by omega)]
    congr 2
    omega

theorem tail_last {tail : List UInt8} (nonempty : tail.length ≠ 0) : ∃ before last, tail = before ++ [last] := by
  rcases eq_nil_or_concat tail with nothing | ⟨before, last, concat⟩
  · rw [nothing] at nonempty
    exact absurd rfl nonempty
  · exact ⟨before, last, by rw [concat, concat_eq_append]⟩

theorem countLoop_whole {tail : List UInt8} (codepoint position ret : Nat) (rest : List UInt8)
    (nonempty : tail.length ≠ 0) (follow : ∀ ch ∈ tail, continues ch = true) :
    countLoop error ⟨codepoint, tail.length + 1, tail.length⟩ position ret (tail ++ rest)
      = match countCharacter error (tail.length + 1) (tail.foldl accumulate codepoint) with
        | .error reason => .error { error := reason, position := position + tail.length - 1 }
        | .ok (s, n) => countLoop error s (position + tail.length) (ret + n) rest := by
  obtain ⟨before, last, rfl⟩ := tail_last nonempty
  have length : (before ++ [last]).length = before.length + 1 := by
    rw [length_append, length_singleton]
  rw [length, append_assoc, countLoop_tail error _ _ _ _ _ _ (Nat.succ_ne_zero _)
    (fun ch member => follow ch (mem_append_left _ member)) (Nat.lt_succ_self _)]
  have step (cp : Nat) : countByte error ⟨cp, before.length + 1 + 1, before.length + 1 - before.length⟩
      last = countCharacter error (before.length + 1 + 1) (accumulate cp last) := by
    unfold countByte
    rw [if_neg (Nat.succ_ne_zero _),
      if_pos (follow last (mem_append_right _ (mem_singleton_self last)))]
    exact if_pos (by show before.length + 1 - before.length - 1 = 0; omega)
  rw [singleton_append, countLoop, step, foldl_append]
  rfl

theorem convertLoop_whole {tail : List UInt8} (codepoint : Nat) (rest : List UInt8) (nonempty : tail.length ≠ 0)
    (follow : ∀ ch ∈ tail, continues ch = true) : convertLoop ⟨codepoint, tail.length + 1, tail.length⟩ (tail ++ rest)
      = (convertCharacter (tail.foldl accumulate codepoint)).2
        ++ convertLoop (convertCharacter (tail.foldl accumulate codepoint)).1 rest := by
  obtain ⟨before, last, rfl⟩ := tail_last nonempty
  have length : (before ++ [last]).length = before.length + 1 := by
    rw [length_append, length_singleton]
  rw [length, append_assoc, convertLoop_tail _ _ _ _ (Nat.succ_ne_zero _)
    (fun ch member => follow ch (mem_append_left _ member)) (Nat.lt_succ_self _)]
  have step (cp : Nat) : convertByte ⟨cp, before.length + 1 + 1, before.length + 1 - before.length⟩
      last = convertCharacter (accumulate cp last) := by
    unfold convertByte
    rw [if_neg (Nat.succ_ne_zero _),
      if_pos (follow last (mem_append_right _ (mem_singleton_self last)))]
    exact if_pos (by show before.length + 1 - before.length - 1 = 0; omega)
  rw [singleton_append, convertLoop, step, foldl_append]
  rfl

variable {piece : Piece} {s : Decoding} {lead : UInt8}

theorem countByte_lead {payload mbSize : Nat} (idle : s.mbSize = 0) (high : ¬ lead < 0x80)
    (found : leadByte lead = some (payload, mbSize)) :
    countByte error s lead = .ok (⟨payload, mbSize, mbSize - 1⟩, 0) := by
  unfold countByte
  rw [if_pos idle, if_neg high, found]

theorem convertByte_lead {payload mbSize : Nat} (idle : s.mbSize = 0) (high : ¬ lead < 0x80)
    (found : leadByte lead = some (payload, mbSize)) : convertByte s lead = (⟨payload, mbSize, mbSize - 1⟩, []) := by
  unfold convertByte
  rw [if_pos idle, if_neg high, found]

theorem countByte_breaks {ch : UInt8} (started : s.mbSize ≠ 0) (stop : continues ch = false) :
    countByte error s ch = invalid error .illegalFollowingBytes := by
  unfold countByte
  rw [if_neg started, if_neg (by rw [stop]; decide)]

theorem convertByte_breaks {ch : UInt8} (started : s.mbSize ≠ 0) (stop : continues ch = false) :
    convertByte s ch = (Decoding.reset, []) := by
  unfold convertByte
  rw [if_neg started, if_neg (by rw [stop]; decide)]

variable (codepoint : Nat)

theorem convertCharacter_idle : (convertCharacter codepoint).1.mbSize = 0 := by
  unfold convertCharacter
  split
  · rfl
  · split
    · rfl
    · rfl

theorem convertLoop_piece (rest : List UInt8) (formed : piece.Formed) (idle : s.mbSize = 0)
    (inside : ∀ lead tail, piece ≠ .cutOff lead tail) : ∃ s', s'.mbSize = 0
      ∧ convertLoop s (piece.bytes ++ rest) = piece.written ++ convertLoop s' rest := by
  cases piece with
  | single byte =>
    refine ⟨s, idle, ?_⟩
    have step : convertByte s byte = (s, [byte.toUInt16]) := by
      unfold convertByte
      rw [if_pos idle]
      exact if_pos formed
    rw [Piece.bytes, singleton_append, convertLoop, step]
    rfl
  | stray byte =>
    refine ⟨Decoding.reset, rfl, ?_⟩
    have step : convertByte s byte = (Decoding.reset, []) := by
      unfold convertByte
      rw [if_pos idle, if_neg formed.1, formed.2]
    rw [Piece.bytes, singleton_append, convertLoop, step]
    rfl
  | whole codepoint lead tail =>
    obtain ⟨high, payload, found, follow, same⟩ := formed
    refine ⟨_, convertCharacter_idle codepoint, ?_⟩
    have nonempty : tail.length ≠ 0 := by
      have := leadByte_bounds found
      omega
    rw [Piece.bytes, cons_append, convertLoop, convertByte_lead idle high found,
      nil_append, same]
    exact convertLoop_whole payload rest nonempty follow
  | broken lead tail byte =>
    obtain ⟨high, payload, mbSize, found, follow, short, stop⟩ := formed
    have started : mbSize ≠ 0 := by omega
    refine ⟨Decoding.reset, rfl, ?_⟩
    rw [Piece.bytes, append_assoc, cons_append, convertLoop,
      convertByte_lead idle high found, nil_append]
    rw [convertLoop_tail _ _ _ _ started follow (by omega), singleton_append, convertLoop,
      convertByte_breaks started stop]
    rfl
  | cutOff lead tail => exact absurd rfl (inside lead tail)

variable (position ret : Nat)

theorem countLoop_piece (rest : List UInt8) (formed : piece.Formed) (idle : s.mbSize = 0)
    (inside : ∀ lead tail, piece ≠ .cutOff lead tail) (passes : error = false ∨ ¬ piece.Refused) :
    ∃ s' position', s'.mbSize = 0 ∧ countLoop error s position ret (piece.bytes ++ rest)
        = countLoop error s' position' (ret + piece.counted) rest := by
  cases piece with
  | single byte =>
    refine ⟨s, position + 1, idle, ?_⟩
    have step : countByte error s byte = .ok (s, 1) := by
      unfold countByte
      rw [if_pos idle]
      exact if_pos formed
    rw [Piece.bytes, singleton_append, countLoop, step]
    rfl
  | stray byte =>
    have quiet : error = false := passes.resolve_right (fun passed => passed trivial)
    refine ⟨Decoding.reset, position + 1, rfl, ?_⟩
    have step : countByte error s byte = .ok (Decoding.reset, 0) := by
      unfold countByte
      rw [if_pos idle, if_neg formed.1, formed.2, quiet]
      rfl
    rw [Piece.bytes, singleton_append, countLoop, step]
    rfl
  | whole codepoint lead tail =>
    obtain ⟨high, payload, found, follow, same⟩ := formed
    have nonempty : tail.length ≠ 0 := by
      have := leadByte_bounds found
      omega
    have finish : ∃ s', s'.mbSize = 0 ∧ countCharacter error (tail.length + 1) codepoint
        = .ok (s', (Piece.whole codepoint lead tail).counted) := by
      unfold countCharacter
      simp only [Piece.counted]
      simp only [Piece.Refused] at passes
      by_cases small : codepoint < 0x10000
      · rw [if_pos small, if_pos small]
        cases low : overlong (tail.length + 1) codepoint with
        | true =>
          have quiet : error = false :=
            passes.resolve_right (fun passed => passed (Or.inl ⟨small, low⟩))
          rw [if_pos rfl, if_pos rfl, quiet]
          exact ⟨_, rfl, rfl⟩
        | false => exact ⟨_, rfl, rfl⟩
      · rw [if_neg small, if_neg small]
        by_cases below : codepoint < 0x110000
        · rw [if_pos below, if_pos below]
          exact ⟨_, rfl, rfl⟩
        · have quiet : error = false :=
            passes.resolve_right (fun passed => passed (Or.inr (Nat.le_of_not_lt below)))
          rw [if_neg below, if_neg below, quiet]
          exact ⟨_, rfl, rfl⟩
    obtain ⟨s', idle', finished⟩ := finish
    refine ⟨s', position + 1 + tail.length, idle', ?_⟩
    rw [Piece.bytes, cons_append, countLoop, countByte_lead error idle high found]
    simp only [Nat.add_zero, Nat.add_sub_cancel]
    rw [countLoop_whole error _ _ _ _ nonempty follow, ← same, finished]
  | broken lead tail byte =>
    obtain ⟨high, payload, mbSize, found, follow, short, stop⟩ := formed
    have quiet : error = false := passes.resolve_right (fun passed => passed trivial)
    have started : mbSize ≠ 0 := by omega
    refine ⟨Decoding.reset, position + 1 + tail.length + 1, rfl, ?_⟩
    rw [Piece.bytes, append_assoc, cons_append, countLoop,
      countByte_lead error idle high found]
    simp only [Nat.add_zero]
    rw [countLoop_tail error _ _ _ _ _ _ started follow (by omega), singleton_append,
      countLoop, countByte_breaks error started stop, quiet]
    rfl
  | cutOff lead tail => exact absurd rfl (inside lead tail)

theorem countLoop_refused (rest : List UInt8) (formed : piece.Formed) (idle : s.mbSize = 0)
    (refused : piece.Refused) : ∃ failure, countLoop true s position ret (piece.bytes ++ rest) = .error failure := by
  cases piece with
  | single byte => exact refused.elim
  | stray byte =>
    have step : countByte true s byte = .error .illegalFirstByte := by
      unfold countByte
      rw [if_pos idle, if_neg formed.1, formed.2]
      rfl
    rw [Piece.bytes, singleton_append, countLoop, step]
    exact ⟨_, rfl⟩
  | whole codepoint lead tail =>
    obtain ⟨high, payload, found, follow, same⟩ := formed
    have nonempty : tail.length ≠ 0 := by
      have := leadByte_bounds found
      omega
    have finish : ∃ reason, countCharacter true (tail.length + 1) codepoint = .error reason := by
      unfold countCharacter
      rcases refused with ⟨small, low⟩ | large
      · rw [if_pos small, if_pos low]
        exact ⟨_, rfl⟩
      · rw [if_neg (by omega), if_neg (by omega)]
        exact ⟨_, rfl⟩
    obtain ⟨reason, finished⟩ := finish
    rw [Piece.bytes, cons_append, countLoop, countByte_lead true idle high found]
    simp only [Nat.add_zero, Nat.add_sub_cancel]
    rw [countLoop_whole true _ _ _ _ nonempty follow, ← same, finished]
    exact ⟨_, rfl⟩
  | broken lead tail byte =>
    obtain ⟨high, payload, mbSize, found, follow, short, stop⟩ := formed
    have started : mbSize ≠ 0 := by omega
    rw [Piece.bytes, append_assoc, cons_append, countLoop,
      countByte_lead true idle high found]
    simp only [Nat.add_zero]
    rw [countLoop_tail true _ _ _ _ _ _ started follow (by omega), singleton_append,
      countLoop, countByte_breaks true started stop]
    exact ⟨_, rfl⟩
  | cutOff lead tail => exact refused.elim

/-! ### The passes over all pieces -/

theorem loops_cutOff {tail : List UInt8} {s : Decoding} (position ret : Nat)
    (formed : (Piece.cutOff lead tail).Formed) (idle : s.mbSize = 0) :
    countLoop error s position ret (lead :: tail) = .ok ret ∧ convertLoop s (lead :: tail) = [] := by
  obtain ⟨high, payload, mbSize, found, follow, short⟩ := formed
  have started : mbSize ≠ 0 := by omega
  have counted := countLoop_tail error payload mbSize (mbSize - 1) (position + 1) ret [] started
    follow (by omega)
  have converted := convertLoop_tail payload mbSize (mbSize - 1) [] started follow (by omega)
  rw [append_nil] at counted converted
  rw [countLoop, countByte_lead error idle high found, convertLoop, convertByte_lead idle high found]
  simp only [Nat.add_zero, nil_append]
  rw [counted, converted]
  exact ⟨rfl, rfl⟩

theorem convertLoop_pieces {pieces : List Piece} {s : Decoding} (cut : WellCut pieces) (idle : s.mbSize = 0) :
    convertLoop s (pieces.flatMap Piece.bytes) = pieces.flatMap Piece.written := by
  induction cut generalizing s with
  | nil => rfl
  | cutOff lead tail formed =>
    have nothing := (loops_cutOff false 0 0 formed idle).2
    rw [flatMap_cons, flatMap_nil, append_nil]
    exact nothing
  | cons piece pieces formed inside cut ih =>
    obtain ⟨s', idle', step⟩ := convertLoop_piece (pieces.flatMap Piece.bytes) formed idle inside
    rw [flatMap_cons, flatMap_cons, step, ih idle']

/-- The counting pass adds up what it counts for the pieces, when none of them is an error. -/
theorem countLoop_pieces {pieces : List Piece} {s : Decoding} (position ret : Nat) (cut : WellCut pieces)
    (idle : s.mbSize = 0) (passes : error = false ∨ ∀ piece ∈ pieces, ¬ piece.Refused) :
    countLoop error s position ret (pieces.flatMap Piece.bytes) = .ok (ret + (pieces.map Piece.counted).sum) := by
  induction cut generalizing s position ret with
  | nil => rfl
  | cutOff lead tail formed =>
    rw [flatMap_cons, flatMap_nil, append_nil]
    exact (loops_cutOff error position ret formed idle).1
  | cons piece pieces formed inside cut ih =>
    have here : error = false ∨ ¬ piece.Refused :=
      passes.imp_right (fun all => all piece (mem_cons_self ..))
    have later : error = false ∨ ∀ piece ∈ pieces, ¬ piece.Refused :=
      passes.imp_right (fun all other member => all other (mem_cons_of_mem _ member))
    obtain ⟨s', position', idle', step⟩ :=
      countLoop_piece error position ret (pieces.flatMap Piece.bytes) formed idle inside here
    rw [flatMap_cons, step, ih position' (ret + piece.counted) idle' later, map_cons,
      sum_cons, Nat.add_assoc]

/-- The counting pass fails when it is asked for errors and a piece is refused. -/
theorem countLoop_fails {pieces : List Piece} {s : Decoding} (position ret : Nat) (cut : WellCut pieces)
    (idle : s.mbSize = 0) (refused : ∃ piece ∈ pieces, piece.Refused) :
    ∃ failure, countLoop true s position ret (pieces.flatMap Piece.bytes) = .error failure := by
  induction cut generalizing s position ret with
  | nil =>
    obtain ⟨piece, member, -⟩ := refused
    cases member
  | cutOff lead tail formed =>
    obtain ⟨piece, member, refuses⟩ := refused
    rw [mem_singleton] at member
    subst member
    exact refuses.elim
  | cons piece pieces formed inside cut ih =>
    rw [flatMap_cons]
    by_cases here : piece.Refused
    · exact countLoop_refused position ret _ formed idle here
    · obtain ⟨s', position', idle', step⟩ :=
        countLoop_piece true position ret (pieces.flatMap Piece.bytes) formed idle inside
          (Or.inr here)
      obtain ⟨other, member, refuses⟩ := refused
      have later : ∃ piece ∈ pieces, piece.Refused := by
        rcases mem_cons.mp member with same | member
        · rw [same] at refuses
          exact absurd refuses here
        · exact ⟨other, member, refuses⟩
      rw [step]
      exact ih position' _ idle' later

/-! ### The common case in front -/

variable (str : List UInt8)

/-- The loop over the bytes below 0x80 in front does what the main loop does there. -/
theorem countLoop_common (idle : s.mbSize = 0) : countLoop error s position ret str
      = countLoop error s (position + (str.takeWhile (fun ch => ch < 0x80)).length)
          (ret + (str.takeWhile (fun ch => ch < 0x80)).length)
          (str.drop (str.takeWhile (fun ch => ch < 0x80)).length) := by
  induction str generalizing position ret with
  | nil => rfl
  | cons ch str ih =>
    by_cases ascii : ch < 0x80
    · have step : countByte error s ch = .ok (s, 1) := by
        unfold countByte
        rw [if_pos idle, if_pos ascii]
      rw [takeWhile_cons_of_pos (by simpa using ascii), length_cons, drop_succ_cons,
        countLoop, step]
      simp only
      rw [ih (position + 1) (ret + 1)]
      congr 1
      · omega
      · omega
    · rw [takeWhile_cons_of_neg (by simpa using ascii)]
      rfl

theorem convertLoop_common (idle : s.mbSize = 0) : convertLoop s str
      = (str.takeWhile (fun ch => ch < 0x80)).map UInt8.toUInt16
        ++ convertLoop s (str.drop (str.takeWhile (fun ch => ch < 0x80)).length) := by
  induction str with
  | nil => rfl
  | cons ch str ih =>
    by_cases ascii : ch < 0x80
    · have step : convertByte s ch = (s, [ch.toUInt16]) := by
        unfold convertByte
        rw [if_pos idle, if_pos ascii]
      rw [takeWhile_cons_of_pos (by simpa using ascii), length_cons, drop_succ_cons,
        convertLoop, step, ih]
      rfl
    · rw [takeWhile_cons_of_neg (by simpa using ascii)]
      rfl

theorem utf8ToUtf16Len_eq : utf8ToUtf16Len error str = countLoop error Decoding.reset 0 0 str := by
  rw [countLoop_common error 0 0 str rfl, Nat.zero_add]
  unfold utf8ToUtf16Len
  simp only
  split
  next all =>
    rw [all, drop_length]
    rfl
  next => rfl

theorem utf8Units_eq : utf8Units str = convertLoop Decoding.reset str :=
  (convertLoop_common str rfl).symm

theorem pieces_spec : WellCut (pieces str) ∧ (pieces str).flatMap Piece.bytes = str :=
  cut_wellCut str.length str (Nat.le_refl _)

theorem utf8Units_pieces : utf8Units str = (pieces str).flatMap Piece.written := by
  obtain ⟨cut, joined⟩ := pieces_spec str
  have converted := convertLoop_pieces (s := Decoding.reset) cut rfl
  rw [joined] at converted
  rw [utf8Units_eq, converted]

theorem utf8ToUtf16Len_pieces (passes : error = false ∨ ∀ piece ∈ pieces str, ¬ piece.Refused) :
    utf8ToUtf16Len error str = .ok ((pieces str).map Piece.counted).sum := by
  obtain ⟨cut, joined⟩ := pieces_spec str
  have counted := countLoop_pieces error (s := Decoding.reset) 0 0 cut rfl passes
  rw [joined, Nat.zero_add] at counted
  rw [utf8ToUtf16Len_eq, counted]

theorem utf8ToUtf16Len_fails (refused : ∃ piece ∈ pieces str, piece.Refused) :
    ∃ failure, utf8ToUtf16Len true str = .error failure := by
  obtain ⟨cut, joined⟩ := pieces_spec str
  have failed := countLoop_fails (s := Decoding.reset) 0 0 cut rfl refused
  rw [joined] at failed
  rw [utf8ToUtf16Len_eq]
  exact failed

/-! ### The lengths agree -/

/-- A piece is counted as it is written, except that an overlong one is not counted. -/
theorem counted_le_written (piece : Piece) : piece.counted ≤ piece.written.length ∧
      (piece.written.length = piece.counted ↔ ¬ piece.Overlong) := by
  cases piece with
  | single byte => exact ⟨Nat.le_refl 1, ⟨fun _ no => no, fun _ => rfl⟩⟩
  | stray byte => exact ⟨Nat.le_refl 0, ⟨fun _ no => no, fun _ => rfl⟩⟩
  | broken lead tail byte => exact ⟨Nat.le_refl 0, ⟨fun _ no => no, fun _ => rfl⟩⟩
  | cutOff lead tail => exact ⟨Nat.le_refl 0, ⟨fun _ no => no, fun _ => rfl⟩⟩
  | whole codepoint lead tail =>
    simp only [Piece.counted, Piece.written, Piece.Overlong, convertCharacter]
    by_cases small : codepoint < 0x10000
    · rw [if_pos small, if_pos small]
      cases low : overlong (tail.length + 1) codepoint with
      | true => simp [small]
      | false => simp
    · rw [if_neg small, if_neg small]
      by_cases below : codepoint < 0x110000
      · rw [if_pos below, if_pos below]
        simp [small]
      · rw [if_neg below, if_neg below]
        simp [small]

theorem written_eq_counted (pieces : List Piece) : (pieces.map Piece.counted).sum ≤ (pieces.flatMap Piece.written).length ∧
      ((pieces.flatMap Piece.written).length = (pieces.map Piece.counted).sum ↔ ∀ piece ∈ pieces, ¬ piece.Overlong) := by
  induction pieces with
  | nil => simp
  | cons piece pieces ih =>
    obtain ⟨less, equal⟩ := ih
    obtain ⟨less', equal'⟩ := counted_le_written piece
    rw [flatMap_cons, map_cons, sum_cons, length_append]
    refine ⟨by omega, ?_⟩
    rw [forall_mem_cons, ← equal, ← equal']
    omega

theorem Piece.Overlong.refused (low : piece.Overlong) : piece.Refused := by
  cases piece with
  | whole codepoint lead tail => exact Or.inl low
  | single byte | stray byte | broken lead tail byte | cutOff lead tail => exact low.elim

/-- What the two passes of `g_utf8_to_utf16` leave, by the pieces of the input. -/
theorem gUtf8ToUtf16_eq (text : Text UInt8) (error : Bool) (converted : Converted UInt16)
    (done : gUtf8ToUtf16 text error = .ok converted) : (error = false ∨ ∀ piece ∈ pieces text.input, ¬ piece.Refused)
      ∧ converted.allocated = 1 + ((pieces text.input).map Piece.counted).sum
      ∧ converted.stored = (pieces text.input).flatMap Piece.written ++ [0] := by
  have passes : error = false ∨ ∀ piece ∈ pieces text.input, ¬ piece.Refused := by
    cases error with
    | false => exact Or.inl rfl
    | true =>
      refine Or.inr ?_
      intro piece member refused
      obtain ⟨failure, failed⟩ := utf8ToUtf16Len_fails text.input ⟨piece, member, refused⟩
      rw [gUtf8ToUtf16, failed] at done
      cases done
  rw [gUtf8ToUtf16, utf8ToUtf16Len_pieces error text.input passes, utf8Units_pieces] at done
  cases done
  exact ⟨passes, rfl, rfl⟩

/-! ### From UTF-16 to UTF-8 -/

theorem codepointBytes_length : (codepointBytes codepoint).length
      = if codepoint < 0x80 then 1 else if codepoint < 0x0800 then 2
        else if codepoint < 0x10000 then 3 else 4 := by
  unfold codepointBytes
  split
  · rfl
  · split
    · rfl
    · split
      · rfl
      · rfl

/-- The pending high surrogate in the two passes. -/
def Pending (surrogate : Bool) (pending : Nat) : Prop :=
  (surrogate = true ∧ 0xD800 ≤ pending) ∨ (surrogate = false ∧ pending = 0)

theorem convertUnit_counted {error surrogate surrogate' : Bool} {pending n : Nat} {ch : UInt16}
    (same : Pending surrogate pending) (counted : countUnit error surrogate ch = .ok (surrogate', n)) :
    Pending surrogate' (convertUnit pending ch).1 ∧ (convertUnit pending ch).2.length = n := by
  unfold countUnit at counted
  unfold convertUnit
  rcases same with ⟨rfl, high⟩ | ⟨rfl, rfl⟩
  · rw [if_pos rfl] at counted
    rw [if_pos (by omega)]
    split at counted
    next low =>
      cases counted
      rw [if_pos low]
      refine ⟨Or.inr ⟨rfl, rfl⟩, ?_⟩
      rw [codepointBytes_length, if_neg (by omega), if_neg (by omega), if_neg (by omega)]
    next low =>
      rw [if_neg low]
      split at counted
      next => cases counted
      next =>
        cases counted
        exact ⟨Or.inr ⟨rfl, rfl⟩, rfl⟩
  · rw [if_neg Bool.false_ne_true] at counted
    rw [if_neg (by omega)]
    have range : ch.toNat < 2 ^ 16 := ch.toNat_lt
    simp only [UInt16.lt_iff_toNat_lt, UInt16.le_iff_toNat_le, UInt16.reduceToNat] at counted ⊢
    split at counted
    next ascii =>
      cases counted
      rw [if_pos ascii]
      exact ⟨Or.inr ⟨rfl, rfl⟩, rfl⟩
    next ascii =>
      rw [if_neg ascii]
      split at counted
      next two =>
        cases counted
        rw [if_neg (by omega), if_neg (by omega)]
        refine ⟨Or.inr ⟨rfl, rfl⟩, ?_⟩
        rw [codepointBytes_length, if_neg ascii, if_pos two]
      next two =>
        split at counted
        next high =>
          cases counted
          rw [if_pos high]
          exact ⟨Or.inl ⟨rfl, high.1⟩, rfl⟩
        next high =>
          rw [if_neg high]
          split at counted
          next low =>
            rw [if_pos low]
            split at counted
            next => cases counted
            next =>
              cases counted
              exact ⟨Or.inr ⟨rfl, rfl⟩, rfl⟩
          next low =>
            cases counted
            rw [if_neg low]
            refine ⟨Or.inr ⟨rfl, rfl⟩, ?_⟩
            rw [codepointBytes_length, if_neg ascii, if_neg two, if_pos (by omega)]

theorem convertUnits_counted {error surrogate : Bool} {pending position ret total : Nat} {units : List UInt16}
    (same : Pending surrogate pending) (counted : countUnits error surrogate position ret units = .ok total) :
    ret + (convertUnits pending units).length = total := by
  induction units generalizing surrogate pending position ret with
  | nil =>
    cases counted
    rfl
  | cons ch units ih =>
    rw [countUnits] at counted
    cases step : countUnit error surrogate ch with
    | error reason =>
      rw [step] at counted
      cases counted
    | ok found =>
      obtain ⟨surrogate', n⟩ := found
      rw [step] at counted
      obtain ⟨same', length⟩ := convertUnit_counted same step
      have rest := ih same' counted
      rw [convertUnits, length_append, length]
      omega

/-- What a conversion stores fills its buffer: with an error argument always, and without one
exactly when no sequence of the input is overlong; in the other direction always. -/
theorem conversions_fillTheirBuffers (text : Text UInt8) (units : Text UInt16) (error : Bool) :
    ((∀ converted, gUtf8ToUtf16 text error = .ok converted →
          converted.stored.length = converted.allocated)
        ↔ (error = true ∨ ∀ piece ∈ pieces text.input, ¬ piece.Overlong))
      ∧ ∀ converted : Converted UInt8, gUtf16ToUtf8 units error = .ok converted →
          converted.stored.length = converted.allocated := by
  refine ⟨?_, ?_⟩
  · have equal := (written_eq_counted (pieces text.input)).2
    constructor
    · intro fills
      cases error with
      | true => exact Or.inl rfl
      | false =>
          refine Or.inr (equal.mp ?_)
          have counted := utf8ToUtf16Len_pieces false text.input (Or.inl rfl)
          have full := fills _ (by rw [gUtf8ToUtf16, counted])
          rw [length_append, length_singleton, utf8Units_pieces] at full
          simp only at full
          omega
    · intro condition converted done
      obtain ⟨passes, allocated, stored⟩ := gUtf8ToUtf16_eq text error converted done
      have clean : ∀ piece ∈ pieces text.input, ¬ piece.Overlong := by
        intro piece member low
        rcases condition with asked | none
        · rcases passes with quiet | none
          · rw [asked] at quiet
            cases quiet
          · exact none piece member low.refused
        · exact none piece member low
      rw [allocated, stored, length_append, length_singleton, equal.mpr clean, Nat.add_comm]
  · intro converted done
    rw [gUtf16ToUtf8] at done
    cases counted : countUnits error false 0 0 units.input with
    | error failure =>
        rw [counted] at done
        cases done
    | ok total =>
        rw [counted] at done
        cases done
        have length := convertUnits_counted (Or.inr ⟨rfl, rfl⟩) counted
        simp only [length_append, length_singleton]
        omega

/-- The sequence C0 80 with its length, passed without an error argument. -/
def overlongNul : Text UInt8 :=
  { cells := [0xC0, 0x80], len := 2, inside := by decide }

/-- The counting pass skips an overlong sequence, and the converting pass stores a unit for it: one
unit is allocated, and two are stored. -/
theorem gUtf8ToUtf16_overrunsItsBuffer :
    gUtf8ToUtf16 overlongNul false
        = .ok { allocated := 1, stored := [0, 0], itemsRead := 2, itemsWritten := 1 }
      ∧ ¬ ∀ (text : Text UInt8) (error : Bool) (converted : Converted UInt16),
        gUtf8ToUtf16 text error = .ok converted → converted.stored.length ≤ converted.allocated := by
  have overrun : gUtf8ToUtf16 overlongNul false
      = .ok { allocated := 1, stored := [0, 0], itemsRead := 2, itemsWritten := 1 } := rfl
  refine ⟨overrun, ?_⟩
  intro all
  exact absurd (all _ _ _ overrun) (by decide)

end MonoRuntime.Utf8
