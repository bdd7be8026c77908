/-
Module: MonoRuntime.Proofs.GUri
Purpose: A file name comes back from its URI exactly where no digit above nine is written, which `decode` reads as ten
  less. A name that is read from a URI fits its buffer.
Trusted boundary: none
Main exports: filename_roundTrips_iff
-/
import MonoRuntime.Eglib.GUri
import Mathlib.Data.List.TakeWhile

namespace MonoRuntime.GUri

open List

variable {p result : List Gchar} {flen total size : Nat}

theorem decode_of_isxdigit (c : Gchar) (digit : isxdigit c = true) : ∃ d, decode c = .ok d := by
  simp only [isxdigit, Bool.or_eq_true, or_assoc] at digit
  unfold decode
  split
  · exact ⟨_, rfl⟩
  next small =>
  split
  · exact ⟨_, rfl⟩
  next upper =>
  exact ⟨_, if_pos ((digit.resolve_left small).resolve_left upper)⟩

theorem countLoop_plain {c : Gchar} (plain : c ≠ percent) : countLoop (c :: p) flen = countLoop p (flen + 1) := by
  rw [countLoop.eq_def]
  exact if_neg plain

theorem storeLoop_plain {c : Gchar} (plain : c ≠ percent) :
    storeLoop size (c :: p) result = store size result c >>= storeLoop size p := by
  rw [storeLoop.eq_def]
  exact if_neg plain

theorem le_of_count (counted : countLoop p flen = .ok total) : flen ≤ total := by
  fun_induction countLoop p flen with
  | case1 flen => exact Nat.le_of_eq (Except.ok.inj counted)
  | case2 flen d1 d2 p digits ih => exact Nat.le_of_succ_le (ih counted)
  | case3 => cases counted
  | case4 => cases counted
  | case5 c p flen plain ih => exact Nat.le_of_succ_le (ih counted)

theorem error_of_count {stop : Stop} (counted : countLoop p flen = .error stop) : ∃ message, stop = .error message := by
  fun_induction countLoop p flen with
  | case1 => cases counted
  | case2 flen d1 d2 p digits ih => exact ih counted
  | case3 => exact ⟨_, (Except.error.inj counted).symm⟩
  | case4 => exact ⟨_, (Except.error.inj counted).symm⟩
  | case5 c p flen plain ih => exact ih counted

theorem store_of_lt (c : Gchar) (room : result.length < size) : store size result c = .ok (result ++ [c]) :=
  if_pos room

/-- What was counted is stored, into a buffer that has room for it. -/
theorem storeLoop_of_count (counted : countLoop p flen = .ok total) (room : result.length + total ≤ size + flen) :
    ∃ out, storeLoop size p result = .ok out ∧ out.length + flen = result.length + total := by
  fun_induction countLoop p flen generalizing result with
  | case1 flen =>
    obtain rfl := Except.ok.inj counted
    exact ⟨result, rfl, rfl⟩
  | case2 flen d1 d2 p digits ih =>
    have more := le_of_count counted
    obtain ⟨digit1, digit2⟩ := Bool.and_eq_true_iff.mp digits
    obtain ⟨high, isHigh⟩ := decode_of_isxdigit d1 digit1
    obtain ⟨low, isLow⟩ := decode_of_isxdigit d2 digit2
    obtain ⟨out, stored, length⟩ := @ih (result ++ [(high <<< 4) ||| low]) counted (by simp; omega)
    refine ⟨out, ?_, by simp at length; omega⟩
    rw [storeLoop, if_pos rfl, isHigh, isLow]
    exact (congrArg (· >>= storeLoop size p) (store_of_lt _ (by omega))).trans stored
  | case3 => cases counted
  | case4 => cases counted
  | case5 c p flen plain ih =>
    have more := le_of_count counted
    obtain ⟨out, stored, length⟩ := @ih (result ++ [c]) counted (by simp; omega)
    refine ⟨out, ?_, by simp at length; omega⟩
    rw [storeLoop_plain plain]
    exact (congrArg (· >>= storeLoop size p) (store_of_lt c (by omega))).trans stored

/-- A digit as it is read back. -/
def misread (digit : Gchar) : Gchar :=
  if digit < 10 then digit else digit - 10

/-- A character of a name as it comes back. -/
def reread (c : Gchar) : Gchar :=
  if charNeedsEncoding c then (misread (c >>> 4) <<< 4) ||| misread (c &&& 15) else c

set_option maxRecDepth 4000 in
theorem reread_eq_iff : ∀ c, reread c = c ↔ (charNeedsEncoding c = true → c >>> 4 < 10 ∧ c &&& 15 < 10) := by
  decide

set_option maxRecDepth 4000 in
theorem hx_digit : ∀ d : Gchar, d < 16 →
    isxdigit (hx.getD d.toNat 0) = true ∧ decode (hx.getD d.toNat 0) = .ok (misread d) := by
  decide

theorem not_percent (c : Gchar) (free : charNeedsEncoding c = false) : c ≠ percent := by
  rintro rfl
  cases free

theorem high_lt (c : Gchar) : c >>> 4 < 16 ∧ c &&& 15 < 16 := by
  have high : (c >>> 4).toNat = c.toNat / 16 := by rw [BitVec.toNat_ushiftRight, Nat.shiftRight_eq_div_pow]
  have low : (c &&& 15).toNat = c.toNat % 16 := (BitVec.toNat_and c 15).trans (Nat.and_two_pow_sub_one_eq_mod _ 4)
  bv_omega

theorem countLoop_escaped (name : List Gchar) (flen : Nat) :
    countLoop (name.flatMap escaped) flen = .ok (flen + name.length) := by
  induction name generalizing flen with
  | nil => rfl
  | cons c name ih =>
    have next := ih (flen + 1)
    rw [Nat.add_assoc, Nat.add_comm 1, ← length_cons] at next
    rw [flatMap_cons, ← next, escaped]
    cases needs : charNeedsEncoding c with
    | true =>
      obtain ⟨high, low⟩ := high_lt c
      simp only [if_true, cons_append, nil_append]
      rw [countLoop, if_pos rfl, (hx_digit _ high).1, (hx_digit _ low).1]
      rfl
    | false =>
      simp only [Bool.false_eq_true, if_false, singleton_append]
      rw [countLoop_plain (not_percent c needs)]

theorem storeLoop_escaped (name : List Gchar) (room : result.length + name.length ≤ size) :
    storeLoop size (name.flatMap escaped) result = .ok (result ++ name.map reread) := by
  induction name generalizing result with
  | nil => rw [flatMap_nil, map_nil, append_nil, storeLoop]
  | cons c name ih =>
    rw [length_cons] at room
    have stored := @ih (result ++ [reread c]) (by simp; omega)
    rw [append_assoc, singleton_append] at stored
    have first : store size result (reread c) = .ok (result ++ [reread c]) := store_of_lt _ (by omega)
    have next := (congrArg (· >>= storeLoop size (name.flatMap escaped)) first).trans stored
    rw [flatMap_cons, map_cons, ← next, escaped]
    cases needs : charNeedsEncoding c with
    | true =>
      obtain ⟨high, low⟩ := high_lt c
      simp only [if_true, cons_append, nil_append]
      rw [storeLoop, if_pos rfl, (hx_digit _ high).2, (hx_digit _ low).2]
      simp [reread, needs]
      rfl
    | false =>
      simp only [Bool.false_eq_true, if_false, singleton_append]
      rw [storeLoop_plain (not_percent c needs)]
      simp [reread, needs]

/-- The bytes come back as a string where they come back at all. -/
theorem cString_eq_iff {name : List Gchar} (noNul : 0 ∉ name) :
    cString (slash :: name.map reread) = slash :: name ↔ name.map reread = name := by
  constructor
  · intro same
    have length : (cString (slash :: name.map reread)).length = (slash :: name.map reread).length := by
      rw [same, length_cons, length_cons, length_map]
    rw [cString, ( takeWhile_prefix _).eq_of_length length] at same
    exact (cons.inj same).2
  · intro same
    rw [same]
    exact takeWhile_eq_self_iff.mpr (by grind [slash])

/-- Which names come back, and that no URI is read past its buffer or up to an assertion. -/
theorem filename_roundTrips_iff (name : List Gchar) (noNul : 0 ∉ name) :
    ((gFilenameToUri (slash :: name) >>= gFilenameFromUri).map cString = .ok (slash :: name) ↔
      (∀ c ∈ name, charNeedsEncoding c = true → c >>> 4 < 10 ∧ c &&& 15 < 10) ∧ name.length + 2 ≤ intMax) ∧
    ∀ uri, gFilenameFromUri uri ≠ .error .notReached ∧ gFilenameFromUri uri ≠ .error .outside := by
  constructor
  · have uri : gFilenameToUri (slash :: name) = .ok ((uriPrefix ++ [slash]) ++ name.flatMap escaped) := rfl
    have behind : ((uriPrefix ++ [slash]) ++ name.flatMap escaped).drop 8 = name.flatMap escaped := rfl
    have back : (gFilenameToUri (slash :: name) >>= gFilenameFromUri) =
        if intMax < name.length + 2 then .error .overflow else .ok (slash :: name.map reread) := by
      change gFilenameFromUri ((uriPrefix ++ [slash]) ++ name.flatMap escaped) = _
      rw [gFilenameFromUri, if_pos ( isPrefixOf_iff_prefix.mpr (prefix_append _ _)), behind, countLoop_escaped]
      change (if intMax < 0 + name.length + 2 then _ else _) = _
      rw [storeLoop_escaped name (by simp; omega), Nat.zero_add]
      rfl
    rw [back]
    split_ifs with wide
    · exact iff_of_false nofun fun both => absurd both.2 (by omega)
    · rw [and_iff_left (by omega)]
      change Except.ok _ = Except.ok _ ↔ _
      rw [Except.ok.injEq, cString_eq_iff noNul]
      simp only [← reread_eq_iff]
      exact ⟨fun same c here => map_inj_left.mp (same.trans (map_id name).symm) c here,
        fun all => (map_congr_left all).trans (map_id name)⟩
  · intro uri
    unfold gFilenameFromUri
    split_ifs
    · cases counted : countLoop (uri.drop 8) 0 with
      | error stop =>
          obtain ⟨message, rfl⟩ := error_of_count counted
          exact ⟨nofun, nofun⟩
      | ok flen =>
          obtain ⟨out, stored, -⟩ := @storeLoop_of_count _ [slash] _ _ (flen + 2) counted (by simp; omega)
          change (if intMax < flen + 2 then _ else _) ≠ _ ∧ (if intMax < flen + 2 then _ else _) ≠ _
          rw [stored]
          split_ifs <;> exact ⟨nofun, nofun⟩
    · exact ⟨nofun, nofun⟩

/-- A space is written with digits up to nine. -/
theorem filename_roundTrips_space :
    (gFilenameToUri (slash :: [32]) >>= gFilenameFromUri).map cString = .ok (slash :: [32]) :=
  (filename_roundTrips_iff [32] (by decide)).1.mpr ⟨by decide, by decide⟩

/-- `/é` comes back as two other bytes. -/
theorem filename_misread :
    (gFilenameToUri (slash :: [195, 169]) >>= gFilenameFromUri).map cString = .ok (slash :: [35, 9]) := by
  decide

end MonoRuntime.GUri
