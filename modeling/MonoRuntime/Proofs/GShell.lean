/-
Module: MonoRuntime.Proofs.GShell
Purpose: What the two readers make of quoted strings: one keeps the backslash before a quote of the string, and the other
  ends a string at it. So they give back the strings without a quote, and no others.
Trusted boundary: none
Main exports: shellQuote_roundTrips_iff
-/
import MonoRuntime.Eglib.GShell
import Mathlib.Algebra.Order.BigOperators.Group.List

namespace MonoRuntime.GShell

open List

/-! ### Unquoting -/

/-- A quote of the string with the backslash that is written for it. -/
def kept (c : Gchar) : List Gchar :=
  if c = singleQuote then [backslash, c] else [c]

theorem unquoteLoop_open (p result : List Gchar) :
    unquoteLoop .outside (singleQuote :: p) result = unquoteLoop .single p result := by
  cases p <;> rfl

theorem unquoteLoop_quoted (s result : List Gchar) :
    unquoteLoop .single (s.flatMap quoted ++ [singleQuote]) result = .ok (result ++ s.flatMap kept) := by
  induction s generalizing result with
  | nil =>
    rw [flatMap_nil, flatMap_nil, append_nil]
    rfl
  | cons c s ih =>
    rw [flatMap_cons, flatMap_cons, append_assoc]
    by_cases isQuote : c = singleQuote
    · have escape : unquoteLoop .single (quoted c ++ (s.flatMap quoted ++ [singleQuote])) result =
          unquoteLoop .outside (singleQuote :: (s.flatMap quoted ++ [singleQuote])) (result ++ kept c) := by
        rw [quoted, kept, if_pos isQuote, if_pos isQuote, isQuote]
        rfl
      rw [escape, unquoteLoop_open, ih, append_assoc]
    · rw [quoted, kept, if_neg isQuote, if_neg isQuote, singleton_append, unquoteLoop, if_neg isQuote, ih, append_assoc]

theorem gShellUnquote_quote (s : List Gchar) : gShellUnquote (gShellQuote s) = .ok (s.flatMap kept) := by
  rw [gShellUnquote, gShellQuote, if_pos (by simp), unquoteLoop_open]
  exact unquoteLoop_quoted s []

theorem length_flatMap_kept (s : List Gchar) : (s.flatMap kept).length = s.length + s.count singleQuote := by
  induction s with
  | nil => rfl
  | cons c s ih =>
    rw [flatMap_cons, length_append, ih, length_cons, count_cons, kept]
    by_cases isQuote : c = singleQuote
    · simp [isQuote]
      omega
    · simp [isQuote]
      omega

/-! ### Splitting -/

/-- The strings that the reader of a command line makes of a quoted string, when it has read `str` before. -/
def piecesFrom (str : List Gchar) : List Gchar → List (List Gchar)
  | [] => [str]
  | c :: s => if c = singleQuote then str :: piecesFrom [c] s else piecesFrom (str ++ [c]) s

theorem length_piecesFrom (str s : List Gchar) : (piecesFrom str s).length = s.count singleQuote + 1 := by
  induction s generalizing str with
  | nil => rfl
  | cons c s ih =>
    rw [piecesFrom, count_cons]
    split
    next isQuote => simp [isQuote, ih]
    next other => simp [other, ih]

theorem piecesFrom_eq (str s : List Gchar) (clean : singleQuote ∉ s) : piecesFrom str s = [str ++ s] := by
  induction s generalizing str with
  | nil => rw [piecesFrom, append_nil]
  | cons c s ih =>
    rw [mem_cons, not_or] at clean
    rw [piecesFrom, if_neg (Ne.symm clean.1), ih _ clean.2, append_assoc, singleton_append]

theorem foldl_quoted (s str : List Gchar) (array : List (List Gchar)) :
    (s.flatMap quoted ++ [singleQuote]).foldl splitChar ⟨some singleQuote, false, str, array⟩ =
      ⟨none, false, [], array ++ piecesFrom str s⟩ := by
  induction s generalizing str array with
  | nil => rfl
  | cons c s ih =>
    rw [flatMap_cons, append_assoc, foldl_append, piecesFrom]
    by_cases isQuote : c = singleQuote
    · -- The quote ends a string, and is by itself the beginning of the next one.
      have escape : (quoted c).foldl splitChar ⟨some singleQuote, false, str, array⟩ =
          ⟨some singleQuote, false, [c], array ++ [str]⟩ := by
        rw [quoted, if_pos isQuote, isQuote]
        rfl
      rw [escape, ih, if_pos isQuote, append_assoc, singleton_append]
    · have plain : (quoted c).foldl splitChar ⟨some singleQuote, false, str, array⟩ =
          ⟨some singleQuote, false, str ++ [c], array⟩ := by
        rw [quoted, if_neg isQuote]
        exact if_neg isQuote
      rw [plain, ih, if_neg isQuote]

theorem foldl_quote (s : List Gchar) (array : List (List Gchar)) :
    (gShellQuote s).foldl splitChar ⟨none, false, [], array⟩ = ⟨none, false, [], array ++ piecesFrom [] s⟩ :=
  foldl_quoted s [] array

theorem foldl_words (words : List (List Gchar)) (array : List (List Gchar)) :
    ([space].intercalate (words.map gShellQuote)).foldl splitChar ⟨none, false, [], array⟩ =
      ⟨none, false, [], array ++ words.flatMap (piecesFrom [])⟩ := by
  induction words generalizing array with
  | nil =>
    rw [flatMap_nil, append_nil]
    rfl
  | cons s words ih =>
    cases words with
    | nil =>
      rw [map_singleton, intercalate_singleton, foldl_quote, flatMap_singleton]
    | cons s' words =>
      rw [map_cons, map_cons, intercalate_cons_cons, foldl_append, foldl_append, foldl_quote, flatMap_cons,
        ← append_assoc]
      exact ih _

theorem splitCmdline_quoted (words : List (List Gchar)) :
    splitCmdline ([space].intercalate (words.map gShellQuote)) = .ok (words.flatMap (piecesFrom [])) := by
  rw [splitCmdline, foldl_words, nil_append]
  rfl

theorem length_flatMap_piecesFrom (words : List (List Gchar)) :
    (words.flatMap (piecesFrom [])).length = words.length + words.flatten.count singleQuote := by
  induction words with
  | nil => rfl
  | cons s words ih =>
    rw [flatMap_cons, length_append, ih, length_piecesFrom, length_cons, flatten_cons, count_append]
    omega

theorem flatMap_piecesFrom_iff (words : List (List Gchar)) :
    words.flatMap (piecesFrom []) = words ↔ ∀ s ∈ words, singleQuote ∉ s := by
  constructor
  · intro same s member inside
    have lengths := congrArg length same
    rw [length_flatMap_piecesFrom] at lengths
    have none_ : singleQuote ∉ words.flatten := count_eq_zero.mp (by omega)
    exact none_ (mem_flatten.mpr ⟨s, member, inside⟩)
  · intro clean
    induction words with
    | nil => rfl
    | cons s words ih =>
      rw [forall_mem_cons] at clean
      rw [flatMap_cons, piecesFrom_eq [] s clean.1, ih clean.2]
      rfl

theorem flatMap_kept_iff (s : List Gchar) : s.flatMap kept = s ↔ singleQuote ∉ s := by
  constructor
  · intro same
    have lengths := congrArg length same
    rw [length_flatMap_kept] at lengths
    exact count_eq_zero.mp (by omega)
  · intro clean
    induction s with
    | nil => rfl
    | cons c s ih =>
      rw [mem_cons, not_or] at clean
      rw [flatMap_cons, ih clean.2, kept, if_neg (Ne.symm clean.1), singleton_append]

/-- A string is read back by both readers exactly if it has no single quote, a list of strings if none of them has one. -/
theorem shellQuote_roundTrips_iff (s : List Gchar) (words : List (List Gchar)) (some_ : words ≠ []) :
    (gShellUnquote (gShellQuote s) = .ok s ↔ singleQuote ∉ s) ∧
      (gShellParseArgv ([space].intercalate (words.map gShellQuote)) = .ok words ↔ ∀ s ∈ words, singleQuote ∉ s) := by
  have positive := length_pos_iff.mpr some_
  have lengths := length_flatMap_piecesFrom words
  constructor
  · rw [gShellUnquote_quote, Except.ok.injEq, flatMap_kept_iff]
  · rw [gShellParseArgv, splitCmdline_quoted, ← flatMap_piecesFrom_iff]
    change (if (words.flatMap (piecesFrom [])).length + 1 = 1 then Except.error none else Except.ok _) = _ ↔ _
    rw [if_neg (by omega), Except.ok.injEq]

/-- An empty string, and one with a space. -/
theorem shellQuote_roundTrips_plain :
    gShellUnquote (gShellQuote [97, 32, 98]) = .ok [97, 32, 98] ∧
      gShellParseArgv ([space].intercalate ([[], [97, 32, 98]].map gShellQuote)) = .ok [[], [97, 32, 98]] := by
  obtain ⟨one, all⟩ := shellQuote_roundTrips_iff [97, 32, 98] [[], [97, 32, 98]] (by decide)
  exact ⟨one.mpr (by decide), all.mpr (by simp [singleQuote])⟩

/-- `it's` comes back with a backslash, and as two strings. -/
theorem shellQuote_keepsBackslash :
    gShellUnquote (gShellQuote [105, 116, 39, 115]) = .ok [105, 116, 92, 39, 115] ∧
      gShellParseArgv (gShellQuote [105, 116, 39, 115]) = .ok [[105, 116], [39, 115]] ∧
      ¬ gShellUnquote (gShellQuote [105, 116, 39, 115]) = .ok [105, 116, 39, 115] := by
  decide

end MonoRuntime.GShell
