/-
Module: MonoRuntime.Proofs.MonoPath
Purpose: The `..` that are pending from the right take away what the stack pops from the left, so that a path becomes its
  resolved components. Where none of them is left the result is the empty string.
Trusted boundary: none
Main exports: canonical_iff
-/
import MonoRuntime.Utils.MonoPath
import Mathlib.Data.List.Induction

namespace MonoRuntime.MonoPath

open List

variable {relative : List Char → List Char} {c rest dest : List Char} {comps : List (List Char)}

/-- Components with a separator in front of each. -/
def joined (comps : List (List Char)) : List Char :=
  comps.flatMap ('/' :: ·)

/-- The same, read from the end of a path. -/
def backward (comps : List (List Char)) : List Char :=
  comps.flatMap fun c => c.reverse ++ ['/']

theorem reverse_joined (comps : List (List Char)) : (joined comps).reverse = backward comps.reverse := by
  rw [joined, reverse_flatMap]
  exact congrArg (comps.reverse.flatMap ·) (funext fun c => reverse_cons)

theorem joined_eq (some_ : comps ≠ []) : joined comps = '/' :: ['/'].intercalate comps := by
  induction comps with
  | nil => exact absurd rfl some_
  | cons c comps ih =>
    cases comps with
    | nil => simp [joined]
    | cons d comps =>
      have others := ih (cons_ne_nil d comps)
      rw [intercalate_cons_cons, append_assoc, singleton_append, ← others]
      rfl

theorem not_mem_splitOn (member : c ∈ rest.splitOn '/') : '/' ∉ c := by
  induction rest generalizing c with
  | nil =>
    obtain rfl := mem_singleton.mp member
    exact not_mem_nil
  | cons d rest ih =>
    rw [splitOn_cons_eq_if_modifyHead] at member
    split at member
    next =>
      rcases mem_cons.mp member with rfl | member
      · exact not_mem_nil
      · exact ih member
    next other =>
      cases is : rest.splitOn '/' with
      | nil => exact absurd is (splitOn_ne_nil _ _)
      | cons first others =>
        rw [is] at member ih
        rcases mem_cons.mp member with rfl | member
        · rintro (_ | ⟨_, there⟩)
          · exact other rfl
          · exact ih mem_cons_self there
        · exact ih (mem_cons_of_mem first member)

/-! ### The loop -/

theorem loop_component (free : '/' ∉ c) (lastpos : List Char) (backc : Nat) : loop (c ++ '/' :: rest) lastpos dest backc =
      loop rest [] (component (lastpos ++ c) dest backc).1 (component (lastpos ++ c) dest backc).2 := by
  induction c generalizing lastpos with
  | nil =>
    rw [append_nil]
    exact if_pos rfl
  | cons d c ih =>
    obtain ⟨other, free⟩ := not_or.mp (mt mem_cons.mpr free)
    rw [cons_append, loop, if_neg (Ne.symm other), ih free, append_assoc, singleton_append]

theorem component_step (c : List Char) (kept : List (List Char)) (dest : List Char) (backc : Nat) :
    (component c.reverse dest backc).1 ++ backward (kept.drop (component c.reverse dest backc).2) =
      dest ++ backward ((step kept c).drop backc) := by
  by_cases nothing : c = [] ∨ c = ['.']
  · rw [step, if_pos nothing]
    rcases nothing with rfl | rfl <;> rfl
  · rw [step, if_neg nothing]
    obtain ⟨some_, dot⟩ := not_or.mp nothing
    by_cases dots : c = ['.', '.']
    · rw [if_pos dots, drop_tail, dots]
      rfl
    · rw [if_neg dots, component, if_neg (mt reverse_eq_iff.mp dot), if_neg (mt reverse_eq_iff.mp dots),
        if_pos (length_pos_iff.mpr (mt reverse_eq_nil_iff.mp some_))]
      cases backc with
      | zero => exact append_assoc dest _ _
      | succ backc => rfl

/-- The pending `..` take away the components that are kept last. -/
theorem loop_components (free : ∀ c ∈ comps, '/' ∉ c) (dest : List Char) (backc : Nat) :
    loop (backward comps.reverse) [] dest backc = dest ++ backward ((comps.foldl step []).drop backc) := by
  induction comps using List.reverseRec generalizing dest backc with
  | nil =>
    rw [foldl_nil, drop_nil]
    rfl
  | append_singleton comps c ih =>
    have others := ih fun d member => free d (mem_append_left _ member)
    have noSeparator : '/' ∉ c.reverse := fun there => free c mem_concat_self (mem_reverse.mp there)
    rw [reverse_concat, foldl_append, foldl_cons, foldl_nil, backward, flatMap_cons, append_assoc, singleton_append,
      loop_component noSeparator, nil_append]
    exact (others _ _).trans (component_step c _ dest backc)

theorem canonicalize_eq (rest : List Char) :
    monoPathCanonicalize relative ('/' :: rest) = joined (resolve (rest.splitOn '/')) := by
  have whole : joined (rest.splitOn '/') = '/' :: rest := by
    rw [joined_eq (splitOn_ne_nil _ _), intercalate_splitOn]
  have free : ∀ c ∈ rest.splitOn '/', '/' ∉ c := fun c => not_mem_splitOn
  have walked := loop_components free [] 0
  have result := reverse_joined (resolve (rest.splitOn '/'))
  rw [resolve, reverse_reverse] at result
  change (loop ('/' :: rest).reverse [] [] 0).reverse = _
  rw [← whole, reverse_joined, walked, drop_zero, nil_append, ← result, reverse_reverse]
  rfl

/-! ### Resolved components -/

theorem plain_of_mem (member : c ∈ comps.foldl step []) : c ∈ comps ∧ Plain c := by
  induction comps using List.reverseRec with
  | nil => cases member
  | append_singleton comps d ih =>
    rw [foldl_append, foldl_cons, foldl_nil, step] at member
    split at member
    next => exact (ih member).imp_left (mem_append_left _)
    next some_ =>
      split at member
      next => exact (ih (mem_of_mem_tail member)).imp_left (mem_append_left _)
      next dots =>
        rcases mem_cons.mp member with rfl | member
        · exact ⟨mem_concat_self, not_or.mp some_ |>.1, (not_or.mp some_).2, dots⟩
        · exact (ih member).imp_left (mem_append_left _)

theorem foldl_plain (plain : ∀ c ∈ comps, Plain c) (kept : List (List Char)) :
    comps.foldl step kept = comps.reverse ++ kept := by
  induction comps generalizing kept with
  | nil => rfl
  | cons c comps ih =>
    obtain ⟨some_, dot, dots⟩ := plain c mem_cons_self
    rw [foldl_cons, step, if_neg (not_or.mpr ⟨some_, dot⟩), if_neg dots, ih fun d member => plain d (mem_cons_of_mem c member),
      reverse_cons, append_assoc, singleton_append]

/-- A path is canonical afterwards exactly when not all its components cancel. -/
theorem canonical_iff (relative : List Char → List Char) (rest : List Char) :
    Canonical relative rest ↔ resolve (rest.splitOn '/') ≠ [] := by
  constructor
  · rintro ⟨rest', same, -⟩ none
    rw [canonicalize_eq, none] at same
    cases same
  · intro some_
    have kept : ∀ c ∈ resolve (rest.splitOn '/'), c ∈ rest.splitOn '/' ∧ Plain c :=
      fun c member => plain_of_mem (mem_reverse.mp member)
    have split := splitOn_intercalate '/' (fun c member => not_mem_splitOn (kept c member).1) some_
    have again : resolve (resolve (rest.splitOn '/')) = resolve (rest.splitOn '/') := by
      rw [resolve, foldl_plain fun c member => (kept c member).2, append_nil, reverse_reverse]
    refine ⟨_, (canonicalize_eq rest).trans (joined_eq some_), split, ?_, ?_⟩
    · rw [split]
      exact fun c member => (kept c member).2
    · rw [canonicalize_eq, split, again, joined_eq some_]

/-- Of the root nothing is left. -/
theorem canonicalize_root : monoPathCanonicalize id ['/'] = [] ∧ ¬ Canonical id [] := by
  refine ⟨rfl, ?_⟩
  rintro ⟨_, same, -⟩
  cases same

end MonoRuntime.MonoPath
