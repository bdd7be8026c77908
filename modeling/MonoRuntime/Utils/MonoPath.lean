/-
Module: MonoRuntime.Utils.MonoPath
Purpose: `mono_path_canonicalize` of `utils/mono-path.c` on a Unix build, and the resolution of the components of a path.
  A string is the list of its characters in front of the NUL; it has fewer than `2 ^ 31` of them, so that `len` and
  `backc` are natural numbers. What is between `dest` and `lastpos` in the buffer is not read any more.
Trusted boundary: human-reviewed translation of the source
Main exports: monoPathCanonicalize
-/
namespace MonoRuntime.MonoPath

/-- What the loop does with the component from `lastpos` on: the characters in front of `dest` and `backc` after it. -/
def component (lastpos dest : List Char) (backc : Nat) : List Char × Nat :=
  if lastpos = ['.'] then (dest, backc)
  else if lastpos = ['.', '.'] then (dest, backc + 1)
  else if 0 < lastpos.length then
    -- The separator is moved as well.
    if 0 < backc then (dest, backc - 1) else (dest ++ (lastpos ++ ['/']), backc)
  else (dest, backc)

/-- The loop over the reversed path; what it has passed since `lastpos` is kept beside the rest. Behind the last separator
everything is copied. -/
def loop : (rest lastpos dest : List Char) → (backc : Nat) → List Char
  | [], lastpos, dest, _ => dest ++ lastpos
  | c :: rest, lastpos, dest, backc =>
      if c = '/' then loop rest [] (component lastpos dest backc).1 (component lastpos dest backc).2
      else loop rest (lastpos ++ [c]) dest backc

/-- `mono_path_canonicalize`; `relative` is `g_build_filename` of the current directory and a path. -/
def monoPathCanonicalize (relative : List Char → List Char) (path : List Char) : List Char :=
  let abspath := if path.head? = some '/' then path else relative path
  (loop abspath.reverse [] [] 0).reverse

/-! ### What it is for -/

/-- One component of a path, taken from the left; the components that are kept have the last one in front. -/
def step (kept : List (List Char)) (c : List Char) : List (List Char) :=
  if c = [] ∨ c = ['.'] then kept else if c = ['.', '.'] then kept.tail else c :: kept

/-- The resolution of components with a stack. -/
def resolve (comps : List (List Char)) : List (List Char) :=
  (comps.foldl step []).reverse

/-- A component that stands for itself. -/
def Plain (c : List Char) : Prop :=
  c ≠ [] ∧ c ≠ ['.'] ∧ c ≠ ['.', '.']

/-- The result for the absolute path `'/' :: rest` is absolute and has the resolved components, which are plain, and a
second call leaves it as it is. -/
def Canonical (relative : List Char → List Char) (rest : List Char) : Prop :=
  ∃ rest', monoPathCanonicalize relative ('/' :: rest) = '/' :: rest' ∧
    rest'.splitOn '/' = resolve (rest.splitOn '/') ∧ (∀ c ∈ rest'.splitOn '/', Plain c) ∧
    monoPathCanonicalize relative ('/' :: rest') = '/' :: rest'

end MonoRuntime.MonoPath
