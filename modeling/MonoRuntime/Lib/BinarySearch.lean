/-
Module: MonoRuntime.Lib.BinarySearch
Purpose: `bsearch` of the C library with a comparison that may change a state and may fail: when the key is
  greater at every index before one, less at every index behind it, and equal there, the search ends at that
  index. And the search for the first index beyond a key: where the indices beyond it follow all the others,
  it ends between the two.
Trusted boundary: none
Main exports: bsearch
-/
import Mathlib.Order.Basic

namespace MonoRuntime

variable {σ : Type}

/-- Search the indices from `lo` up to `hi`; the comparison says where the key is, seen from an index. -/
def bsearchLoop (compar : σ → Nat → Option (Ordering × σ)) :
    (fuel : Nat) → (lo hi : Nat) → σ → Option (Option Nat × σ)
  | 0, _, _, _ => none
  | fuel + 1, lo, hi, s =>
      if lo < hi then
        match compar s ((lo + hi) / 2) with
        | none => none
        | some (.lt, s) => bsearchLoop compar fuel lo ((lo + hi) / 2) s
        | some (.gt, s) => bsearchLoop compar fuel ((lo + hi) / 2 + 1) hi s
        | some (.eq, s) => some (some ((lo + hi) / 2), s)
      else some (none, s)

/-- `bsearch` over `nmemb` elements. -/
def bsearch (compar : σ → Nat → Option (Ordering × σ)) (nmemb : Nat) (s : σ) : Option (Option Nat × σ) :=
  bsearchLoop compar (nmemb + 1) 0 nmemb s

/-- The comparison singles out one index: it leaves the state alone at the others. -/
structure SinglesOut (compar : σ → Nat → Option (Ordering × σ)) (nmemb target : Nat) (s s' : σ) : Prop where
  inside : target < nmemb
  before : ∀ i < target, compar s i = some (.gt, s)
  here : compar s target = some (.eq, s')
  behind : ∀ i < nmemb, target < i → compar s i = some (.lt, s)

/-- The index stays inside the bounds: the induction is on the fuel, of which there is more than the
bounds are apart. -/
theorem bsearchLoop_eq {compar : σ → Nat → Option (Ordering × σ)} {nmemb target : Nat} {s s' : σ}
    (single : SinglesOut compar nmemb target s s') : ∀ (fuel : Nat) {lo hi : Nat},
    lo ≤ target → target < hi → hi ≤ nmemb → hi - lo < fuel → bsearchLoop compar fuel lo hi s = some (some target, s')
  | 0, _, _, _, _, _, short => absurd short (Nat.not_lt_zero _)
  | fuel + 1, lo, hi, low, high, top, short => by
      rw [bsearchLoop, if_pos (Nat.lt_of_le_of_lt low high)]
      rcases Nat.lt_trichotomy ((lo + hi) / 2) target with before | same | behind
      · rw [single.before _ before]
        exact bsearchLoop_eq single fuel before high top (by omega)
      · rw [same, single.here]
      · rw [single.behind _ (by omega) behind]
        exact bsearchLoop_eq single fuel low behind (by omega) (by omega)

theorem bsearch_eq {compar : σ → Nat → Option (Ordering × σ)} {nmemb target : Nat} {s s' : σ}
    (single : SinglesOut compar nmemb target s s') : bsearch compar nmemb s = some (some target, s') :=
  bsearchLoop_eq single _ (Nat.zero_le _) single.inside (Nat.le_refl _) (by omega)

/-! ### The first index beyond a key -/

/-- Halve the window from `left` up to `right`, which `beyond` bounds on the right. -/
def firstBeyondLoop (beyond : Nat → Bool) : (fuel : Nat) → (left right : Nat) → Nat
  | 0, left, _ => left
  | fuel + 1, left, right =>
      if left < right then
        if beyond ((left + right) / 2) then firstBeyondLoop beyond fuel left ((left + right) / 2)
        else firstBeyondLoop beyond fuel ((left + right) / 2 + 1) right
      else left

/-- The first of `count` indices for which `beyond` holds, or `count`. -/
def firstBeyond (beyond : Nat → Bool) (count : Nat) : Nat :=
  firstBeyondLoop beyond count 0 count

/-- An index before the window is not beyond the key, one behind it is; the induction is on the fuel. -/
theorem firstBeyondLoop_spec {beyond : Nat → Bool} {count : Nat}
    (later : ∀ i j, i ≤ j → j < count → beyond i = true → beyond j = true) :
    ∀ (fuel : Nat) {left right : Nat}, left ≤ right → right ≤ count → right - left ≤ fuel →
      (∀ i < left, beyond i = false) → (∀ i, right ≤ i → i < count → beyond i = true) →
      firstBeyondLoop beyond fuel left right ≤ count ∧ (∀ i < firstBeyondLoop beyond fuel left right, beyond i = false) ∧
        (∀ i, firstBeyondLoop beyond fuel left right ≤ i → i < count → beyond i = true)
  | 0, left, right, order, top, short, before, behind => by
      have same : left = right := by omega
      exact ⟨by rw [firstBeyondLoop]; omega, before, fun i above => behind i (same ▸ above)⟩
  | fuel + 1, left, right, order, top, short, before, behind => by
      rw [firstBeyondLoop]
      split
      next room =>
          split
          next here =>
              apply firstBeyondLoop_spec later fuel (by omega) (by omega) (by omega) before
              intro i above inside
              exact later _ i above inside here
          next here =>
              apply firstBeyondLoop_spec later fuel (by omega) top (by omega) _ behind
              intro i below
              cases known : beyond i with
              | false => rfl
              | true => exact absurd (later i _ (by omega) (by omega) known) here
      next =>
          have same : left = right := by omega
          exact ⟨by omega, before, fun i above => behind i (same ▸ above)⟩

/-- The search separates the indices that are not beyond the key from those that are. -/
theorem firstBeyond_spec {beyond : Nat → Bool} {count : Nat}
    (later : ∀ i j, i ≤ j → j < count → beyond i = true → beyond j = true) :
    firstBeyond beyond count ≤ count ∧ (∀ i < firstBeyond beyond count, beyond i = false) ∧
      (∀ i, firstBeyond beyond count ≤ i → i < count → beyond i = true) :=
  firstBeyondLoop_spec later count (Nat.zero_le _) (Nat.le_refl _) (by omega)
    (fun _ below => absurd below (Nat.not_lt_zero _))
    (fun _ above inside => absurd inside (Nat.not_lt.mpr above))

end MonoRuntime
