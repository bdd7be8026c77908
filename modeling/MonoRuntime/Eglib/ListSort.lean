/-
Module: MonoRuntime.Eglib.ListSort
Purpose: The bottom-up merge sort of `eglib/src/sort.frag.h` that `g_list_sort` runs, on the data of the
  list nodes. `ranks` is the recursion stack of a merge sort: inserting a pair of nodes is like
  incrementing a binary counter whose digits are sorted lists.
Trusted boundary: human-reviewed translation of the source
Main exports: mergeLists
-/
import Mathlib.Tactic

namespace MonoRuntime.Eglib

open List Function

variable {α : Type}

/-- Merge the two lists, with `fuel` rounds of the loop; their lengths together are enough. -/
def mergeListsAux (func : α → α → Int) : Nat → List α → List α → List α
  | _, [], second => second
  | _, first, [] => first
  | 0, first, _ => first
  | fuel + 1, a :: first, b :: second =>
      if func a b > 0 then b :: mergeListsAux func fuel (a :: first) second
      else a :: mergeListsAux func fuel first (b :: second)

/-- Merge the two lists. -/
def mergeLists (func : α → α → Int) (first second : List α) : List α :=
  mergeListsAux func (first.length + second.length) first second

/-- `struct sort_info`; an empty list stands for `NULL`. -/
structure SortInfo (α : Type) where
  minRank : Nat
  nRanks : Nat
  ranks : Nat → List α

/-- `init_sort_info`. The source leaves `ranks` uninitialized and never looks past `nRanks`. -/
def SortInfo.init : SortInfo α :=
  { minRank := 0, nRanks := 0, ranks := fun _ => [] }

/-- Merge `list` with `count` ranks from `i` on. -/
def sweepUpLoop (func : α → α → Int) (ranks : Nat → List α) : (count i : Nat) → List α → List α
  | 0, _, list => list
  | count + 1, i, list => sweepUpLoop func ranks count (i + 1) (mergeLists func (ranks i) list)

/-- Merge all ranks below `upto` into one list. The ranks are cleared, and not read again in this sort:
`do_sort` only calls this at its end, since it inserts lists of rank 0. -/
def sweepUp (func : α → α → Int) (si : SortInfo α) (list : List α) (upto : Nat) : List α :=
  sweepUpLoop func si.ranks (upto - si.minRank) si.minRank list

/-- The carry of `insert_list`: merge with every occupied rank from `i` on. -/
def carryLoop (func : α → α → Int) (nRanks : Nat) :
    (fuel i : Nat) → List α → (Nat → List α) → Nat × List α × (Nat → List α)
  | 0, i, list, ranks => (i, list, ranks)
  | fuel + 1, i, list, ranks =>
      if i < nRanks ∧ ranks i ≠ [] then
        carryLoop func nRanks fuel (i + 1) (mergeLists func (ranks i) list)
          (Function.update ranks i [])
      else (i, list, ranks)

/-- `insert_list` at rank 0, the only rank `do_sort` uses. -/
def insertList (maxRanks : Nat) (func : α → α → Int) (si : SortInfo α) (list : List α) :
    SortInfo α :=
  let (i, list, ranks) := carryLoop func si.nRanks si.nRanks 0 list si.ranks
  let i := if i = maxRanks then i - 1 else i
  { minRank := i
    nRanks := if si.nRanks ≤ i then i + 1 else si.nRanks
    ranks := Function.update ranks i list }

/-- A non-recursive mergesort: take the nodes in pairs, then merge what is left. -/
def doSort (maxRanks : Nat) (func : α → α → Int) (si : SortInfo α) : List α → List α
  | a :: b :: tail =>
      let pair := if func a b > 0 then [b, a] else [a, b]
      doSort maxRanks func (insertList maxRanks func si pair) tail
  | list => sweepUp func si list si.nRanks

/-- `MAX_RANKS` for `GList` nodes of three pointers of 8 bytes. -/
def maxRanks : Nat := 59

/-- `g_list_sort`, on the data of the nodes. -/
def gListSort (func : α → α → Int) (list : List α) : List α :=
  match list with
  | [] => []
  | [a] => [a]
  | list => doSort maxRanks func SortInfo.init list

/-! ### Merging -/

theorem mergeListsAux_perm (func : α → α → Int) :
    ∀ (fuel : Nat) (first second : List α), first.length + second.length ≤ fuel →
      (mergeListsAux func fuel first second).Perm (first ++ second)
  | _, [], second, _ | _, a :: first, [], _ => by simp [mergeListsAux]
  | 0, a :: first, b :: second, enough => by simp at enough
  | fuel + 1, a :: first, b :: second, enough => by
      simp only [length_cons] at enough
      simp only [mergeListsAux]
      split
      · have rest := mergeListsAux_perm func fuel (a :: first) second (by simp; omega)
        exact (List.Perm.cons b rest).trans perm_middle.symm
      · have rest := mergeListsAux_perm func fuel first (b :: second) (by simp; omega)
        exact List.Perm.cons a rest

theorem mergeLists_perm (func : α → α → Int) (first second : List α) :
    (mergeLists func first second).Perm (first ++ second) :=
  mergeListsAux_perm func _ first second (Nat.le_refl _)

/-- A comparison function decides an order: a positive answer puts the second argument first. The
function need not be consistent where the order calls two elements equivalent. -/
structure Compares (func : α → α → Int) (le : α → α → Prop) : Prop where
  trans : ∀ {a b c}, le a b → le b c → le a c
  of_pos : ∀ {a b}, func a b > 0 → le b a
  of_nonpos : ∀ {a b}, ¬ func a b > 0 → le a b

variable {func : α → α → Int} {le : α → α → Prop} {maxRanks : Nat} {si : SortInfo α}

theorem mergeListsAux_pairwise (compares : Compares func le) :
    ∀ (fuel : Nat) (first second : List α), first.length + second.length ≤ fuel →
      first.Pairwise le → second.Pairwise le → (mergeListsAux func fuel first second).Pairwise le
  | _, [], second, _, _, sortedSecond => by simpa [mergeListsAux] using sortedSecond
  | _, a :: first, [], _, sortedFirst, _ => by simpa [mergeListsAux] using sortedFirst
  | 0, a :: first, b :: second, enough, _, _ => by simp at enough
  | fuel + 1, a :: first, b :: second, enough, sortedFirst, sortedSecond => by
      simp only [length_cons] at enough
      obtain ⟨leFirst, sortedFirst'⟩ := pairwise_cons.mp sortedFirst
      obtain ⟨leSecond, sortedSecond'⟩ := pairwise_cons.mp sortedSecond
      simp only [mergeListsAux]
      split
      · next greater =>
        have small : (a :: first).length + second.length ≤ fuel := by simp; omega
        refine pairwise_cons.mpr ⟨fun c member => ?_,
          mergeListsAux_pairwise compares fuel _ _ small sortedFirst sortedSecond'⟩
        have member' := (mergeListsAux_perm func fuel _ _ small).mem_iff.mp member
        simp only [cons_append, mem_cons, mem_append] at member'
        rcases member' with rfl | inFirst | inSecond
        · exact compares.of_pos greater
        · exact compares.trans (compares.of_pos greater) (leFirst c inFirst)
        · exact leSecond c inSecond
      · next notGreater =>
        have small : first.length + (b :: second).length ≤ fuel := by simp; omega
        refine pairwise_cons.mpr ⟨fun c member => ?_,
          mergeListsAux_pairwise compares fuel _ _ small sortedFirst' sortedSecond⟩
        have member' := (mergeListsAux_perm func fuel _ _ small).mem_iff.mp member
        simp only [mem_append, mem_cons] at member'
        rcases member' with inFirst | rfl | inSecond
        · exact leFirst c inFirst
        · exact compares.of_nonpos notGreater
        · exact compares.trans (compares.of_nonpos notGreater) (leSecond c inSecond)

theorem mergeLists_pairwise (compares : Compares func le) {first second : List α}
    (sortedFirst : first.Pairwise le) (sortedSecond : second.Pairwise le) : (mergeLists func first second).Pairwise le :=
  mergeListsAux_pairwise compares _ first second (Nat.le_refl _) sortedFirst sortedSecond

/-! ### The ranks

What the ranks hold is a multiset, so that carrying and clearing are sums. -/

/-- The elements in the ranks below `n`. -/
def rankContent (ranks : Nat → List α) (n : Nat) : Multiset α :=
  ∑ i ∈ Finset.range n, (ranks i : Multiset α)

theorem rankContent_update (ranks : Nat → List α) {n i : Nat} (inside : i < n) (list : List α) :
    rankContent (Function.update ranks i list) n + (ranks i : Multiset α) = rankContent ranks n + (list : Multiset α) := by
  have member : i ∈ Finset.range n := Finset.mem_range.mpr inside
  have others : ∀ j ∈ (Finset.range n).erase i,
      ((Function.update ranks i list j : List α) : Multiset α) = (ranks j : Multiset α) := by
    intro j away
    rw [update_of_ne (Finset.ne_of_mem_erase away)]
  rw [rankContent, rankContent, ← Finset.add_sum_erase _ _ member,
    ← Finset.add_sum_erase _ (fun j => (ranks j : Multiset α)) member,
    Finset.sum_congr rfl others, update_self]
  abel

theorem rankContent_update_of_le {ranks : Nat → List α} {n i : Nat} (outside : n ≤ i)
    (list : List α) : rankContent (Function.update ranks i list) n = rankContent ranks n := by
  refine Finset.sum_congr rfl fun j member => ?_
  have : j ≠ i := by
    have := Finset.mem_range.mp member
    omega
  rw [update_of_ne this]

theorem coe_mergeLists (func : α → α → Int) (first second : List α) :
    (mergeLists func first second : Multiset α) = (first : Multiset α) + (second : Multiset α) := by
  rw [Multiset.coe_add]
  exact Multiset.coe_eq_coe.mpr (mergeLists_perm func first second)

/-- What the carry leaves: nothing is lost, the ranks it passed are empty, and it stops at a free rank
or past the last one. -/
theorem carryLoop_spec {nRanks : Nat} (fuel : Nat) :
    ∀ (i : Nat) (list : List α) (ranks : Nat → List α), i ≤ nRanks → nRanks - i ≤ fuel →
      ∀ {i' list' ranks'}, carryLoop func nRanks fuel i list ranks = (i', list', ranks') →
        (list' : Multiset α) + rankContent ranks' nRanks = (list : Multiset α) + rankContent ranks nRanks ∧
          i ≤ i' ∧ i' ≤ nRanks ∧ (i' < nRanks → ranks' i' = []) ∧
          (∀ j, i ≤ j → j < i' → ranks' j = []) ∧ ∀ j < i, ranks' j = ranks j := by
  induction fuel with
  | zero =>
    intro i list ranks le enough i' list' ranks' run
    cases run
    exact ⟨rfl, Nat.le_refl _, le, fun inside => by omega, fun j _ _ => by omega,
      fun _ _ => rfl⟩
  | succ fuel ih =>
    intro i list ranks le enough i' list' ranks' run
    simp only [carryLoop] at run
    split at run
    · next occupied =>
      obtain ⟨content, le', bound, free, passed, before⟩ :=
        ih (i + 1) _ _ (by omega) (by omega) run
      have cleared := rankContent_update ranks occupied.1 ([] : List α)
      refine ⟨?_, by omega, bound, free, ?_, ?_⟩
      · rw [content, coe_mergeLists]
        simp only [Multiset.coe_nil, add_zero] at cleared
        rw [← cleared]
        abel
      · intro j from_i below
        rcases Nat.eq_or_lt_of_le from_i with rfl | later
        · rw [before i (Nat.lt_succ_self i), update_self]
        · exact passed j later below
      · intro j below
        rw [before j (by omega), update_of_ne (by omega)]
    · next stop =>
      cases run
      refine ⟨rfl, Nat.le_refl _, le, fun inside => ?_, fun j _ _ => by omega, fun _ _ => rfl⟩
      by_contra occupied
      exact stop ⟨inside, occupied⟩

theorem carryLoop_pairwise (compares : Compares func le) (nRanks fuel : Nat) :
    ∀ (i : Nat) (list : List α) (ranks : Nat → List α), list.Pairwise le → (∀ j, (ranks j).Pairwise le) →
        (carryLoop func nRanks fuel i list ranks).2.1.Pairwise le ∧
          ∀ j, ((carryLoop func nRanks fuel i list ranks).2.2 j).Pairwise le := by
  induction fuel with
  | zero =>
    intro i list ranks sorted sortedRanks
    exact ⟨sorted, sortedRanks⟩
  | succ fuel ih =>
    intro i list ranks sorted sortedRanks
    simp only [carryLoop]
    split
    · refine ih _ _ _ (mergeLists_pairwise compares (sortedRanks i) sorted) fun j => ?_
      by_cases here : j = i
      · subst here
        simp
      · rw [update_of_ne here]
        exact sortedRanks j
    · exact ⟨sorted, sortedRanks⟩

/-- The invariant of `do_sort`: ranks below `minRank` are empty and there is room for the next carry. -/
structure SortInfo.Valid (si : SortInfo α) (maxRanks : Nat) : Prop where
  below : ∀ j < si.minRank, si.ranks j = []
  bound : si.nRanks ≤ maxRanks
  minRank_le : si.minRank ≤ si.nRanks

theorem SortInfo.valid_init (maxRanks : Nat) : (SortInfo.init : SortInfo α).Valid maxRanks :=
  ⟨fun _ _ => rfl, Nat.zero_le _, Nat.le_refl _⟩

theorem insertList_spec (func : α → α → Int) (room : 0 < maxRanks) (valid : si.Valid maxRanks) (list : List α) :
    (insertList maxRanks func si list).Valid maxRanks ∧ rankContent (insertList maxRanks func si list).ranks
          (insertList maxRanks func si list).nRanks = (list : Multiset α) + rankContent si.ranks si.nRanks := by
  generalize run : carryLoop func si.nRanks si.nRanks 0 list si.ranks = result
  obtain ⟨i, list', ranks'⟩ := result
  obtain ⟨content, _, bound, free, passed, _⟩ :=
    carryLoop_spec si.nRanks 0 list si.ranks (Nat.zero_le _) (by omega) run
  have validBound := valid.bound
  simp only [insertList, run]
  by_cases full : i = maxRanks
  · -- The last rank was merged on the way, so it is free again.
    have inside : i - 1 < si.nRanks := by omega
    have empty : ranks' (i - 1) = [] := passed (i - 1) (Nat.zero_le _) (by omega)
    have added := rankContent_update ranks' inside list'
    rw [empty, Multiset.coe_nil, add_zero] at added
    simp only [if_pos full, if_neg (Nat.not_le.mpr inside)]
    refine ⟨⟨fun j below => ?_, validBound, Nat.le_of_lt inside⟩, ?_⟩
    · dsimp only at below ⊢
      rw [update_of_ne (Nat.ne_of_lt below)]
      exact passed j (Nat.zero_le _) (by omega)
    · rw [added, add_comm, content]
  · simp only [if_neg full]
    split
    · next last =>
      have same : i = si.nRanks := Nat.le_antisymm bound last
      refine ⟨⟨fun j below => ?_, by dsimp only; omega, Nat.le_succ i⟩, ?_⟩
      · dsimp only at below ⊢
        rw [update_of_ne (Nat.ne_of_lt below)]
        exact passed j (Nat.zero_le _) below
      · rw [rankContent, Finset.sum_range_succ, update_self, ← content, add_comm]
        rw [← rankContent, rankContent_update_of_le (Nat.le_refl i), same]
    · next inside =>
      have inside := Nat.not_le.mp inside
      have added := rankContent_update ranks' inside list'
      rw [free inside, Multiset.coe_nil, add_zero] at added
      refine ⟨⟨fun j below => ?_, validBound, Nat.le_of_lt inside⟩, ?_⟩
      · dsimp only at below ⊢
        rw [update_of_ne (Nat.ne_of_lt below)]
        exact passed j (Nat.zero_le _) below
      · rw [added, add_comm, content]

theorem insertList_pairwise (compares : Compares func le) {list : List α} (sorted : list.Pairwise le)
    (sortedRanks : ∀ j, (si.ranks j).Pairwise le) (j : Nat) :
    ((insertList maxRanks func si list).ranks j).Pairwise le := by
  obtain ⟨sorted', sortedRanks'⟩ :=
    carryLoop_pairwise compares si.nRanks si.nRanks 0 list si.ranks sorted sortedRanks
  simp only [insertList]
  generalize carryLoop func si.nRanks si.nRanks 0 list si.ranks = result at *
  obtain ⟨i, list', ranks'⟩ := result
  dsimp only at sorted' sortedRanks' ⊢
  generalize (if i = maxRanks then i - 1 else i) = slot
  rw [update_apply]
  by_cases here : j = slot
  · rw [if_pos here]
    exact sorted'
  · rw [if_neg here]
    exact sortedRanks' j

theorem sweepUpLoop_content (func : α → α → Int) (ranks : Nat → List α) (count : Nat) :
    ∀ (i : Nat) (list : List α), (sweepUpLoop func ranks count i list : Multiset α)
        = (list : Multiset α) + ∑ j ∈ Finset.range count, (ranks (i + j) : Multiset α) := by
  induction count with
  | zero => simp [sweepUpLoop]
  | succ count ih =>
    intro i list
    rw [sweepUpLoop, ih, coe_mergeLists, Finset.sum_range_succ']
    simp only [add_zero, Nat.add_right_comm i 1, ← Nat.add_assoc]
    abel

theorem sweepUpLoop_pairwise (compares : Compares func le) {ranks : Nat → List α}
    (sortedRanks : ∀ j, (ranks j).Pairwise le) (count : Nat) : ∀ (i : Nat) {list : List α}, list.Pairwise le →
      (sweepUpLoop func ranks count i list).Pairwise le := by
  induction count with
  | zero => exact fun _ _ sorted => sorted
  | succ count ih =>
    intro i list sorted
    exact ih (i + 1) (mergeLists_pairwise compares (sortedRanks i) sorted)

theorem sweepUp_content (valid : si.Valid maxRanks) (list : List α) :
    (sweepUp func si list si.nRanks : Multiset α) = (list : Multiset α) + rankContent si.ranks si.nRanks := by
  have empty : ∑ j ∈ Finset.range si.minRank, (si.ranks j : Multiset α) = 0 := by
    refine Finset.sum_eq_zero fun j member => ?_
    rw [valid.below j (Finset.mem_range.mp member), Multiset.coe_nil]
  have split := Finset.sum_range_add (fun j => (si.ranks j : Multiset α)) si.minRank
    (si.nRanks - si.minRank)
  rw [Nat.add_sub_cancel' valid.minRank_le, empty, zero_add] at split
  rw [sweepUp, sweepUpLoop_content, rankContent, split]

/-! ### Sorting -/

theorem doSort_content (room : 0 < maxRanks) : ∀ {list : List α} {si : SortInfo α}, si.Valid maxRanks →
      (doSort maxRanks func si list : Multiset α) = (list : Multiset α) + rankContent si.ranks si.nRanks
  | [], si, valid => by simpa [doSort] using sweepUp_content valid []
  | [a], si, valid => by simpa [doSort] using sweepUp_content valid [a]
  | a :: b :: tail, si, valid => by
      obtain ⟨valid', content⟩ := insertList_spec func room valid
        (if func a b > 0 then [b, a] else [a, b])
      have pair : ((if func a b > 0 then [b, a] else [a, b] : List α) : Multiset α)
          = ([a, b] : List α) := by
        split
        · exact Multiset.coe_eq_coe.mpr (List.Perm.swap a b [])
        · rfl
      have whole : ((a :: b :: tail : List α) : Multiset α)
          = ([a, b] : List α) + (tail : Multiset α) := by
        rw [Multiset.coe_add]
        rfl
      rw [doSort, doSort_content room valid', content, pair, whole]
      abel

theorem doSort_pairwise (compares : Compares func le) :
    ∀ {list : List α} {si : SortInfo α}, (∀ j, (si.ranks j).Pairwise le) → (doSort maxRanks func si list).Pairwise le
  | [], si, sortedRanks => sweepUpLoop_pairwise compares sortedRanks _ _ List.Pairwise.nil
  | [a], si, sortedRanks =>
    sweepUpLoop_pairwise compares sortedRanks _ _ (pairwise_singleton le a)
  | a :: b :: tail, si, sortedRanks => by
      rw [doSort]
      refine doSort_pairwise compares (insertList_pairwise compares ?_ sortedRanks)
      split
      · next greater => exact pairwise_pair.mpr (compares.of_pos greater)
      · next notGreater => exact pairwise_pair.mpr (compares.of_nonpos notGreater)

theorem gListSort_perm (func : α → α → Int) (list : List α) : (gListSort func list).Perm list := by
  unfold gListSort
  split
  · exact List.Perm.refl _
  · exact List.Perm.refl _
  · apply Multiset.coe_eq_coe.mp
    rw [doSort_content (by decide) (SortInfo.valid_init maxRanks)]
    simp [rankContent, SortInfo.init]

theorem gListSort_pairwise (compares : Compares func le) (list : List α) : (gListSort func list).Pairwise le := by
  unfold gListSort
  split
  · exact List.Pairwise.nil
  · exact pairwise_singleton le _
  · exact doSort_pairwise compares fun _ => List.Pairwise.nil

/-- `g_list_sort` gives back its elements in order, for every comparison function that decides a preorder. -/
theorem gListSort_sorts (compares : Compares func le) (list : List α) :
    (gListSort func list).Perm list ∧ (gListSort func list).Pairwise le :=
  ⟨gListSort_perm func list, gListSort_pairwise compares list⟩

theorem gListSort_sorts_int : (gListSort (fun a b : Int => a - b) [3, 1, 2]).Pairwise (· ≤ ·) := by
  have compares : Compares (fun a b : Int => a - b) (· ≤ ·) :=
    ⟨le_trans, fun greater => by omega, fun notGreater => by omega⟩
  exact (gListSort_sorts compares [3, 1, 2]).2

end MonoRuntime.Eglib
