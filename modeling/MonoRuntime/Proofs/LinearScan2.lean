/-
Module: MonoRuntime.Proofs.LinearScan2
Purpose: Safety of `mono_linear_scan2`: variables that share a register have live intervals without an
  intersection. A variable that was placed is active, inactive, or its interval ended; the first kind
  blocks its register, the second kind blocks it unless the intervals are disjoint, and the third kind
  cannot meet an interval that starts later. Whether a position is covered only moves variables
  between the first two kinds.
Trusted boundary: none
Main exports: monoLinearScan2_safe
-/
import MonoRuntime.Proofs.LinearScan
import Mathlib.Data.List.GetD

namespace MonoRuntime.LinearScan

open Assignment Eglib List Function

/-! ### Live intervals -/

/-- Ranges at positions from 0 on that are not empty, and sorted. -/
structure MonoLiveInterval.Valid (interval : MonoLiveInterval) : Prop where
  nonneg : ∀ r ∈ interval.range, 0 ≤ r.rangeFrom
  nonempty : ∀ r ∈ interval.range, r.rangeFrom < r.rangeTo
  sorted : interval.range.Pairwise fun r s => r.rangeTo ≤ s.rangeFrom

/-- The ranges of a variable are valid. -/
def MonoMethodVar.Valid (v : MonoMethodVar) : Prop :=
  MonoLiveInterval.Valid ⟨v.ranges⟩

/-- Two ranges have a position in common. -/
def Overlap (r1 r2 : MonoLiveRange2) : Prop :=
  r2.rangeTo > r1.rangeFrom ∧ r2.rangeFrom < r1.rangeTo

variable {r1 : MonoLiveRange2} {v w : MonoMethodVar}

theorem Overlap.symm {r2 : MonoLiveRange2} (overlap : Overlap r1 r2) : Overlap r2 r1 :=
  ⟨overlap.2, overlap.1⟩

/-- No range of the one variable overlaps a range of the other. -/
def IntervalsDisjoint (v w : MonoMethodVar) : Prop :=
  ∀ r1 ∈ v.ranges, ∀ r2 ∈ w.ranges, ¬ Overlap r1 r2

theorem IntervalsDisjoint.symm (disjoint : IntervalsDisjoint v w) : IntervalsDisjoint w v :=
  fun r1 member1 r2 member2 overlap => disjoint r2 member2 r1 member1 overlap.symm

theorem intersectLoop_none : ∀ {ranges : List MonoLiveRange2},
      intersectLoop r1 ranges = none ↔ ∀ r2 ∈ ranges, ¬ Overlap r1 r2
  | [] => by simp [intersectLoop]
  | r2 :: next => by
      simp only [intersectLoop, forall_mem_cons, Overlap]
      split
      · next overlap => simp [overlap]
      · next apart =>
        rw [intersectLoop_none]
        exact ⟨fun later => ⟨apart, later⟩, fun both => both.2⟩

theorem intersectLoop_some {pos : Int} (nonempty : r1.rangeFrom < r1.rangeTo) : ∀ {ranges : List MonoLiveRange2},
      intersectLoop r1 ranges = some pos → r1.rangeFrom ≤ pos ∧ pos < r1.rangeTo
  | [], found => by simp [intersectLoop] at found
  | r2 :: next, found => by
      simp only [intersectLoop] at found
      split at found
      · next overlap =>
        injection found with found
        split at found <;> omega
      · exact intersectLoop_some nonempty found

theorem intersectPos_of_ne (valid : v.Valid) (meets : v.intersectPos w ≠ -1) :
    ∃ r ∈ v.ranges, r.rangeFrom ≤ v.intersectPos w ∧ v.intersectPos w < r.rangeTo := by
  simp only [MonoMethodVar.intersectPos, monoLintervalGetIntersectPos] at meets ⊢
  generalize search : v.ranges.findSome? (fun r1 => intersectLoop r1 w.ranges) = found at meets ⊢
  cases found with
  | none => exact absurd rfl meets
  | some pos =>
    obtain ⟨r, member, hit⟩ := exists_of_findSome?_eq_some search
    exact ⟨r, member, intersectLoop_some (valid.nonempty r member) hit⟩

theorem intersectPos_eq_neg_one_iff (valid : v.Valid) : v.intersectPos w = -1 ↔ IntervalsDisjoint v w := by
  constructor
  · intro isNone r1 member1
    cases search : v.ranges.findSome? (fun r1 => intersectLoop r1 w.ranges) with
    | none => exact intersectLoop_none.mp (findSome?_eq_none_iff.mp search r1 member1)
    | some pos =>
      obtain ⟨r, member, hit⟩ := exists_of_findSome?_eq_some search
      have bounds := intersectLoop_some (valid.nonempty r member) hit
      have nonneg := valid.nonneg r member
      simp only [MonoMethodVar.intersectPos, monoLintervalGetIntersectPos, search] at isNone
      omega
  · intro disjoint
    have search : v.ranges.findSome? (fun r1 => intersectLoop r1 w.ranges) = none :=
      findSome?_eq_none_iff.mpr fun r1 member1 =>
        intersectLoop_none.mpr (disjoint r1 member1)
    simp only [MonoMethodVar.intersectPos, monoLintervalGetIntersectPos, search]

/-- All ranges of a valid interval lie between the start of the first and the end of the last. -/
theorem MonoMethodVar.Valid.from_first (valid : v.Valid)
    {first : MonoLiveRange2} {rest : List MonoLiveRange2} (ranges : v.ranges = first :: rest)
    {r : MonoLiveRange2} (member : r ∈ v.ranges) : first.rangeFrom ≤ r.rangeFrom := by
  have sorted := valid.sorted
  have nonempty := valid.nonempty first (by simp [ranges])
  simp only [ranges, pairwise_cons] at sorted
  rw [ranges] at member
  rcases mem_cons.mp member with rfl | later
  · exact Int.le_refl _
  · have := sorted.1 r later
    omega

theorem MonoMethodVar.Valid.to_last (valid : v.Valid) {last : MonoLiveRange2} (isLast : v.ranges.getLast? = some last)
    {r : MonoLiveRange2} (member : r ∈ v.ranges) : r.rangeTo ≤ last.rangeTo := by
  obtain ⟨init, parts⟩ := getLast?_eq_some_iff.mp isLast
  have sorted := valid.sorted
  have nonempty := valid.nonempty last (by simp [parts])
  simp only [parts, pairwise_append] at sorted
  rw [parts] at member
  rcases mem_append.mp member with earlier | here
  · have := sorted.2.2 r earlier last mem_cons_self
    omega
  · rw [mem_singleton.mp here]

theorem disjoint_of_expired {pos : Int} (validV : v.Valid)
    (expired : v.expired pos = true) (later : ∀ r ∈ w.ranges, pos ≤ r.rangeFrom) : IntervalsDisjoint v w := by
  intro r1 member1 r2 member2 overlap
  simp only [MonoMethodVar.expired] at expired
  split at expired
  · next last isLast =>
    have ended := validV.to_last isLast member1
    have starts := later r2 member2
    have meets := overlap.2
    have before := of_decide_eq_true expired
    omega
  · exact absurd expired (by decide)

/-! ### The sorted list -/

/-- `v` has a range and starts no later than `w`, unless `w` has no range. -/
def StartsBefore (v w : MonoMethodVar) : Prop :=
  ∀ r ∈ w.ranges.head?, ∃ r' ∈ v.ranges.head?, r'.rangeFrom ≤ r.rangeFrom

theorem compares_startsBefore : Compares compareByIntervalStartPosFunc StartsBefore where
  trans := by
    intro a b c ab bc r head
    obtain ⟨r', head', le'⟩ := bc r head
    obtain ⟨r'', head'', le''⟩ := ab r' head'
    exact ⟨r'', head'', Int.le_trans le'' le'⟩
  of_pos := by
    intro a b positive
    simp only [compareByIntervalStartPosFunc] at positive
    split at positive
    · omega
    · split at positive
      · next r1 _ r2 _ ranges1 ranges2 =>
        intro r head
        rw [ranges1] at head
        rw [ranges2]
        obtain rfl : r1 = r := Option.some.inj head
        exact ⟨r2, rfl, by omega⟩
      · omega
      · next ranges1 =>
        intro r head
        rw [ranges1] at head
        exact absurd head (by simp)
  of_nonpos := by
    intro a b notPositive
    simp only [compareByIntervalStartPosFunc] at notPositive
    split at notPositive
    · next same =>
      subst same
      exact fun r head => ⟨r, head, Int.le_refl _⟩
    · split at notPositive
      · next r1 _ r2 _ ranges1 ranges2 =>
        intro r head
        rw [ranges2] at head
        rw [ranges1]
        obtain rfl : r2 = r := Option.some.inj head
        exact ⟨r1, rfl, by omega⟩
      · next ranges2 =>
        intro r head
        rw [ranges2] at head
        exact absurd head (by simp)
      · omega

/-! ### Sweeps -/

theorem eq_or_mem_eraseP {p : MonoMethodVar → Bool} {list : List MonoMethodVar} {u : MonoMethodVar}
    (found : list.find? p = some u) (member : v ∈ list) : v = u ∨ v ∈ list.eraseP p := by
  obtain ⟨isLeaving, l1, l2, parts, before⟩ := find?_eq_some_iff_append.mp found
  rw [parts, eraseP_append_right _ (by simpa using before),
    eraseP_cons_of_pos (p := p) isLeaving]
  rw [parts] at member
  simp only [mem_append, mem_cons] at member ⊢
  tauto

theorem sweepActive_keeps (pos : Int) (fuel : Nat) :
    ∀ (active inactive : List MonoMethodVar) (v : MonoMethodVar), v ∈ active ∨ v ∈ inactive →
      v ∈ (sweepActive pos fuel active inactive).1 ∨
        v ∈ (sweepActive pos fuel active inactive).2 ∨ v.expired pos = true := by
  induction fuel with
  | zero =>
    intro active inactive v member
    exact or_assoc.mp (Or.inl member)
  | succ fuel ih =>
    intro active inactive v member
    simp only [sweepActive]
    split
    · exact or_assoc.mp (Or.inl member)
    · next u found =>
      split
      · next ended =>
        rcases member with inActive | inInactive
        · rcases eq_or_mem_eraseP found inActive with rfl | stays
          · exact Or.inr (Or.inr ended)
          · exact ih _ _ v (Or.inl stays)
        · exact ih _ _ v (Or.inr inInactive)
      · refine ih _ _ v ?_
        rcases member with inActive | inInactive
        · rcases eq_or_mem_eraseP found inActive with rfl | stays
          · exact Or.inr (mem_append_right _ mem_cons_self)
          · exact Or.inl stays
        · exact Or.inr (mem_append_left _ inInactive)

theorem sweepInactive_keeps (pos : Int) (fuel : Nat) :
    ∀ (active inactive : List MonoMethodVar) (v : MonoMethodVar), v ∈ active ∨ v ∈ inactive →
      v ∈ (sweepInactive pos fuel active inactive).1 ∨
        v ∈ (sweepInactive pos fuel active inactive).2 ∨ v.expired pos = true := by
  induction fuel with
  | zero =>
    intro active inactive v member
    exact or_assoc.mp (Or.inl member)
  | succ fuel ih =>
    intro active inactive v member
    simp only [sweepInactive]
    split
    · exact or_assoc.mp (Or.inl member)
    · next u found =>
      split
      · next ended =>
        rcases member with inActive | inInactive
        · exact ih _ _ v (Or.inl inActive)
        · rcases eq_or_mem_eraseP found inInactive with rfl | stays
          · exact Or.inr (Or.inr ended)
          · exact ih _ _ v (Or.inr stays)
      · refine ih _ _ v ?_
        rcases member with inActive | inInactive
        · exact Or.inl (mem_append_left _ inActive)
        · rcases eq_or_mem_eraseP found inInactive with rfl | stays
          · exact Or.inl (mem_append_right _ mem_cons_self)
          · exact Or.inr stays

theorem Scan2State.advance_keeps {s : Scan2State} (pos : Int) (member : v ∈ s.active ∨ v ∈ s.inactive) :
    v ∈ (s.advance pos).active ∨ v ∈ (s.advance pos).inactive ∨ v.expired pos = true := by
  have swept := sweepActive_keeps pos s.active.length s.active s.inactive v member
  simp only [Scan2State.advance]
  generalize sweepActive pos s.active.length s.active s.inactive = first at swept
  obtain ⟨active, inactive⟩ := first
  rcases or_assoc.mpr swept with stays | ended
  · exact sweepInactive_keeps pos inactive.length active inactive v stays
  · exact Or.inr (Or.inr ended)

/-! ### Free positions -/

theorem blockActive_eq_zero {reg : Nat → Int} {r : Int} : ∀ {active : List MonoMethodVar} {freePos : Int → Int},
      (freePos r = 0 ∨ ∃ v ∈ active, 0 ≤ reg v.idx ∧ reg v.idx = r) → blockActive reg freePos active r = 0
  | [], freePos, given => by
      rcases given with zero | ⟨v, member, _⟩
      · exact zero
      · exact absurd member not_mem_nil
  | u :: active, freePos, given => by
      rw [blockActive, foldl_cons, ← blockActive]
      apply blockActive_eq_zero
      rcases given with zero | ⟨v, member, holds, same⟩
      · left
        split
        · by_cases here : r = reg u.idx
          · rw [here, update_self]
          · rw [update_of_ne here, zero]
        · exact zero
      · rcases mem_cons.mp member with rfl | later
        · left
          rw [if_pos holds, ← same, update_self]
        · exact Or.inr ⟨v, later, holds, same⟩

/-- `free_pos` after the inactive variables: either none of them that holds the register meets the
current interval, or it is the position where one of them does. -/
theorem blockInactive_cases (current : MonoMethodVar) (reg : Nat → Int) (r : Int) :
    ∀ (inactive : List MonoMethodVar) (freePos : Int → Int), (blockInactive current reg freePos inactive r = freePos r ∧
          ∀ v ∈ inactive, 0 ≤ reg v.idx → reg v.idx = r → current.intersectPos v = -1) ∨
        ∃ v ∈ inactive, current.intersectPos v ≠ -1 ∧ blockInactive current reg freePos inactive r = current.intersectPos v
  | [], freePos => Or.inl ⟨rfl, fun _ member => absurd member not_mem_nil⟩
  | u :: inactive, freePos => by
      rw [blockInactive, foldl_cons, ← blockInactive]
      set next := (if 0 ≤ reg u.idx then
          if current.intersectPos u ≠ -1 then
            Function.update freePos (reg u.idx) (current.intersectPos u)
          else freePos
        else freePos) with nextEq
      rcases blockInactive_cases current reg r inactive next with
        ⟨same, clear⟩ | ⟨v, member, meets, value⟩
      · by_cases blocks : 0 ≤ reg u.idx ∧ reg u.idx = r ∧ current.intersectPos u ≠ -1
        · right
          refine ⟨u, mem_cons_self, blocks.2.2, ?_⟩
          rw [same, nextEq, if_pos blocks.1, if_pos blocks.2.2, ← blocks.2.1, update_self]
        · left
          constructor
          · rw [same, nextEq]
            split
            · next holds =>
              split
              · next meets =>
                exact update_of_ne (fun here => blocks ⟨holds, here.symm, meets⟩) _ _
              · rfl
            · rfl
          · intro v member holds here
            rcases mem_cons.mp member with rfl | later
            · by_contra meets
              exact blocks ⟨holds, here, meets⟩
            · exact clear v later holds here
      · exact Or.inr ⟨v, mem_cons_of_mem _ member, meets, value⟩

/-- If a register is free for the whole current interval, no active variable holds it, and no inactive one
that holds it meets the interval. -/
theorem Scan2State.clear_of_freePos {s : Scan2State} {current : MonoMethodVar} {r : Int}
    {last : MonoLiveRange2} (valid : current.Valid) (isLast : current.ranges.getLast? = some last)
    (available : s.freePos current r ≥ last.rangeTo) : (∀ v ∈ s.active, 0 ≤ s.reg v.idx → s.reg v.idx ≠ r) ∧
      ∀ v ∈ s.inactive, 0 ≤ s.reg v.idx → s.reg v.idx = r → IntervalsDisjoint current v := by
  have lastMember : last ∈ current.ranges := mem_of_getLast? isLast
  have positive : 0 < last.rangeTo := by
    have := valid.nonneg last lastMember
    have := valid.nonempty last lastMember
    omega
  simp only [Scan2State.freePos] at available
  rcases blockInactive_cases current s.reg r s.inactive
    (blockActive s.reg (fun _ => 0x7fffffff) s.active) with ⟨same, clear⟩ | ⟨v, _, meets, value⟩
  · constructor
    · intro v member holds here
      rw [same, blockActive_eq_zero (Or.inr ⟨v, member, holds, here⟩)] at available
      omega
    · intro v member holds here
      exact (intersectPos_eq_neg_one_iff valid).mp (clear v member holds here)
  · -- The intersection lies inside the current interval.
    obtain ⟨range, member, _, inside⟩ := intersectPos_of_ne valid meets
    have bound := valid.to_last isLast member
    omega

theorem freePos_nonneg (s : Scan2State) {current : MonoMethodVar} (valid : current.Valid) (r : Int) :
    0 ≤ s.freePos current r := by
  have blocked : ∀ (active : List MonoMethodVar) (freePos : Int → Int), (∀ r, 0 ≤ freePos r) →
      ∀ r, 0 ≤ blockActive s.reg freePos active r := by
    intro active
    induction active with
    | nil => exact fun _ nonneg => nonneg
    | cons u active ih =>
      intro freePos nonneg
      rw [blockActive, foldl_cons, ← blockActive]
      refine ih _ fun r => ?_
      split
      · rw [update_apply]
        split
        · exact Int.le_refl 0
        · exact nonneg r
      · exact nonneg r
  rcases blockInactive_cases current s.reg r s.inactive
    (blockActive s.reg (fun _ => 0x7fffffff) s.active) with ⟨same, _⟩ | ⟨v, _, meets, value⟩
  · rw [Scan2State.freePos, same]
    exact blocked s.active _ (fun _ => by decide) r
  · obtain ⟨range, member, above, _⟩ := intersectPos_of_ne valid meets
    have := valid.nonneg range member
    rw [Scan2State.freePos, value]
    omega

theorem maxFreePos_spec {freePos : Int → Int} (nonneg : ∀ r, 0 ≤ freePos r) (nRegs : Nat) :
    (nRegs = 0 ∧ maxFreePos freePos nRegs = (-1, -1)) ∨
      (0 ≤ (maxFreePos freePos nRegs).1 ∧ (maxFreePos freePos nRegs).1 < nRegs) := by
  induction nRegs with
  | zero => exact Or.inl ⟨rfl, rfl⟩
  | succ n ih =>
    right
    rw [maxFreePos, range_succ, foldl_append, ← maxFreePos]
    simp only [foldl_cons, foldl_nil]
    split
    · exact ⟨by simp, by simp⟩
    · next notLarger =>
      rcases ih with ⟨rfl, start⟩ | ⟨low, high⟩
      · rw [start] at notLarger
        have := nonneg ((0 : Nat) : Int)
        omega
      · exact ⟨low, by push_cast; omega⟩

/-! ### The invariant -/

/-- The state between two rounds: `done` are the variables placed so far, `rest` those to come. -/
structure Scan2Invariant (nRegs : Nat) (done rest : List MonoMethodVar) (s : Scan2State) : Prop where
  /-- A variable that kept its register is in one of the lists, or cannot meet what is to come. -/
  tracked : ∀ v ∈ done, 0 ≤ s.reg v.idx →
    v ∈ s.active ∨ v ∈ s.inactive ∨ ∀ w ∈ rest, IntervalsDisjoint v w
  bound : ∀ v ∈ done, s.reg v.idx < nRegs
  waiting : ∀ w ∈ rest, s.reg w.idx = -1
  fresh : ∀ v ∈ done, ∀ w ∈ rest, v.idx ≠ w.idx
  conflictFree : ConflictFree (0 ≤ ·) IntervalsDisjoint (fun v => s.reg v.idx) done

section Round

variable {nRegs : Nat} {done rest : List MonoMethodVar} {s : Scan2State} {current : MonoMethodVar}

theorem Scan2Invariant.advance {pos : Int} (inv : Scan2Invariant nRegs done rest s)
    (valid : ∀ v ∈ done, v.Valid) (later : ∀ w ∈ rest, ∀ r ∈ w.ranges, pos ≤ r.rangeFrom) :
    Scan2Invariant nRegs done rest (s.advance pos) where
  tracked := by
    intro v member holds
    rcases or_assoc.mpr (inv.tracked v member holds) with listed | apart
    · rcases or_assoc.mpr (Scan2State.advance_keeps pos listed) with listed' | ended
      · exact or_assoc.mp (Or.inl listed')
      · exact Or.inr (Or.inr fun w memberW =>
          disjoint_of_expired (valid v member) ended (later w memberW))
    · exact Or.inr (Or.inr apart)
  bound := inv.bound
  waiting := inv.waiting
  fresh := inv.fresh
  conflictFree := inv.conflictFree

theorem Scan2Invariant.skip (inv : Scan2Invariant nRegs done (current :: rest) s)
    (distinct : ∀ w ∈ rest, current.idx ≠ w.idx) : Scan2Invariant nRegs (current :: done) rest s where
  tracked := by
    intro v member holds
    rcases mem_cons.mp member with rfl | old
    · rw [inv.waiting v mem_cons_self] at holds
      omega
    · rcases or_assoc.mpr (inv.tracked v old holds) with listed | apart
      · exact or_assoc.mp (Or.inl listed)
      · exact Or.inr (Or.inr fun w memberW => apart w (mem_cons_of_mem _ memberW))
  bound := by
    intro v member
    rcases mem_cons.mp member with rfl | old
    · rw [inv.waiting v mem_cons_self]
      omega
    · exact inv.bound v old
  waiting := fun w member => inv.waiting w (mem_cons_of_mem _ member)
  fresh := by
    intro v member w memberW
    rcases mem_cons.mp member with rfl | old
    · exact distinct w memberW
    · exact inv.fresh v old w (mem_cons_of_mem _ memberW)
  conflictFree := by
    refine ConflictFree.take IntervalsDisjoint.symm inv.conflictFree fun holds => ?_
    rw [inv.waiting current mem_cons_self] at holds
    omega

/-- Spilling takes a register away, from a variable that leaves the active list. -/
theorem Scan2Invariant.spill (inv : Scan2Invariant nRegs done (current :: rest) s)
    (distinct : ∀ w ∈ rest, current.idx ≠ w.idx) : Scan2Invariant nRegs (current :: done) rest (s.spill current) := by
  simp only [Scan2State.spill]
  split
  · exact inv.skip distinct
  · next vmv active listed =>
    split
    · have lowered : ∀ i, Function.update s.reg vmv.idx (-1) i = s.reg i ∧ i ≠ vmv.idx ∨
          Function.update s.reg vmv.idx (-1) i = -1 := by
        intro i
        by_cases same : i = vmv.idx
        · exact Or.inr (by rw [same, update_self])
        · exact Or.inl ⟨update_of_ne same _ _, same⟩
      refine Scan2Invariant.skip ⟨?_, ?_, ?_, inv.fresh, ?_⟩ distinct
      · intro v member holds
        rcases lowered v.idx with ⟨same, away⟩ | lost
        · simp only [same] at holds
          rcases inv.tracked v member holds with isActive | others
          · rw [listed] at isActive
            rcases mem_cons.mp isActive with rfl | stays
            · exact absurd rfl away
            · exact Or.inl stays
          · exact Or.inr others
        · simp only [lost] at holds
          omega
      · intro v member
        have bound := inv.bound v member
        rcases lowered v.idx with ⟨same, _⟩ | lost
        · simp only [same]
          exact bound
        · simp only [lost]
          omega
      · intro w member
        rcases lowered w.idx with ⟨same, _⟩ | lost
        · simp only [same]
          exact inv.waiting w member
        · exact lost
      · refine inv.conflictFree.release fun v member holds => ?_
        rcases lowered v.idx with ⟨same, _⟩ | lost
        · exact same
        · simp only [lost] at holds
          omega
    · exact inv.skip distinct

theorem Scan2Invariant.assign (inv : Scan2Invariant nRegs done (current :: rest) s)
    (distinct : ∀ w ∈ rest, current.idx ≠ w.idx) (valid : current.Valid)
    {r : Int} (bound : r < nRegs) {last : MonoLiveRange2} (isLast : current.ranges.getLast? = some last)
    (available : s.freePos current r ≥ last.rangeTo) :
    Scan2Invariant nRegs (current :: done) rest (s.assign current r) := by
  obtain ⟨noActive, noInactive⟩ := s.clear_of_freePos valid isLast available
  have regDone : ∀ v ∈ done, Function.update s.reg current.idx r v.idx = s.reg v.idx :=
    fun v member => update_of_ne (inv.fresh v member current mem_cons_self) _ _
  constructor
  · intro v member holds
    simp only [Scan2State.assign, mem_append, mem_singleton]
    rcases mem_cons.mp member with rfl | old
    · exact Or.inl (Or.inr rfl)
    · simp only [Scan2State.assign, regDone v old] at holds
      rcases inv.tracked v old holds with isActive | isInactive | apart
      · exact Or.inl (Or.inl isActive)
      · exact Or.inr (Or.inl isInactive)
      · exact Or.inr (Or.inr fun w memberW => apart w (mem_cons_of_mem _ memberW))
  · intro v member
    simp only [Scan2State.assign]
    rcases mem_cons.mp member with rfl | old
    · rw [update_self]
      exact bound
    · rw [regDone v old]
      exact inv.bound v old
  · intro w member
    simp only [Scan2State.assign]
    rw [update_of_ne (distinct w member).symm]
    exact inv.waiting w (mem_cons_of_mem _ member)
  · intro v member w memberW
    rcases mem_cons.mp member with rfl | old
    · exact distinct w memberW
    · exact inv.fresh v old w (mem_cons_of_mem _ memberW)
  · refine ConflictFree.take IntervalsDisjoint.symm (inv.conflictFree.release ?_) ?_
    · intro v old _
      exact regDone v old
    · intro holds v old same
      simp only [Scan2State.assign, update_self, regDone v old] at holds same
      rcases inv.tracked v old (same ▸ holds) with isActive | isInactive | apart
      · exact absurd same (noActive v isActive (same ▸ holds))
      · exact (noInactive v isInactive (same ▸ holds) same).symm
      · exact apart current mem_cons_self

theorem scan2Step_invariant (inv : Scan2Invariant nRegs done (current :: rest) s)
    (validDone : ∀ v ∈ done, v.Valid) (validRest : ∀ w ∈ current :: rest, w.Valid)
    (first : ∀ w ∈ rest, StartsBefore current w) (distinct : ∀ w ∈ rest, current.idx ≠ w.idx) :
    (nRegs ≠ 0 → ∃ s', scan2Step nRegs s current = some s') ∧ ∀ {s'}, scan2Step nRegs s current = some s' →
        Scan2Invariant nRegs (current :: done) rest s' := by
  have valid := validRest current mem_cons_self
  cases ranges : current.ranges with
  | nil =>
    simp only [scan2Step, ranges]
    refine ⟨fun _ => ⟨s, rfl⟩, fun step => ?_⟩
    injection step with same
    exact same ▸ inv.skip distinct
  | cons head tail =>
    have later : ∀ w ∈ current :: rest, ∀ r ∈ w.ranges, head.rangeFrom ≤ r.rangeFrom := by
      intro w member r memberR
      rcases mem_cons.mp member with rfl | inRest
      · exact valid.from_first ranges memberR
      · cases rangesW : w.ranges with
        | nil => simp [rangesW] at memberR
        | cons headW tailW =>
          obtain ⟨r', isHead, before⟩ := first w inRest headW (by simp [rangesW])
          obtain rfl : head = r' := by simpa [ranges] using isHead
          have := (validRest w member).from_first rangesW memberR
          omega
    have advanced := inv.advance validDone later
    have isLast : current.ranges.getLast? = some ((head :: tail).getLast (by simp)) := by
      rw [ranges, getLast?_eq_some_getLast]
    have nonneg := freePos_nonneg (s.advance head.rangeFrom) valid
    have chosen := maxFreePos_spec nonneg nRegs
    simp only [scan2Step, ranges]
    constructor
    · intro some
      have found : (maxFreePos ((s.advance head.rangeFrom).freePos current) nRegs).1 ≠ -1 := by
        rcases chosen with ⟨zero, _⟩ | ⟨low, _⟩
        · exact absurd zero some
        · omega
      rw [if_neg found]
      split
      · exact ⟨_, rfl⟩
      · exact ⟨_, rfl⟩
    · intro s' step
      split at step
      · exact absurd step (by simp)
      · next found =>
        have bound : (maxFreePos ((s.advance head.rangeFrom).freePos current) nRegs).1 < nRegs := by
          rcases chosen with ⟨_, isNone⟩ | ⟨_, high⟩
          · rw [isNone] at found
            exact absurd rfl found
          · exact high
        split at step
        · next available =>
          injection step with same
          exact same ▸ advanced.assign distinct valid bound isLast available
        · injection step with same
          exact same ▸ advanced.spill distinct

end Round

/-- The whole loop keeps the invariant, and it runs if there is a register at all. -/
theorem scan2Loop_invariant {nRegs : Nat} :
    ∀ (rest done : List MonoMethodVar) (s : Scan2State), Scan2Invariant nRegs done rest s →
      (∀ v ∈ done, v.Valid) → (∀ w ∈ rest, w.Valid) → rest.Pairwise StartsBefore → (rest.map (·.idx)).Nodup →
          (nRegs ≠ 0 → ∃ s', rest.foldlM (scan2Step nRegs) s = some s') ∧
            ∀ {s'}, rest.foldlM (scan2Step nRegs) s = some s' → Scan2Invariant nRegs (rest.reverse ++ done) [] s'
  | [], done, s, inv, _, _, _, _ => by
      refine ⟨fun _ => ⟨s, rfl⟩, fun run => ?_⟩
      injection run with same
      exact same ▸ inv
  | current :: rest, done, s, inv, validDone, validRest, sorted, distinct => by
      obtain ⟨first, sorted'⟩ := pairwise_cons.mp sorted
      rw [map_cons, nodup_cons] at distinct
      have different : ∀ w ∈ rest, current.idx ≠ w.idx := fun w member same =>
        distinct.1 (mem_map.mpr ⟨w, member, same.symm⟩)
      have validDone' : ∀ v ∈ current :: done, v.Valid := by
        intro v member
        rcases mem_cons.mp member with rfl | old
        · exact validRest v mem_cons_self
        · exact validDone v old
      have validRest' : ∀ w ∈ rest, w.Valid := fun w member =>
        validRest w (mem_cons_of_mem _ member)
      obtain ⟨runs, keeps⟩ := scan2Step_invariant inv validDone validRest first different
      have tail : ∀ {s'}, scan2Step nRegs s current = some s' → _ := fun {s'} step =>
        scan2Loop_invariant rest (current :: done) s' (keeps step) validDone' validRest' sorted'
          distinct.2
      constructor
      · intro some
        obtain ⟨s', step⟩ := runs some
        obtain ⟨final, run⟩ := (tail step).1 some
        exact ⟨final, by rw [foldlM_cons, step]; exact run⟩
      · intro final run
        obtain ⟨s', step, run'⟩ := Option.bind_eq_some_iff.mp run
        have inv' := (tail step).2 run'
        simpa using inv'

/-! ### From indices to registers -/

theorem assignLoop_other {regs : List Int} {gains : Int → BitVec 32} {i : Nat} :
    ∀ (vars : List MonoMethodVar) (cfg : MonoCompile) (reg : Nat → Int),
      i ∉ vars.map (·.idx) → (vars.foldl (assignStep regs gains) (cfg, reg)).2 i = reg i
  | [], _, _, _ => rfl
  | vmv :: vars, cfg, reg, away => by
      rw [map_cons, mem_cons, not_or] at away
      rw [foldl_cons]
      simp only [assignStep]
      split
      · split
        · rw [assignLoop_other vars _ _ away.2, update_of_ne away.1]
        · rw [assignLoop_other vars _ _ away.2, update_of_ne away.1]
      · exact assignLoop_other vars _ _ away.2

theorem assignLoop_reg (regs : List Int) (gains : Int → BitVec 32) :
    ∀ (vars : List MonoMethodVar) (cfg : MonoCompile) (reg : Nat → Int),
      (vars.map (·.idx)).Nodup → ∀ v ∈ vars, 0 ≤ (vars.foldl (assignStep regs gains) (cfg, reg)).2 v.idx →
          0 ≤ reg v.idx ∧ (vars.foldl (assignStep regs gains) (cfg, reg)).2 v.idx = regs.getD (reg v.idx).toNat 0
  | [], _, _, _, _, member, _ => absurd member not_mem_nil
  | vmv :: vars, cfg, reg, distinct, v, member, holds => by
      rw [map_cons, nodup_cons] at distinct
      rw [foldl_cons] at holds ⊢
      simp only [assignStep] at holds ⊢
      rcases mem_cons.mp member with rfl | later
      · split at holds
        · next isIndex =>
          rw [if_pos isIndex]
          split at holds
          · next pays =>
            rw [if_pos pays, assignLoop_other vars _ _ distinct.1, update_self]
            exact ⟨isIndex, rfl⟩
          · rw [assignLoop_other vars _ _ distinct.1, update_self] at holds
            omega
        · next notIndex =>
          rw [assignLoop_other vars _ _ distinct.1] at holds
          exact absurd holds notIndex
      · have away : v.idx ≠ vmv.idx := fun same =>
          distinct.1 (mem_map.mpr ⟨v, later, same⟩)
        -- The first round does not touch the register of `v`.
        have rest : ∀ (cfg' : MonoCompile) (reg' : Nat → Int), reg' v.idx = reg v.idx →
            0 ≤ (vars.foldl (assignStep regs gains) (cfg', reg')).2 v.idx →
              0 ≤ reg v.idx ∧ (vars.foldl (assignStep regs gains) (cfg', reg')).2 v.idx
                = regs.getD (reg v.idx).toNat 0 := by
          intro cfg' reg' same holds'
          have result := assignLoop_reg regs gains vars cfg' reg' distinct.2 v later holds'
          rwa [same] at result
        split at holds
        · next isIndex =>
          rw [if_pos isIndex]
          split at holds
          · next pays =>
            rw [if_pos pays]
            exact rest _ _ (update_of_ne away _ _) holds
          · next costly =>
            rw [if_neg costly]
            exact rest _ _ (update_of_ne away _ _) holds
        · next notIndex =>
          rw [if_neg notIndex]
          exact rest _ _ rfl holds

theorem index_eq_of_getD_eq {regs : List Int} (nodup : regs.Nodup) {i j : Int}
    (i_nonneg : 0 ≤ i) (i_lt : i < regs.length) (j_nonneg : 0 ≤ j) (j_lt : j < regs.length)
    (same : regs.getD i.toNat 0 = regs.getD j.toNat 0) : i = j := by
  have i_inside : i.toNat < regs.length := by omega
  have j_inside : j.toNat < regs.length := by omega
  rw [getD_eq_getElem _ _ i_inside, getD_eq_getElem _ _ j_inside] at same
  have := (List.Nodup.getElem_inj_iff nodup).mp same
  omega

/-! ### Safety -/

/-- Two variables that end up in the same register have live intervals without an intersection, if the
ranges of all variables are valid and the registers are different. With registers that fit into
`free_pos` the allocator does not abort. -/
theorem monoLinearScan2_safe {w : Nat} {cfg : MonoCompile} {vars : List MonoMethodVar}
    {reg : Nat → Int} {regs : List Int} {usedMask : BitVec w}
    (distinct : (vars.map (·.idx)).Nodup)
    (intervals : ∀ v ∈ vars, ∃ interval, v.interval = some interval ∧ interval.Valid)
    (start : ∀ v ∈ vars, reg v.idx = -1)
    (nodup : regs.Nodup) :
    (regs ≠ [] → regs.length ≤ w →
      ∃ result, monoLinearScan2 w cfg vars reg regs usedMask = some result) ∧
    ∀ result, monoLinearScan2 w cfg vars reg regs usedMask = some result →
      ∀ v ∈ vars, ∀ u ∈ vars, v ≠ u → 0 ≤ result.reg v.idx →
        result.reg v.idx = result.reg u.idx → v.intersectPos u = -1 := by
  have perm := gListSort_perm compareByIntervalStartPosFunc vars
  have valid : ∀ v ∈ vars, v.Valid := by
    intro v member
    obtain ⟨interval, isSome, isValid⟩ := intervals v member
    simp only [MonoMethodVar.Valid, MonoMethodVar.ranges, isSome]
    exact isValid
  have init : Scan2Invariant regs.length [] (gListSort compareByIntervalStartPosFunc vars)
      { active := [], inactive := [], gains := fun _ => 0, reg := reg } :=
    ⟨fun _ member => absurd member not_mem_nil, fun _ member => absurd member not_mem_nil,
      fun v member => start v (perm.subset member), fun _ member => absurd member not_mem_nil,
      conflictFree_nil⟩
  obtain ⟨runs, keeps⟩ := scan2Loop_invariant _ [] _ init
    (fun _ member => absurd member not_mem_nil) (fun v member => valid v (perm.subset member))
    (gListSort_pairwise compares_startsBefore vars) ((perm.map _).nodup_iff.mpr distinct)
  have hasInterval : ∀ v ∈ vars, v.interval.isSome = true := by
    intro v member
    obtain ⟨interval, isSome, _⟩ := intervals v member
    rw [isSome]
    rfl
  constructor
  · intro some few
    obtain ⟨s, run⟩ := runs (mt length_eq_zero_iff.mp some)
    have inArray : (guard (regs.length ≤ w ∧ ∀ v ∈ vars, v.interval.isSome = true) : Option Unit)
        = .some () := if_pos ⟨few, hasInterval⟩
    rw [monoLinearScan2, inArray]
    simp only [run, Option.bind_eq_bind, Option.bind_some]
    exact ⟨_, rfl⟩
  · intro result run v memberV u memberU different holds same
    rw [monoLinearScan2] at run
    obtain ⟨_, _, run⟩ := Option.bind_eq_some_iff.mp run
    obtain ⟨s, loop, run⟩ := Option.bind_eq_some_iff.mp run
    have inv := keeps loop
    have placed : ∀ v ∈ vars, v ∈ (gListSort compareByIntervalStartPosFunc vars).reverse ++ [] := by
      intro v member
      simpa using perm.symm.subset member
    injection run with run
    subst run
    have final := fun v member =>
      assignLoop_reg regs (adjustGains cfg.saveLmf s.gains) vars cfg s.reg distinct
        v member
    have free := (inv.conflictFree.subset placed).rename (0 ≤ ·)
      (fun v => (vars.foldl (assignStep regs (adjustGains cfg.saveLmf s.gains))
        (cfg, s.reg)).2 v.idx) (by
      intro v memberV u memberU holds same
      obtain ⟨holdsV, valueV⟩ := final v memberV holds
      obtain ⟨holdsU, valueU⟩ := final u memberU (same ▸ holds)
      refine ⟨holdsV, index_eq_of_getD_eq nodup holdsV (inv.bound v (placed v memberV)) holdsU
        (inv.bound u (placed u memberU)) ?_⟩
      rw [← valueV, ← valueU]
      exact same)
    exact (intersectPos_eq_neg_one_iff (valid v memberV)).mpr
      (free v memberV u memberU different holds same)

/-- A variable that is placed into the hole of another one, in the same register. -/
theorem monoLinearScan2_safe_hole :
    let v : MonoMethodVar := ⟨0, 1, 10, 100, some ⟨[⟨1, 3⟩, ⟨8, 10⟩]⟩⟩
    let u : MonoMethodVar := ⟨1, 4, 6, 100, some ⟨[⟨4, 6⟩]⟩⟩
    (([3] : List Int) ≠ [] → [(3 : Int)].length ≤ 64 →
      ∃ result, monoLinearScan2 64 sampleCompile [v, u] (fun _ => -1) [3] 0 = some result) ∧
    ∀ result, monoLinearScan2 64 sampleCompile [v, u] (fun _ => -1) [3] 0 = some result →
      ∀ x ∈ [v, u], ∀ y ∈ [v, u], x ≠ y → 0 ≤ result.reg x.idx →
        result.reg x.idx = result.reg y.idx → x.intersectPos y = -1 := by
  intro v u
  refine monoLinearScan2_safe (by decide) ?_ (by simp) (by decide)
  intro x member
  rcases mem_cons.mp member with rfl | member
  · exact ⟨_, rfl, by decide, by decide, by decide⟩
  · rw [mem_singleton.mp member]
    exact ⟨_, rfl, by decide, by decide, by decide⟩

/-- Sorted disjoint ranges are not enough: a register is taken to be free for the whole interval when the
conflict is at its end, in an empty range, or when positions are negative; and a register that the list
has twice is handed out twice. -/
theorem monoLinearScan2_shares_intersecting :
    (∃ v u : MonoMethodVar, v.ranges = [⟨0, 0⟩, ⟨7, 9⟩] ∧ u.ranges = [⟨1, 2⟩, ⟨8, 8⟩] ∧
      (monoLinearScan2 64 sampleCompile [v, u] (fun _ => -1) [3] 0).map
        (fun result => (result.reg v.idx, result.reg u.idx)) = some (3, 3) ∧
      v.idx ≠ u.idx ∧ u.intersectPos v = 8) ∧
    (∃ v u : MonoMethodVar, v.ranges = [⟨-10, -5⟩] ∧ u.ranges = [⟨-8, -6⟩] ∧
      (monoLinearScan2 64 sampleCompile [v, u] (fun _ => -1) [3] 0).map
        (fun result => (result.reg v.idx, result.reg u.idx)) = some (3, 3) ∧
      v.idx ≠ u.idx ∧ u.intersectPos v = -8) ∧
    ∃ v u : MonoMethodVar, v.ranges = [⟨1, 5⟩] ∧ u.ranges = [⟨2, 4⟩] ∧
      (monoLinearScan2 64 sampleCompile [v, u] (fun _ => -1) [3, 3] 0).map
        (fun result => (result.reg v.idx, result.reg u.idx)) = some (3, 3) ∧
      v.idx ≠ u.idx ∧ u.intersectPos v = 2 := by
  refine ⟨⟨⟨0, 0, 9, 100, some ⟨[⟨0, 0⟩, ⟨7, 9⟩]⟩⟩, ⟨1, 1, 8, 100, some ⟨[⟨1, 2⟩, ⟨8, 8⟩]⟩⟩, ?_⟩,
    ⟨⟨0, 0, 9, 100, some ⟨[⟨-10, -5⟩]⟩⟩, ⟨1, 1, 8, 100, some ⟨[⟨-8, -6⟩]⟩⟩, ?_⟩,
    ⟨0, 1, 5, 100, some ⟨[⟨1, 5⟩]⟩⟩, ⟨1, 2, 4, 100, some ⟨[⟨2, 4⟩]⟩⟩, ?_⟩
  · decide
  · decide
  · decide

end MonoRuntime.LinearScan
