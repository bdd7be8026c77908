/-
Module: MonoRuntime.Proofs.LiveInterval
Purpose: Every run of `mono_linterval_add_range` keeps a list that is sorted and covers what was added. `last_range`
  stays at the end of the list, which is the furthest end of all as long as every call keeps it there. Intersections are
  those of the added ranges, where these are not empty.
Trusted boundary: none (fully proved)
Main exports: addRanges_spec
-/
import MonoRuntime.Mini.LiveInterval
import MonoRuntime.Proofs.LinearScan2

namespace MonoRuntime.LinearScan

open List

/-! ### One call -/

section Call

variable {interval interval' : LinkedInterval} {rangeFrom rangeTo : Int}

theorem findPlace_spec (rangeFrom : Int) : ∀ cells : List RangeCell,
    (findPlace rangeFrom cells).1 ++ (findPlace rangeFrom cells).2 = cells ∧
      (∀ cell ∈ (findPlace rangeFrom cells).1, cell.range.rangeFrom ≤ rangeFrom) ∧
      ∀ cell ∈ (findPlace rangeFrom cells).2.head?, rangeFrom < cell.range.rangeFrom
  | [] => by simp [findPlace]
  | cell :: next => by
      obtain ⟨parts, before, behind⟩ := findPlace_spec rangeFrom next
      unfold findPlace
      split
      next le =>
        refine ⟨congrArg (cell :: ·) parts, ?_, behind⟩
        intro other member
        rcases mem_cons.mp member with rfl | later
        · exact le
        · exact before other later
      next gt => exact ⟨rfl, by simp, by simpa using gt⟩

/-- What a call does: a range is extended forwards or backwards, or a new one is put in its place. -/
inductive AddShape (interval : LinkedInterval) (rangeFrom rangeTo : Int) : LinkedInterval → Prop
  | forwards {before behind : List RangeCell} {cell : RangeCell} (is : interval.range = before ++ cell :: behind)
      (starts : ∀ other ∈ before ++ [cell], other.range.rangeFrom ≤ rangeFrom)
      (later : ∀ other ∈ behind.head?, rangeFrom < other.range.rangeFrom) (touches : cell.range.rangeTo = rangeFrom) :
      AddShape interval rangeFrom rangeTo { interval with range := before ++ cell.setTo rangeTo :: behind }
  | backwards {before behind : List RangeCell} {cell : RangeCell} (is : interval.range = before ++ cell :: behind)
      (starts : ∀ other ∈ before, other.range.rangeFrom ≤ rangeFrom) (later : rangeFrom < cell.range.rangeFrom)
      (touches : cell.range.rangeFrom = rangeTo) :
      AddShape interval rangeFrom rangeTo { interval with range := before ++ cell.setFrom rangeFrom :: behind }
  | inserts {before behind : List RangeCell} (is : interval.range = before ++ behind)
      (starts : ∀ other ∈ before, other.range.rangeFrom ≤ rangeFrom)
      (later : ∀ other ∈ behind.head?, rangeFrom < other.range.rangeFrom) :
      AddShape interval rangeFrom rangeTo
        { range := before ++ ⟨interval.range.length, ⟨rangeFrom, rangeTo⟩⟩ :: behind
          lastRange := if behind.isEmpty then some interval.range.length else interval.lastRange }

theorem monoLintervalAddRange_shape (interval : LinkedInterval) (ordered : rangeFrom ≤ rangeTo) :
    ∃ interval', monoLintervalAddRange interval rangeFrom rangeTo = some interval' ∧
      AddShape interval rangeFrom rangeTo interval' := by
  unfold monoLintervalAddRange
  rw [if_neg (not_lt.mpr ordered)]
  by_cases first : extendsFirst interval rangeFrom rangeTo = true
  · rw [if_pos first]
    refine ⟨_, rfl, ?_⟩
    unfold extendsFirst at first
    split at first
    next => contradiction
    next cell rest is =>
      obtain ⟨later, touches⟩ := of_decide_eq_true first
      rw [is]
      exact .backwards (is.trans (nil_append _).symm) (by simp) later touches
  · rw [if_neg first]
    obtain ⟨parts, starts, later⟩ := findPlace_spec rangeFrom interval.range
    generalize findPlace rangeFrom interval.range = place at parts starts later
    obtain ⟨before, behind⟩ := place
    simp only at parts starts later ⊢
    by_cases forwards : before.getLast?.any (·.range.rangeTo = rangeFrom) = true
    · rw [if_pos forwards]
      refine ⟨_, rfl, ?_⟩
      obtain ⟨cell, isLast, touches⟩ := (Option.any_eq_true _ _).mp forwards
      have touches : cell.range.rangeTo = rangeFrom := of_decide_eq_true touches
      obtain ⟨init, rfl⟩ := getLast?_eq_some_iff.mp isLast
      simpa using AddShape.forwards (by simpa using parts.symm) starts later touches
    · rw [if_neg forwards]
      by_cases backwards : behind.head?.any (·.range.rangeFrom = rangeTo) = true
      · rw [if_pos backwards]
        refine ⟨_, rfl, ?_⟩
        cases behind with
        | nil => simp at backwards
        | cons cell rest =>
          have touches : cell.range.rangeFrom = rangeTo := by simpa using backwards
          exact .backwards parts.symm starts (later cell rfl) touches
      · rw [if_neg backwards]
        exact ⟨_, rfl, .inserts parts.symm starts later⟩

end Call

/-! ### What a list of ranges says about positions -/

/-- A property of ranges that two ranges which meet have together exactly if the joined range has it. -/
def Joins (holds : Int → Int → Prop) : Prop :=
  ∀ {start middle last : Int}, start ≤ middle → middle ≤ last →
    (holds start last ↔ holds start middle ∨ holds middle last)

/-- Some range has the property. -/
def SomeRange (holds : Int → Int → Prop) (ranges : List MonoLiveRange2) : Prop :=
  ∃ range ∈ ranges, holds range.rangeFrom range.rangeTo

/-- The position is in the range, ends included. -/
def Contains (pos rangeFrom rangeTo : Int) : Prop :=
  rangeFrom ≤ pos ∧ pos ≤ rangeTo

/-- The position is in the range, and the next one too. -/
def ContainsUnit (pos rangeFrom rangeTo : Int) : Prop :=
  rangeFrom ≤ pos ∧ pos < rangeTo

theorem contains_joins (pos : Int) : Joins (Contains pos) := by
  intro start middle last first second
  unfold Contains
  omega

theorem containsUnit_joins (pos : Int) : Joins (ContainsUnit pos) := by
  intro start middle last first second
  unfold ContainsUnit
  omega

@[simp] theorem someRange_append (holds : Int → Int → Prop) (ranges ranges' : List MonoLiveRange2) :
    SomeRange holds (ranges ++ ranges') ↔ SomeRange holds ranges ∨ SomeRange holds ranges' := by
  simp [SomeRange, or_and_right, exists_or]

@[simp] theorem someRange_cons (holds : Int → Int → Prop) (range : MonoLiveRange2) (ranges : List MonoLiveRange2) :
    SomeRange holds (range :: ranges) ↔ holds range.rangeFrom range.rangeTo ∨ SomeRange holds ranges := by
  simp [SomeRange]

@[simp] theorem someRange_nil (holds : Int → Int → Prop) : ¬ SomeRange holds [] := by
  simp [SomeRange]

theorem coversLoop_iff (pos : Int) : ∀ {ranges : List MonoLiveRange2},
    ranges.Pairwise (fun range next => range.rangeFrom ≤ next.rangeFrom) →
      (coversLoop pos ranges = true ↔ SomeRange (Contains pos) ranges)
  | [], _ => by simp [coversLoop]
  | range :: next, sorted => by
      obtain ⟨first, sorted⟩ := pairwise_cons.mp sorted
      have rest := coversLoop_iff pos sorted
      rw [coversLoop, someRange_cons]
      by_cases inside : pos ≥ range.rangeFrom ∧ pos ≤ range.rangeTo
      · rw [if_pos inside]
        exact iff_of_true rfl (.inl inside)
      · rw [if_neg inside]
        split
        next past =>
          refine iff_of_false Bool.false_ne_true ?_
          rintro (here | ⟨other, member, starts, _⟩)
          · exact inside here
          · have := first other member
            omega
        next => exact rest.trans (or_iff_right inside).symm

theorem overlap_iff {r1 r2 : MonoLiveRange2} (nonempty1 : r1.rangeFrom < r1.rangeTo)
    (nonempty2 : r2.rangeFrom < r2.rangeTo) : Overlap r1 r2 ↔
      ∃ pos, ContainsUnit pos r1.rangeFrom r1.rangeTo ∧ ContainsUnit pos r2.rangeFrom r2.rangeTo := by
  unfold Overlap ContainsUnit
  constructor
  · intro overlap
    exact ⟨max r1.rangeFrom r2.rangeFrom, by omega, by omega⟩
  · rintro ⟨pos, first, second⟩
    omega

/-- Two lists of ranges that are not empty are apart exactly if no unit is in both. -/
theorem apart_iff {ranges1 ranges2 : List MonoLiveRange2} (nonempty1 : ∀ r ∈ ranges1, r.rangeFrom < r.rangeTo)
    (nonempty2 : ∀ r ∈ ranges2, r.rangeFrom < r.rangeTo) : (∀ r1 ∈ ranges1, ∀ r2 ∈ ranges2, ¬ Overlap r1 r2) ↔
      ∀ pos, ¬ (SomeRange (ContainsUnit pos) ranges1 ∧ SomeRange (ContainsUnit pos) ranges2) := by
  constructor
  · rintro apart pos ⟨⟨r1, member1, in1⟩, r2, member2, in2⟩
    exact apart r1 member1 r2 member2
      ((overlap_iff (nonempty1 r1 member1) (nonempty2 r2 member2)).mpr ⟨pos, in1, in2⟩)
  · intro apart r1 member1 r2 member2 overlap
    obtain ⟨pos, in1, in2⟩ := (overlap_iff (nonempty1 r1 member1) (nonempty2 r2 member2)).mp overlap
    exact apart pos ⟨⟨r1, member1, in1⟩, r2, member2, in2⟩

theorem intersectLoop_ne {r1 : MonoLiveRange2} {pos start : Int} : ∀ {ranges : List MonoLiveRange2},
    (∀ r ∈ ranges, r.rangeFrom ≠ start) → r1.rangeFrom ≠ start → intersectLoop r1 ranges = some pos → pos ≠ start
  | [], _, _, found => by simp [intersectLoop] at found
  | r2 :: next, starts2, starts1, found => by
      obtain ⟨start2, starts2⟩ := forall_mem_cons.mp starts2
      unfold intersectLoop at found
      split at found
      next =>
        cases found
        split
        · exact starts1
        · exact start2
      next => exact intersectLoop_ne starts2 starts1 found

/-- The answer -1 says that no two ranges overlap, where no range starts at -1. -/
theorem intersectPos_eq_iff {i1 i2 : MonoLiveInterval} (starts1 : ∀ r ∈ i1.range, r.rangeFrom ≠ -1)
    (starts2 : ∀ r ∈ i2.range, r.rangeFrom ≠ -1) :
    monoLintervalGetIntersectPos i1 i2 = -1 ↔ ∀ r1 ∈ i1.range, ∀ r2 ∈ i2.range, ¬ Overlap r1 r2 := by
  unfold monoLintervalGetIntersectPos
  cases search : i1.range.findSome? (fun r1 => intersectLoop r1 i2.range) with
  | none =>
    exact iff_of_true rfl fun r1 member1 =>
      intersectLoop_none.mp (findSome?_eq_none_iff.mp search r1 member1)
  | some pos =>
    obtain ⟨r1, member1, found⟩ := exists_of_findSome?_eq_some search
    refine iff_of_false (intersectLoop_ne starts2 (starts1 r1 member1) found) fun apart => ?_
    rw [intersectLoop_none.mpr (apart r1 member1)] at found
    cases found

/-! ### The ranges of an interval -/

/-- Where ranges start. -/
def startsOf (ranges : List MonoLiveRange2) : List Int :=
  ranges.map MonoLiveRange2.rangeFrom

@[simp] theorem startsOf_append (ranges ranges' : List MonoLiveRange2) :
    startsOf (ranges ++ ranges') = startsOf ranges ++ startsOf ranges' :=
  map_append

@[simp] theorem startsOf_cons (range : MonoLiveRange2) (ranges : List MonoLiveRange2) :
    startsOf (range :: ranges) = range.rangeFrom :: startsOf ranges :=
  rfl

@[simp] theorem startsOf_nil : startsOf [] = [] :=
  rfl

/-- Ranges that stand for the added ranges. -/
structure Represents (added ranges : List MonoLiveRange2) : Prop where
  sorted : (startsOf ranges).Pairwise (· ≤ ·)
  ordered : ∀ range ∈ ranges, range.rangeFrom ≤ range.rangeTo
  starts : startsOf ranges ⊆ startsOf added
  nonempty : (∀ range ∈ added, range.rangeFrom < range.rangeTo) → ∀ range ∈ ranges, range.rangeFrom < range.rangeTo
  someRange : ∀ {holds : Int → Int → Prop}, Joins holds → (SomeRange holds ranges ↔ SomeRange holds added)

theorem represents_nil : Represents [] [] := by
  constructor <;> simp

section Step

variable {added before behind : List MonoLiveRange2} {range : MonoLiveRange2} {rangeFrom rangeTo : Int}

theorem Represents.forwards (represents : Represents added (before ++ range :: behind)) (ordered : rangeFrom ≤ rangeTo)
    (touches : range.rangeTo = rangeFrom) :
    Represents (added ++ [⟨rangeFrom, rangeTo⟩]) (before ++ ⟨range.rangeFrom, rangeTo⟩ :: behind) := by
  obtain ⟨sorted, inOrder, starts, nonempty, someRange⟩ := represents
  have first : range.rangeFrom ≤ rangeFrom := touches ▸ inOrder range (by simp)
  simp only [forall_mem_append, forall_mem_cons] at inOrder nonempty
  constructor
  case sorted => simpa using sorted
  case ordered =>
    simp only [forall_mem_append, forall_mem_cons]
    exact ⟨inOrder.1, first.trans ordered, inOrder.2.2⟩
  case starts =>
    have same : startsOf (before ++ ⟨range.rangeFrom, rangeTo⟩ :: behind) = startsOf (before ++ range :: behind) := by
      simp
    rw [same, startsOf_append added]
    exact subset_append_of_subset_left _ starts
  case nonempty =>
    simp only [forall_mem_append, forall_mem_cons]
    intro ⟨old, new, _⟩
    obtain ⟨nonemptyBefore, _, nonemptyBehind⟩ := nonempty old
    exact ⟨nonemptyBefore, first.trans_lt new, nonemptyBehind⟩
  case someRange =>
    intro holds joins
    have joined : holds range.rangeFrom rangeTo ↔ holds range.rangeFrom range.rangeTo ∨ holds rangeFrom rangeTo := by
      rw [touches]
      exact joins first ordered
    simp only [someRange_append, someRange_cons, someRange_nil, or_false, ← someRange joins, joined]
    tauto

theorem Represents.backwards (represents : Represents added (before ++ range :: behind)) (ordered : rangeFrom ≤ rangeTo)
    (touches : range.rangeFrom = rangeTo) (starts : ∀ other ∈ before, other.rangeFrom ≤ rangeFrom) :
    Represents (added ++ [⟨rangeFrom, rangeTo⟩]) (before ++ ⟨rangeFrom, range.rangeTo⟩ :: behind) := by
  obtain ⟨sorted, inOrder, oldStarts, nonempty, someRange⟩ := represents
  have last : rangeTo ≤ range.rangeTo := touches ▸ inOrder range (by simp)
  simp only [forall_mem_append, forall_mem_cons] at inOrder nonempty
  constructor
  case sorted =>
    simp only [startsOf_append, startsOf_cons, pairwise_append, pairwise_cons, forall_mem_cons] at sorted ⊢
    obtain ⟨sortedBefore, ⟨firstBehind, sortedBehind⟩, between⟩ := sorted
    refine ⟨sortedBefore, ⟨fun start member => ?_, sortedBehind⟩, fun start member => ⟨?_, (between start member).2⟩⟩
    · exact ordered.trans (touches ▸ firstBehind start member)
    · obtain ⟨other, otherMember, rfl⟩ := mem_map.mp member
      exact starts other otherMember
  case ordered =>
    simp only [forall_mem_append, forall_mem_cons]
    exact ⟨inOrder.1, ordered.trans last, inOrder.2.2⟩
  case starts =>
    simp only [startsOf_append, startsOf_cons, startsOf_nil, append_subset, cons_subset, mem_append,
      mem_singleton, or_true, true_and] at oldStarts ⊢
    exact ⟨subset_append_of_subset_left _ oldStarts.1, subset_append_of_subset_left _ oldStarts.2.2⟩
  case nonempty =>
    simp only [forall_mem_append, forall_mem_cons]
    intro ⟨old, new, _⟩
    obtain ⟨nonemptyBefore, _, nonemptyBehind⟩ := nonempty old
    exact ⟨nonemptyBefore, new.trans_le last, nonemptyBehind⟩
  case someRange =>
    intro holds joins
    have joined : holds rangeFrom range.rangeTo ↔ holds rangeFrom rangeTo ∨ holds range.rangeFrom range.rangeTo := by
      rw [touches]
      exact joins ordered last
    simp only [someRange_append, someRange_cons, someRange_nil, or_false, ← someRange joins, joined]
    tauto

theorem Represents.inserts (represents : Represents added (before ++ behind)) (ordered : rangeFrom ≤ rangeTo)
    (starts : ∀ other ∈ before, other.rangeFrom ≤ rangeFrom)
    (later : ∀ other ∈ behind.head?, rangeFrom < other.rangeFrom) :
    Represents (added ++ [⟨rangeFrom, rangeTo⟩]) (before ++ ⟨rangeFrom, rangeTo⟩ :: behind) := by
  obtain ⟨sorted, inOrder, oldStarts, nonempty, someRange⟩ := represents
  simp only [forall_mem_append] at inOrder nonempty
  constructor
  case sorted =>
    simp only [startsOf_append, startsOf_cons, pairwise_append, pairwise_cons, forall_mem_cons] at sorted ⊢
    obtain ⟨sortedBefore, sortedBehind, between⟩ := sorted
    refine ⟨sortedBefore, ⟨fun start member => ?_, sortedBehind⟩, fun start member => ⟨?_, between start member⟩⟩
    · cases behind with
      | nil => cases member
      | cons next rest =>
        have first := later next rfl
        rcases mem_cons.mp member with rfl | further
        · exact first.le
        · exact first.le.trans ((pairwise_cons.mp sortedBehind).1 start further)
    · obtain ⟨other, otherMember, rfl⟩ := mem_map.mp member
      exact starts other otherMember
  case ordered =>
    simp only [forall_mem_append, forall_mem_cons]
    exact ⟨inOrder.1, ordered, inOrder.2⟩
  case starts =>
    simp only [startsOf_append, startsOf_cons, startsOf_nil, append_subset, cons_subset, mem_append,
      mem_singleton, or_true, true_and] at oldStarts ⊢
    exact ⟨subset_append_of_subset_left _ oldStarts.1, subset_append_of_subset_left _ oldStarts.2⟩
  case nonempty =>
    simp only [forall_mem_append, forall_mem_cons]
    intro ⟨old, new, _⟩
    exact ⟨(nonempty old).1, new, (nonempty old).2⟩
  case someRange =>
    intro holds joins
    simp only [someRange_append, someRange_cons, someRange_nil, or_false, ← someRange joins]
    tauto

end Step

/-! ### The list of an interval -/

/-- The addresses of the ranges. -/
def LinkedInterval.addrs (interval : LinkedInterval) : List Nat :=
  interval.range.map RangeCell.addr

/-- The ranges stand at addresses of their own, and `last_range` points to the last of them. -/
structure LinkedInterval.Linked (interval : LinkedInterval) : Prop where
  nodup : interval.addrs.Nodup
  allocated : ∀ addr ∈ interval.addrs, addr < interval.addrs.length
  last : interval.lastRange = interval.addrs.getLast?

theorem find?_addr {cell : RangeCell} : ∀ {cells : List RangeCell}, (cells.map RangeCell.addr).Nodup → cell ∈ cells →
    cells.find? (·.addr = cell.addr) = some cell
  | [], _, member => nomatch member
  | first :: cells, nodup, member => by
      obtain ⟨fresh, nodup⟩ := nodup_cons.mp nodup
      rcases mem_cons.mp member with rfl | later
      · simp
      · have other : first.addr ≠ cell.addr := by
          intro same
          exact fresh (same ▸ mem_map_of_mem later)
        simpa [other] using find?_addr nodup later

theorem LinkedInterval.Linked.lastRangeTo_eq {interval : LinkedInterval} (linked : interval.Linked) :
    lastRangeTo interval = interval.range.getLast?.map (·.range.rangeTo) := by
  obtain ⟨nodup, _, last⟩ := linked
  unfold LinkedInterval.addrs at nodup last
  unfold lastRangeTo
  rw [last, getLast?_map]
  cases isLast : interval.range.getLast? with
  | none => rfl
  | some cell =>
    have found := find?_addr nodup (mem_of_getLast? isLast)
    simp [found]

section Links

variable {interval interval' : LinkedInterval} {rangeFrom rangeTo : Int}

theorem LinkedInterval.Linked.of_addrs (linked : interval.Linked) (same : interval'.addrs = interval.addrs)
    (last : interval'.lastRange = interval.lastRange) : interval'.Linked where
  nodup := same ▸ linked.nodup
  allocated := same ▸ linked.allocated
  last := by rw [last, linked.last, same]

theorem AddShape.linked (shape : AddShape interval rangeFrom rangeTo interval') (linked : interval.Linked) :
    interval'.Linked := by
  cases shape with
  | forwards is starts later touches =>
    exact linked.of_addrs (by simp [LinkedInterval.addrs, is, RangeCell.setTo]) rfl
  | backwards is starts later touches =>
    exact linked.of_addrs (by simp [LinkedInterval.addrs, is, RangeCell.setFrom]) rfl
  | @inserts before behind is starts later =>
    obtain ⟨nodup, allocated, last⟩ := linked
    have fresh : interval.range.length ∉ interval.addrs := fun member =>
      absurd (allocated _ member) (by simp [LinkedInterval.addrs])
    have length : interval.addrs.length = interval.range.length := length_map _
    have old : interval.addrs = before.map RangeCell.addr ++ behind.map RangeCell.addr := by
      simp [LinkedInterval.addrs, is]
    rw [old] at nodup allocated last fresh length
    constructor
    case nodup =>
      simpa [LinkedInterval.addrs] using (nodup_middle.mpr (nodup_cons.mpr ⟨fresh, nodup⟩))
    case allocated =>
      simp only [LinkedInterval.addrs, map_append, map_cons, forall_mem_append, forall_mem_cons,
        length_append, length_cons] at allocated length ⊢
      exact ⟨fun addr member => by have := allocated.1 addr member; omega, by omega,
        fun addr member => by have := allocated.2 addr member; omega⟩
    case last =>
      cases behind <;> simp_all [LinkedInterval.addrs]

theorem AddShape.represents {added : List MonoLiveRange2} (shape : AddShape interval rangeFrom rangeTo interval')
    (ordered : rangeFrom ≤ rangeTo) (represents : Represents added interval.toInterval.range) :
    Represents (added ++ [⟨rangeFrom, rangeTo⟩]) interval'.toInterval.range := by
  cases shape with
  | forwards is starts later touches =>
    simp only [LinkedInterval.toInterval, is, map_append, map_cons] at represents ⊢
    exact represents.forwards ordered touches
  | backwards is starts later touches =>
    simp only [LinkedInterval.toInterval, is, map_append, map_cons] at represents ⊢
    exact represents.backwards ordered touches (forall_mem_map.mpr starts)
  | inserts is starts later =>
    simp only [LinkedInterval.toInterval, is, map_append, map_cons] at represents ⊢
    exact represents.inserts ordered (forall_mem_map.mpr starts) (by simpa using later)

/-- Behind a range that starts later than a position, the last one does so too. -/
theorem last_later {before rest : List RangeCell} {next : RangeCell}
    (sorted : (startsOf ((before ++ next :: rest).map RangeCell.range)).Pairwise (· ≤ ·))
    (later : rangeFrom < next.range.rangeFrom) :
    ∃ last, (next :: rest).getLast? = some last ∧ rangeFrom < last.range.rangeFrom := by
  cases isLast : (next :: rest).getLast? with
  | none => simp at isLast
  | some last =>
    refine ⟨last, rfl, ?_⟩
    simp only [map_append, map_cons, startsOf_append, startsOf_cons, pairwise_append,
      pairwise_cons] at sorted
    rcases mem_cons.mp (mem_of_getLast? isLast) with rfl | member
    · exact later
    · exact later.trans_le (sorted.2.1.1 _ (mem_map_of_mem (mem_map_of_mem member)))

/-- Where the last range ends after a call: at the end of the range that was added, unless that starts before the last
one. -/
theorem AddShape.lastTo (shape : AddShape interval rangeFrom rangeTo interval')
    (sorted : (startsOf interval.toInterval.range).Pairwise (· ≤ ·)) :
    interval'.range.getLast?.map (·.range.rangeTo) = some (match interval.range.getLast? with
      | some last => if rangeFrom < last.range.rangeFrom then last.range.rangeTo else rangeTo
      | none => rangeTo) := by
  cases shape with
  | @forwards before behind cell is starts later touches =>
    simp only [LinkedInterval.toInterval, is] at sorted ⊢
    cases behind with
    | nil => simp [not_lt.mpr (starts cell (by simp)), RangeCell.setTo]
    | cons next rest =>
      rw [append_cons] at sorted
      obtain ⟨last, isLast, behindFrom⟩ := last_later sorted (later next rfl)
      simp [getLast?_cons_cons, isLast, behindFrom]
  | @backwards before behind cell is starts later touches =>
    simp only [LinkedInterval.toInterval, is] at sorted ⊢
    obtain ⟨last, isLast, behindFrom⟩ := last_later sorted later
    cases behind with
    | nil =>
      cases isLast
      simp [RangeCell.setFrom, later]
    | cons next rest =>
      simp only [getLast?_cons_cons] at isLast
      simp [getLast?_cons_cons, isLast, behindFrom]
  | @inserts before behind is starts later =>
    simp only [LinkedInterval.toInterval, is] at sorted ⊢
    cases behind with
    | nil =>
      cases isLast : before.getLast? with
      | none => simp [isLast]
      | some last => simp [isLast, not_lt.mpr (starts last (mem_of_getLast? isLast))]
    | cons next rest =>
      obtain ⟨last, isLast, behindFrom⟩ := last_later sorted (later next rfl)
      simp [getLast?_cons_cons, isLast, behindFrom]

end Links

/-! ### Runs -/

/-- The ranges that are added. -/
def rangesOf (added : List AddedRange) : List MonoLiveRange2 :=
  added.map AddedRange.toMonoLiveRange2

theorem addRanges_concat (added : List AddedRange) (range : AddedRange) : addRanges (added ++ [range]) =
      (addRanges added).bind fun interval => monoLintervalAddRange interval range.rangeFrom range.rangeTo := by
  simp [addRanges, foldlM_append]

theorem addRanges_represents (added : List AddedRange) : ∃ interval, addRanges added = some interval ∧ interval.Linked ∧
      Represents (rangesOf added) interval.toInterval.range := by
  induction added using List.reverseRecOn with
  | nil => exact ⟨.empty, rfl, by constructor <;> simp [LinkedInterval.addrs, LinkedInterval.empty], represents_nil⟩
  | append_singleton added range ih =>
    obtain ⟨interval, reached, linked, represents⟩ := ih
    obtain ⟨interval', called, shape⟩ := monoLintervalAddRange_shape interval range.ordered
    refine ⟨interval', ?_, shape.linked linked, ?_⟩
    · simp [addRanges_concat, reached, called]
    · simpa [rangesOf] using shape.represents range.ordered represents

/-- A call that leaves the furthest end in the last range: a range that starts behind the start of the last one does not
end before it, and one that starts before it does not end behind it. -/
def KeepsEnd (interval : LinkedInterval) (range : AddedRange) : Prop :=
  ∀ last ∈ interval.toInterval.range.getLast?,
    (last.rangeFrom ≤ range.rangeFrom → last.rangeTo ≤ range.rangeTo) ∧
      (range.rangeFrom < last.rangeFrom → range.rangeTo ≤ last.rangeTo)

/-- After every call, `last_range->to` is the furthest end of all. -/
def EndIsFurthest (added : List AddedRange) : Prop :=
  ∀ earlier, earlier <+: added → ∀ interval ∈ addRanges earlier,
    lastRangeTo interval = ((rangesOf earlier).map MonoLiveRange2.rangeTo).max?

/-- Every call keeps the furthest end in the last range. -/
def EndsKept (added : List AddedRange) : Prop :=
  ∀ earlier range, earlier ++ [range] <+: added → ∀ interval ∈ addRanges earlier, KeepsEnd interval range

theorem max?_concat (ends : List Int) (last : Int) :
    (ends ++ [last]).max? = some (match ends.max? with | some furthest => max furthest last | none => last) := by
  cases ends with
  | nil => rfl
  | cons first rest =>
    rw [cons_append, max?_cons', max?_cons', foldl_append]
    rfl

theorem furthest_step {added : List AddedRange} {interval interval' : LinkedInterval} {range : AddedRange}
    (reached : addRanges added = some interval) (reached' : addRanges (added ++ [range]) = some interval')
    (furthest : lastRangeTo interval = ((rangesOf added).map MonoLiveRange2.rangeTo).max?) :
    lastRangeTo interval' = ((rangesOf (added ++ [range])).map MonoLiveRange2.rangeTo).max? ↔ KeepsEnd interval range := by
  obtain ⟨_, same, linked, represents⟩ := addRanges_represents added
  cases reached.symm.trans same
  obtain ⟨_, called, shape⟩ := monoLintervalAddRange_shape interval range.ordered
  rw [addRanges_concat, reached] at reached'
  cases called.symm.trans reached'
  have ends : ((rangesOf (added ++ [range])).map MonoLiveRange2.rangeTo) =
      (rangesOf added).map MonoLiveRange2.rangeTo ++ [range.rangeTo] := by simp [rangesOf]
  rw [(shape.linked linked).lastRangeTo_eq, shape.lastTo represents.sorted, ends, max?_concat, ← furthest,
    linked.lastRangeTo_eq]
  unfold KeepsEnd
  simp only [LinkedInterval.toInterval, getLast?_map]
  cases interval.range.getLast? with
  | none => simp
  | some last =>
    simp only [Option.map_some, Option.mem_def, Option.some.injEq, forall_eq']
    split <;> omega

/-- The end of the list is the furthest one all along exactly if every call keeps it. -/
theorem endIsFurthest_iff (added : List AddedRange) : EndIsFurthest added ↔ EndsKept added := by
  constructor
  · intro furthest earlier range isPrefix interval reached
    obtain ⟨interval', reached', _⟩ := addRanges_represents (earlier ++ [range])
    have before := furthest earlier ((prefix_append earlier [range]).trans isPrefix) interval reached
    exact (furthest_step reached reached' before).mp (furthest _ isPrefix interval' reached')
  · intro kept earlier
    induction earlier using List.reverseRecOn with
    | nil =>
      rintro - interval ⟨⟩
      rfl
    | append_singleton earlier range ih =>
      intro isPrefix interval' reached'
      obtain ⟨interval, reached, _⟩ := addRanges_represents earlier
      have before := ih ((prefix_append earlier [range]).trans isPrefix) interval reached
      exact (furthest_step reached reached' before).mpr (kept earlier range isPrefix interval reached)

/-- Where no added range is empty or starts at -1, the answer -1 says that no two added ranges overlap. -/
theorem intersectPos_of_represents {added1 added2 : List MonoLiveRange2} {i1 i2 : MonoLiveInterval}
    (represents1 : Represents added1 i1.range) (represents2 : Represents added2 i2.range)
    (proper1 : ∀ r ∈ added1, r.rangeFrom < r.rangeTo ∧ r.rangeFrom ≠ -1)
    (proper2 : ∀ r ∈ added2, r.rangeFrom < r.rangeTo ∧ r.rangeFrom ≠ -1) :
    monoLintervalGetIntersectPos i1 i2 = -1 ↔ ∀ r1 ∈ added1, ∀ r2 ∈ added2, ¬ Overlap r1 r2 := by
  have away : ∀ {added ranges : List MonoLiveRange2}, Represents added ranges →
      (∀ r ∈ added, r.rangeFrom < r.rangeTo ∧ r.rangeFrom ≠ -1) → ∀ r ∈ ranges, r.rangeFrom ≠ -1 := by
    intro added ranges represents proper r member
    obtain ⟨r', member', same⟩ := mem_map.mp (represents.starts (mem_map_of_mem member))
    exact same ▸ (proper r' member').2
  have nonempty1 := fun r member => (proper1 r member).1
  have nonempty2 := fun r member => (proper2 r member).1
  rw [intersectPos_eq_iff (away represents1 proper1) (away represents2 proper2),
    apart_iff (represents1.nonempty nonempty1) (represents2.nonempty nonempty2), apart_iff nonempty1 nonempty2]
  simp only [represents1.someRange (containsUnit_joins _), represents2.someRange (containsUnit_joins _)]

/-! ### The interval of any sequence of calls -/

/-- What `mono_linterval_add_range` guarantees for every sequence of ranges. -/
theorem addRanges_spec (added : List AddedRange) :
    ∃ interval, addRanges added = some interval ∧
      (interval.toInterval.range.map MonoLiveRange2.rangeFrom).Pairwise (· ≤ ·) ∧
      (∀ pos, monoLintervalCovers interval.toInterval pos = true ↔
        ∃ range ∈ added, range.rangeFrom ≤ pos ∧ pos ≤ range.rangeTo) ∧
      (EndIsFurthest added ↔ EndsKept added) ∧
      ∀ other interval', addRanges other = some interval' →
        (∀ range ∈ added ++ other, range.rangeFrom < range.rangeTo ∧ range.rangeFrom ≠ -1) →
        (monoLintervalGetIntersectPos interval.toInterval interval'.toInterval = -1 ↔
          ∀ r1 ∈ added, ∀ r2 ∈ other, ¬ Overlap r1.toMonoLiveRange2 r2.toMonoLiveRange2) := by
  obtain ⟨interval, reached, _, represents⟩ := addRanges_represents added
  refine ⟨interval, reached, represents.sorted, ?_, endIsFurthest_iff added, ?_⟩
  · intro pos
    have sorted := represents.sorted
    rw [startsOf, pairwise_map] at sorted
    rw [monoLintervalCovers, coversLoop_iff pos sorted, represents.someRange (contains_joins pos)]
    simp [SomeRange, Contains, rangesOf]
  · intro other interval' reached' proper
    obtain ⟨_, same, _, represents'⟩ := addRanges_represents other
    cases reached'.symm.trans same
    rw [forall_mem_append] at proper
    rw [intersectPos_of_represents represents represents' (forall_mem_map.mpr proper.1)
      (forall_mem_map.mpr proper.2)]
    simp only [rangesOf, forall_mem_map]

/-- After [0-10] and [2-3], `last_range->to` is 3. The ranges [0-5] and [5-9] become one that meets the empty range
[5-5]. Two intervals that start at -1 meet at -1. -/
theorem addRanges_forgets_end :
    (addRanges [⟨⟨0, 10⟩, by decide⟩, ⟨⟨2, 3⟩, by decide⟩]).bind lastRangeTo = some 3 ∧
      (∃ interval interval', addRanges [⟨⟨0, 5⟩, by decide⟩, ⟨⟨5, 9⟩, by decide⟩] = some interval ∧
        addRanges [⟨⟨5, 5⟩, by decide⟩] = some interval' ∧
        monoLintervalGetIntersectPos interval.toInterval interval'.toInterval = 5 ∧
        ¬ Overlap ⟨0, 5⟩ ⟨5, 5⟩ ∧ ¬ Overlap ⟨5, 9⟩ ⟨5, 5⟩) ∧
      ∃ interval, addRanges [⟨⟨-1, 3⟩, by decide⟩] = some interval ∧
        monoLintervalGetIntersectPos interval.toInterval interval.toInterval = -1 ∧ Overlap ⟨-1, 3⟩ ⟨-1, 3⟩ := by
  refine ⟨by decide, ⟨_, _, rfl, rfl, by decide, ?_, ?_⟩, _, rfl, by decide, ?_⟩ <;> unfold Overlap <;> decide

end MonoRuntime.LinearScan
