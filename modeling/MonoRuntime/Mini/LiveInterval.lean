/-
Module: MonoRuntime.Mini.LiveInterval
Purpose: How a live interval of `mini/liveness.c` grows: `mono_linterval_add_range`, which puts a range into the list
  or merges it with a range that it continues. A range stands at an address, so that `last_range` is a pointer into the
  list. An assertion that fails is the result `none`.
Trusted boundary: human-reviewed translation of the source
Main exports: RangeCell
-/
import MonoRuntime.Mini.LinearScan

namespace MonoRuntime.LinearScan

/-- A `MonoLiveRange2` in memory. -/
structure RangeCell where
  addr : Nat
  range : MonoLiveRange2
  deriving DecidableEq, Repr

/-- A `MonoLiveInterval` in memory: the list that starts at `range`, and the address in `last_range`. -/
structure LinkedInterval where
  range : List RangeCell
  lastRange : Option Nat
  deriving DecidableEq, Repr

/-- An interval without ranges. -/
def LinkedInterval.empty : LinkedInterval :=
  { range := [], lastRange := none }

/-- What the queries see of an interval. -/
def LinkedInterval.toInterval (interval : LinkedInterval) : MonoLiveInterval :=
  { range := interval.range.map RangeCell.range }

/-- `range->from = from`. -/
def RangeCell.setFrom (cell : RangeCell) (rangeFrom : Int) : RangeCell :=
  { cell with range := { cell.range with rangeFrom := rangeFrom } }

/-- `range->to = to`. -/
def RangeCell.setTo (cell : RangeCell) (rangeTo : Int) : RangeCell :=
  { cell with range := { cell.range with rangeTo := rangeTo } }

/-- The ranges before and behind the place for a new one. The last before and the first behind are `prev_range` and
`next_range`. -/
def findPlace (rangeFrom : Int) : List RangeCell → List RangeCell × List RangeCell
  | [] => ([], [])
  | cell :: next =>
    if cell.range.rangeFrom ≤ rangeFrom then
      let (before, behind) := findPlace rangeFrom next
      (cell :: before, behind)
    else ([], cell :: next)

/-- The first range is extended backwards. -/
def extendsFirst (interval : LinkedInterval) (rangeFrom rangeTo : Int) : Bool :=
  match interval.range with
  | [] => false
  | first :: _ => first.range.rangeFrom > rangeFrom ∧ first.range.rangeFrom = rangeTo

/-- `mono_linterval_add_range`. The ranges are never freed, so that their number is the address of a new one. -/
def monoLintervalAddRange (interval : LinkedInterval) (rangeFrom rangeTo : Int) : Option LinkedInterval :=
  if rangeTo < rangeFrom then none
  else if extendsFirst interval rangeFrom rangeTo then
    some { interval with range := interval.range.modifyHead (·.setFrom rangeFrom) }
  else
    let (before, behind) := findPlace rangeFrom interval.range
    if before.getLast?.any (·.range.rangeTo = rangeFrom) then
      some { interval with range := before.dropLast ++ (before.getLast?.map (·.setTo rangeTo)).toList ++ behind }
    else if behind.head?.any (·.range.rangeFrom = rangeTo) then
      some { interval with range := before ++ behind.modifyHead (·.setFrom rangeFrom) }
    else
      let new : RangeCell := { addr := interval.range.length, range := ⟨rangeFrom, rangeTo⟩ }
      some
        { range := before ++ new :: behind
          lastRange := if behind.isEmpty then some new.addr else interval.lastRange }

/-- `interval->last_range->to`. -/
def lastRangeTo (interval : LinkedInterval) : Option Int :=
  interval.lastRange.bind fun addr => (interval.range.find? (·.addr = addr)).map (·.range.rangeTo)

/-- A range that is added: its end is not before its start. -/
structure AddedRange extends MonoLiveRange2 where
  ordered : rangeFrom ≤ rangeTo

/-- Ranges added one after the other. -/
def addRanges (added : List AddedRange) : Option LinkedInterval :=
  added.foldlM (fun interval range => monoLintervalAddRange interval range.rangeFrom range.rangeTo) .empty

end MonoRuntime.LinearScan
