/-
Module: MonoRuntime.Eglib.GArray
Purpose: The growing arrays of eglib over the bytes of their allocation, and the list that an array stands for.
Trusted boundary: a request of less than 2 GiB is granted; a source buffer lies outside the array
Main exports: GArrayPriv
-/
import MonoRuntime.Lib.Memory
import Mathlib.Algebra.Order.Ring.Int

namespace MonoRuntime.GArray

open Memory

/-! ### Machine integers -/

/-- Conversion to `guint`. -/
def guint (x : Int) : Nat :=
  (x % 2 ^ 32).toNat

/-- Conversion of an unsigned sum to `gint`. -/
def gint (x : Nat) : Int :=
  Int.bmod x (2 ^ 32)

/-- The result of signed arithmetic, which is undefined outside of the range of `gint`. -/
def signed (x : Int) : Option Int :=
  if -2 ^ 31 ≤ x ∧ x < 2 ^ 31 then some x else none

/-! ### The array -/

/-- `INITIAL_CAPACITY`. -/
def initialCapacity : Int := 16

/-- `GArrayPriv`, with the allocation behind `data` as its bytes. -/
structure GArrayPriv where
  data : List UInt8
  len : Nat
  clear_ : Bool
  elementSize : Int
  zeroTerminated : Bool
  capacity : Int
deriving Repr, DecidableEq

/-- `element_length` and `element_offset` of an unsigned index. The index may be given before its
reduction to 32 bits, since the product is reduced again. -/
def elementLength (p : GArrayPriv) (i : Int) : Nat :=
  guint (i * p.elementSize)

/-- `element_length` and `element_offset` of an index of type `int`. -/
def signedElementLength (p : GArrayPriv) (i : Int) : Option Int :=
  signed (i * p.elementSize)

/-- `while (new_capacity < capacity) new_capacity <<= 1`. After 32 rounds the shift has left the
range, whatever positive capacity it started from. -/
def doubled : Nat → Int → Int → Option Int
  | 0, _, _ => none
  | fuel + 1, newCapacity, capacity =>
      if newCapacity < capacity then
        (signed (newCapacity * 2)).bind fun twice => doubled fuel twice capacity
      else some newCapacity

/-- `g_realloc`: the new bytes are whatever the allocator hands out, and a negative size is a
request that no allocator grants. -/
def gRealloc (data : List UInt8) (size : Int) (fresh : Nat → UInt8) : Option (List UInt8) :=
  if size < 0 then none
  else some (data.take size.toNat ++ (List.range (size.toNat - data.length)).map fresh)

/-- The `memset` of `ensure_capacity`. -/
def clearNew (p : GArrayPriv) (data : List UInt8) (capacity : Int) : Option (List UInt8) :=
  if p.clear_ then do
    let offset ← signedElementLength p p.capacity
    let length ← signedElementLength p (capacity - p.capacity)
    memset data offset.toNat 0 length.toNat
  else some data

/-- `ensure_capacity`. -/
def ensureCapacity (p : GArrayPriv) (capacity : Int) (fresh : Nat → UInt8) : Option GArrayPriv :=
  if capacity < p.capacity then some p
  else do
    let capacity ← doubled 32 (max p.capacity initialCapacity) capacity
    let size ← signedElementLength p capacity
    let data ← gRealloc p.data size fresh
    let data ← clearNew p data capacity
    some { p with data := data, capacity := capacity }

/-- `g_array_new`. -/
def gArrayNew (zeroTerminated clear_ : Bool) (elementSize : Nat) (fresh : Nat → UInt8) :
    Option GArrayPriv :=
  ensureCapacity
    { data := [], len := 0, clear_ := clear_, elementSize := gint elementSize,
      zeroTerminated := zeroTerminated, capacity := 0 }
    initialCapacity fresh

/-- `priv->zero_terminated ? 1 : 0`. -/
def GArrayPriv.extra (p : GArrayPriv) : Nat :=
  if p.zeroTerminated then 1 else 0

/-- The `memset` of the element after the last one, with which every operation ends. -/
def terminate (p : GArrayPriv) : Option GArrayPriv :=
  if p.zeroTerminated then
    (memset p.data (elementLength p p.len) 0 p.elementSize.toNat).map fun data =>
      { p with data := data }
  else some p

/-- `g_array_append_vals`. -/
def gArrayAppendVals (p : GArrayPriv) (data : List UInt8) (len : Nat) (fresh : Nat → UInt8) :
    Option GArrayPriv := do
  let p ← ensureCapacity p (gint (p.len + len + p.extra)) fresh
  let source ← read data 0 (elementLength p len)
  let mem ← overwrite p.data (elementLength p p.len) source
  terminate { p with data := mem, len := guint (p.len + len) }

/-- `g_array_insert_vals`. -/
def gArrayInsertVals (p : GArrayPriv) (index : Nat) (data : List UInt8) (len : Nat)
    (fresh : Nat → UInt8) : Option GArrayPriv := do
  let p ← ensureCapacity p (gint (p.len + len + p.extra)) fresh
  let mem ← memmove p.data (elementLength p (index + len)) (elementLength p index)
    (elementLength p (p.len - index))
  let source ← read data 0 (elementLength p len)
  let mem ← overwrite mem (elementLength p index) source
  terminate { p with data := mem, len := guint (p.len + len) }

/-- `g_array_remove_index`: the move takes `len - index` elements from `index + 1` on. -/
def gArrayRemoveIndex (p : GArrayPriv) (index : Nat) : Option GArrayPriv := do
  let mem ← memmove p.data (elementLength p index) (elementLength p (index + 1))
    (elementLength p (p.len - index))
  terminate { p with data := mem, len := guint (p.len - 1) }

/-- `g_array_remove_index_fast`: the move takes `len - index` elements from the last one on. -/
def gArrayRemoveIndexFast (p : GArrayPriv) (index : Nat) : Option GArrayPriv := do
  let mem ← memmove p.data (elementLength p index) (elementLength p (p.len - 1))
    (elementLength p (p.len - index))
  terminate { p with data := mem, len := guint (p.len - 1) }

/-! ### What the operations are for -/

/-- A call of one of the four operations; elements are given as blocks of the element size. -/
inductive Call (size : Nat) where
  | appendVals (vals : List (Block UInt8 size))
  | insertVals (index : Nat) (vals : List (Block UInt8 size))
  | removeIndex (index : Nat)
  | removeIndexFast (index : Nat)

variable {size : Nat}

/-- The call on the array, with the bytes that its allocation finds. -/
def Call.apply (fresh : Nat → UInt8) (p : GArrayPriv) : Call size → Option GArrayPriv
  | .appendVals vals => gArrayAppendVals p (flat vals) vals.length fresh
  | .insertVals index vals => gArrayInsertVals p index (flat vals) vals.length fresh
  | .removeIndex index => gArrayRemoveIndex p index
  | .removeIndexFast index => gArrayRemoveIndexFast p index

/-- Move the last element into a hole and shorten the list by one. -/
def moveLast {α : Type} (items : List α) (index : Nat) : List α :=
  match items.getLast? with
  | none => items
  | some last => (items.set index last).dropLast

/-- The call on a mathematical list. -/
def Call.onList (items : List (Block UInt8 size)) : Call size → List (Block UInt8 size)
  | .appendVals vals => items ++ vals
  | .insertVals index vals => items.take index ++ vals ++ items.drop index
  | .removeIndex index => items.eraseIdx index
  | .removeIndexFast index => moveLast items index

/-- What a caller keeps to: lengths of type `guint`, an insertion at most at the end, a removal
below it. -/
def Call.InRange (p : GArrayPriv) : Call size → Prop
  | .appendVals vals => vals.length < 2 ^ 32
  | .insertVals index vals => vals.length < 2 ^ 32 ∧ index ≤ p.len
  | .removeIndex index => index < p.len
  | .removeIndexFast index => index < p.len

/-- The array holds the elements of the list, the allocation is as large as the capacity says, and
a zero-terminated array has a zero element after the last one. -/
structure Refines (size : Nat) (p : GArrayPriv) (items : List (Block UInt8 size)) : Prop where
  elementSize : p.elementSize = size
  len : p.len = items.length
  contents : ∃ rest, p.data = flat items ++ rest
  allocated : (p.data.length : Int) = p.capacity * p.elementSize
  terminated : p.zeroTerminated = true →
    ∃ rest, p.data = flat items ++ (List.replicate size 0 ++ rest)

/-! ### Runs -/

/-- A call together with what its allocation finds in the new bytes. -/
abbrev Step (size : Nat) : Type :=
  Call size × (Nat → UInt8)

/-- The state after a list of calls; nothing when one of them leaves the allocation. -/
def run (p : GArrayPriv) (steps : List (Step size)) : Option GArrayPriv :=
  steps.foldlM (fun p step => step.1.apply step.2 p) p

/-- The state after the creation of the array and a list of calls. -/
def runNew (zeroTerminated clear_ : Bool) (fresh : Nat → UInt8) (steps : List (Step size)) :
    Option GArrayPriv :=
  (gArrayNew zeroTerminated clear_ size fresh).bind fun p => run p steps

/-- The list after the same calls. -/
def listAfter (steps : List (Step size)) : List (Block UInt8 size) :=
  steps.foldl (fun items step => step.1.onList items) []

/-! ### When the code does it right -/

/-- The elements fit after some doublings that stay within `int`, in elements and in bytes. With
elements of no bytes a length whose sign bit is set passes for a small one, which is harmless. -/
def GArrayPriv.Fits (p : GArrayPriv) (len : Nat) : Prop :=
  (∃ k : Nat, (p.len + len + p.extra : Int) ≤ p.capacity * 2 ^ k ∧ p.capacity * 2 ^ k < 2 ^ 31
    ∧ p.capacity * 2 ^ k * p.elementSize < 2 ^ 31)
  ∨ (p.elementSize = 0 ∧ p.len + len < 2 ^ 32 ∧ 2 ^ 31 ≤ p.len + len + p.extra)

/-- The bytes of the slot `i`, in use or not. -/
def GArrayPriv.slot (p : GArrayPriv) (i : Nat) : List UInt8 :=
  (p.data.drop (i * p.elementSize.toNat)).take p.elementSize.toNat

/-- The condition on the flags and the element size of a new array: a terminator is asked for only
together with clearing. -/
def NewMeets (zeroTerminated clear_ : Bool) (elementSize : Nat) : Prop :=
  16 * elementSize < 2 ^ 31 ∧ (zeroTerminated = true → clear_ = true ∨ elementSize = 0)

/-- The condition on the state before a call. A removal moves the slot after the last element as
well, so it has to be there; a fast removal drags along as many slots as follow the hole, which is
right when they are there and hold what the elements between the hole and the last one hold. -/
def Call.Meets (p : GArrayPriv) : Call size → Prop
  | .appendVals vals => p.Fits vals.length
  | .insertVals _ vals => p.Fits vals.length
  | .removeIndex _ => p.elementSize = 0 ∨ (p.len : Int) < p.capacity
  | .removeIndexFast index =>
      p.elementSize = 0 ∨
        ((p.len - 1 + (p.len - index) : Int) ≤ p.capacity ∧
          ∀ j, index < j → j + 1 < p.len → p.slot j = p.slot (p.len - 1 + (j - index)))

/-- Every call keeps to its range in the state that it finds. -/
def InRange (zeroTerminated clear_ : Bool) (fresh : Nat → UInt8) (steps : List (Step size)) : Prop :=
  ∀ earlier step later p, steps = earlier ++ step :: later →
    runNew zeroTerminated clear_ fresh earlier = some p → step.1.InRange p

/-- Every call meets its condition in the state that it finds. -/
def EveryCallMeets (zeroTerminated clear_ : Bool) (fresh : Nat → UInt8)
    (steps : List (Step size)) : Prop :=
  ∀ earlier step later p, steps = earlier ++ step :: later →
    runNew zeroTerminated clear_ fresh earlier = some p → step.1.Meets p

/-- What is promised of a run: no state of it is lost to an access outside of the allocation, and
each is the list after the same calls. -/
def Faithful (zeroTerminated clear_ : Bool) (fresh : Nat → UInt8) (steps : List (Step size)) : Prop :=
  ∀ earlier later, steps = earlier ++ later →
    ∃ p, runNew zeroTerminated clear_ fresh earlier = some p ∧ Refines size p (listAfter earlier)

end MonoRuntime.GArray
