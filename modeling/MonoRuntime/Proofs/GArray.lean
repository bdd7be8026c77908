/-
Module: MonoRuntime.Proofs.GArray
Purpose: A growing array refines the mathematical list over every run whose calls stay clear of the oversized moves and of the integer range.
Trusted boundary: none
Main exports: gArray_refinesList, gArray_fastRemovalLosesAnElement
-/
import MonoRuntime.Eglib.GArray

namespace MonoRuntime.GArray

open Memory List Option

variable {size : Nat}

/-! ### Machine integers that do not wrap -/

variable {x : Int}

theorem guint_eq (nonneg : 0 ≤ x) (small : x < 2 ^ 32) : guint x = x.toNat := by
  unfold guint
  rw [Int.emod_eq_of_lt nonneg small]

theorem gint_eq {x : Nat} (small : x < 2 ^ 31) : gint x = x := by
  apply Int.bmod_eq_of_le
  · omega
  · omega

theorem gint_wrapped {x : Nat} (large : 2 ^ 31 ≤ x) (small : x ≤ 2 ^ 32) : gint x ≤ 0 := by
  unfold gint
  rw [Int.bmod_def]
  split
  · omega
  · omega

theorem signed_eq (nonneg : 0 ≤ x) (small : x < 2 ^ 31) : signed x = some x := by
  unfold signed
  rw [if_pos (And.intro (by omega) small)]

variable {p : GArrayPriv} {i cap n index : Nat} {items slots blocks : List (Block UInt8 size)}

theorem elementLength_eq (sized : p.elementSize = size) (small : i * size < 2 ^ 32) : elementLength p i = i * size := by
  unfold elementLength
  rw [sized, ← Int.natCast_mul, guint_eq (Int.natCast_nonneg _) (by exact_mod_cast small),
    Int.toNat_natCast]

theorem signedElementLength_eq (sized : p.elementSize = size) (small : i * size < 2 ^ 31) :
    signedElementLength p i = some ((i * size : Nat) : Int) := by
  unfold signedElementLength
  rw [sized, ← Int.natCast_mul]
  exact signed_eq (Int.natCast_nonneg _) (by exact_mod_cast small)

/-! ### Growing -/

theorem twice_pow (new k : Nat) : new * 2 * 2 ^ k = new * 2 ^ (k + 1) := by
  rw [Nat.pow_succ', Nat.mul_assoc]

variable (k : Nat)

theorem doubled_stops (fuel new needed : Nat) (positive : 0 < new) (enough : needed ≤ new * 2 ^ k)
    (small : new * 2 ^ k < 2 ^ 31) (fueled : k < fuel) :
    ∃ j ≤ k, doubled fuel new needed = some ((new * 2 ^ j : Nat) : Int) ∧ needed ≤ new * 2 ^ j := by
  induction k generalizing fuel new with
  | zero =>
    obtain ⟨fuel, rfl⟩ : ∃ n, fuel = n + 1 := ⟨fuel - 1, by omega⟩
    refine ⟨0, Nat.le_refl 0, ?_, enough⟩
    unfold doubled
    rw [if_neg (by omega)]
    simp
  | succ k ih =>
    obtain ⟨fuel, rfl⟩ : ∃ n, fuel = n + 1 := ⟨fuel - 1, by omega⟩
    have twice := twice_pow new k
    unfold doubled
    by_cases more : (new : Int) < needed
    · have step : new * 2 ≤ new * 2 ^ (k + 1) := by
        rw [← twice]
        exact Nat.le_mul_of_pos_right _ (Nat.two_pow_pos k)
      have inside : signed ((new : Int) * 2) = some ((new * 2 : Nat) : Int) := by
        exact signed_eq (by omega) (by omega)
      obtain ⟨j, least, found, large⟩ := ih fuel (new * 2) (by omega) (by omega) (by omega)
        (by omega)
      have again := twice_pow new j
      refine ⟨j + 1, by omega, ?_, by omega⟩
      rw [if_pos more, inside, bind_some, found, again]
    · refine ⟨0, by omega, ?_, by omega⟩
      rw [if_neg more]
      simp

theorem GArrayPriv.extra_le (p : GArrayPriv) : p.extra ≤ 1 := by
  unfold GArrayPriv.extra
  split
  · exact Nat.le_refl 1
  · exact Nat.zero_le 1

theorem gRealloc_grows {data : List UInt8} {bytes : Nat} (fresh : Nat → UInt8) (larger : data.length ≤ bytes) :
    ∃ more, gRealloc data bytes fresh = some (data ++ more) ∧ (data ++ more).length = bytes := by
  refine ⟨(List.range (bytes - data.length)).map fresh, ?_, ?_⟩
  · unfold gRealloc
    rw [if_neg (Int.not_lt.mpr (Int.natCast_nonneg bytes)), Int.toNat_natCast,
      take_of_length_le larger]
  · simp only [length_append, length_map, length_range]
    omega

theorem clearNew_spec {more : List UInt8} {cap' : Nat} (sized : p.elementSize = size) (capacity : p.capacity = cap)
    (whole : p.data.length = cap * size) (larger : cap ≤ cap') (grown : (p.data ++ more).length = cap' * size)
    (small : cap' * size < 2 ^ 31) : ∃ more', clearNew p (p.data ++ more) cap' = some (p.data ++ more')
      ∧ more'.length = more.length ∧ (p.clear_ = true → more' = List.replicate more.length 0) := by
  unfold clearNew
  split
  next cleared =>
    have monotone : cap * size ≤ cap' * size := Nat.mul_le_mul_right size larger
    have split : (cap' - cap) * size = cap' * size - cap * size := Nat.sub_mul ..
    have offset := signedElementLength_eq (p := p) (i := cap) sized (by omega)
    have length := signedElementLength_eq (p := p) (i := cap' - cap) sized (by omega)
    have difference : ((cap' - cap : Nat) : Int) = (cap' : Int) - cap := by omega
    have count : (cap' - cap) * size = more.length := by
      rw [length_append] at grown
      omega
    rw [difference] at length
    rw [capacity, offset, length, count, ← whole]
    refine ⟨List.replicate more.length 0, ?_, length_replicate, fun _ => rfl⟩
    have zeros : more.length = (List.replicate more.length (0 : UInt8)).length :=
      length_replicate.symm
    have stored := overwrite_middle p.data [] zeros
    rw [append_nil, append_nil] at stored
    exact stored
  next uncleared => exact ⟨more, rfl, rfl, fun cleared => absurd cleared uncleared⟩

theorem ensureCapacity_spec {needed k : Nat} (fresh : Nat → UInt8) (sized : p.elementSize = size)
    (capacity : p.capacity = cap) (whole : p.data.length = cap * size) (enough : needed ≤ max cap 16 * 2 ^ k)
    (small : max cap 16 * 2 ^ k < 2 ^ 31) (bytes : max cap 16 * 2 ^ k * size < 2 ^ 31) :
    ∃ (cap' : Nat) (more : List UInt8), ensureCapacity p needed fresh
          = some { p with data := p.data ++ more, capacity := cap' }
        ∧ needed ≤ cap'
        ∧ cap ≤ cap'
        ∧ (p.data ++ more).length = cap' * size
        ∧ cap' * size < 2 ^ 31
        ∧ (p.clear_ = true → more = List.replicate more.length 0) := by
  have first : max cap 16 ≤ max cap 16 * 2 ^ k := Nat.le_mul_of_pos_right _ (Nat.two_pow_pos k)
  unfold ensureCapacity
  by_cases room : (needed : Int) < p.capacity
  · rw [if_pos room]
    have least : cap * size ≤ max cap 16 * 2 ^ k * size :=
      Nat.mul_le_mul_right size (by omega)
    refine ⟨cap, [], ?_, by omega, Nat.le_refl cap, ?_, by omega, fun _ => rfl⟩
    · rw [append_nil, ← capacity]
    · rw [append_nil, whole]
  · rw [if_neg room]
    have exponent : k < 32 := by
      have pow := Nat.pow_lt_pow_iff_right (a := 2) (n := k) (m := 31) (by omega)
      have below : 2 ^ k < 2 ^ 31 := by
        have := Nat.le_mul_of_pos_left (2 ^ k) (show 0 < max cap 16 by omega)
        omega
      have := pow.mp below
      omega
    have started : max p.capacity initialCapacity = ((max cap 16 : Nat) : Int) := by
      unfold initialCapacity
      omega
    obtain ⟨j, least, found, large⟩ := doubled_stops k 32 (max cap 16) needed (by omega) enough
      small exponent
    have below : max cap 16 * 2 ^ j ≤ max cap 16 * 2 ^ k :=
      Nat.mul_le_mul_left _ (Nat.pow_le_pow_right (by omega) least)
    have fits : max cap 16 * 2 ^ j * size < 2 ^ 31 :=
      Nat.lt_of_le_of_lt (Nat.mul_le_mul_right size below) bytes
    have at_least : max cap 16 ≤ max cap 16 * 2 ^ j :=
      Nat.le_mul_of_pos_right _ (Nat.two_pow_pos j)
    generalize max cap 16 * 2 ^ j = cap' at found large below fits at_least
    have larger : cap ≤ cap' := by omega
    have shorter : p.data.length ≤ cap' * size := by
      rw [whole]
      exact Nat.mul_le_mul_right size larger
    obtain ⟨more, granted, grown⟩ := gRealloc_grows fresh shorter
    obtain ⟨more', cleared, same, zeros⟩ :=
      clearNew_spec sized capacity whole larger grown fits
    refine ⟨cap', more', ?_, large, larger, ?_, fits, ?_⟩
    · rw [started, found]
      simp only [bind_eq_bind, bind_some, signedElementLength_eq sized fits, granted,
        cleared]
    · rw [← grown, length_append, length_append, same]
    · intro flag
      rw [zeros flag, length_replicate]

/-! ### The invariant of a run -/

/-- The capacity of an array that was created: it is positive and its bytes stay below 2 GiB. -/
structure Sized (size : Nat) (p : GArrayPriv) (cap : Nat) : Prop where
  elementSize : p.elementSize = size
  capacity : p.capacity = cap
  positive : 16 ≤ cap
  bytes : cap * size < 2 ^ 31
  whole : p.data.length = cap * size

/-- Between two calls the array refines the list, inside of the bounds of its capacity. -/
structure Inv (size : Nat) (p : GArrayPriv) (items : List (Block UInt8 size)) : Prop where
  refines : Refines size p items
  sized : ∃ cap, Sized size p cap
  small : p.len < 2 ^ 32

/-- Behind the elements in use there are as many slots as the allocation has bytes for. Elements
of no bytes have any number of slots. -/
theorem slots_behind {mem rest : List UInt8} (whole : mem.length = cap * size) (front : mem = flat items ++ rest)
    (enough : size = 0 ∨ items.length + n ≤ cap) :
    ∃ slots : List (Block UInt8 size), mem = flat (items ++ slots) ∧ n ≤ slots.length := by
  have total : rest.length = (cap - items.length) * size := by
    have length := congrArg List.length front
    rw [length_append, length_flat, whole] at length
    rw [Nat.sub_mul]
    omega
  rcases enough with nothing | enough
  · subst nothing
    refine ⟨List.replicate n (Block.filled 0 0), ?_, Nat.le_of_eq length_replicate.symm⟩
    rw [front, flat_append, eq_nil_of_length_eq_zero total]
    have none : (flat (List.replicate n (Block.filled (0 : UInt8) 0))).length = 0 := by
      rw [length_flat, Nat.mul_zero]
    rw [eq_nil_of_length_eq_zero none]
  · obtain ⟨slots, count, cells⟩ := exists_flat (cap - items.length) rest total
    refine ⟨slots, ?_, by omega⟩
    rw [flat_append, cells]
    exact front

theorem terminate_spec (sized : Sized size p cap) (len : p.len = items.length) (small : p.len < 2 ^ 32)
    (data : p.data = flat (items ++ slots)) (room : p.extra ≤ slots.length) :
    ∃ p', terminate p = some p' ∧ Inv size p' items := by
  unfold terminate
  by_cases flag : p.zeroTerminated = true
  · rw [if_pos flag]
    cases slots with
    | nil =>
      rw [GArrayPriv.extra, if_pos flag] at room
      cases room
    | cons slot slots =>
      have inside : items.length * size < 2 ^ 32 := by
        have length := sized.whole
        have := sized.bytes
        rw [data, length_flat, length_append, Nat.add_mul] at length
        omega
      have bytes : p.elementSize.toNat = size := by rw [sized.elementSize, Int.toNat_natCast]
      have zeros : slot.cells.length = (List.replicate size (0 : UInt8)).length := by
        rw [slot.whole, length_replicate]
      have stored := overwrite_middle (flat items) (flat slots) zeros
      rw [length_flat] at stored
      have same := length_overwrite stored
      have offset := elementLength_eq (p := p) (i := items.length) sized.elementSize inside
      have written : memset p.data (elementLength p p.len) 0 p.elementSize.toNat
          = some (flat items ++ (List.replicate size 0 ++ flat slots)) := by
        rw [len, offset, bytes, data, flat_append, flat_cons]
        exact stored
      rw [written]
      have length : (flat items ++ (List.replicate size 0 ++ flat slots)).length = cap * size := by
        rw [same, ← flat_cons, ← flat_append, ← data]
        exact sized.whole
      refine ⟨_, rfl, ⟨⟨sized.elementSize, len, ⟨_, rfl⟩, ?_, fun _ => ⟨_, rfl⟩⟩,
        ⟨cap, ⟨sized.elementSize, sized.capacity, sized.positive, sized.bytes, length⟩⟩, small⟩⟩
      rw [length, sized.capacity, sized.elementSize, Int.natCast_mul]
  · rw [if_neg flag]
    refine ⟨p, rfl, ⟨⟨sized.elementSize, len, ⟨flat slots, ?_⟩, ?_, fun set => absurd set flag⟩,
      ⟨cap, sized⟩, small⟩⟩
    · rw [data, flat_append]
    · rw [sized.whole, sized.capacity, sized.elementSize, Int.natCast_mul]

/-- The allocation that an insertion of `n` elements works in. -/
structure Grown (size : Nat) (p p' : GArrayPriv) (items slots : List (Block UInt8 size))
    (cap n : Nat) : Prop where
  sized : Sized size p' cap
  len : p'.len = p.len
  flag : p'.zeroTerminated = p.zeroTerminated
  data : p'.data = flat (items ++ slots)
  room : n + p.extra ≤ slots.length
  small : p.len + n < 2 ^ 32

variable {vals : List (Block UInt8 size)} {α : Type} {zeroTerminated clear_ : Bool} (fresh : Nat → UInt8)

theorem grown_spec (inv : Inv size p items) (fits : p.Fits n) :
    ∃ p' slots cap, ensureCapacity p (gint (p.len + n + p.extra)) fresh = some p' ∧ Grown size p p' items slots cap n := by
  obtain ⟨cap, sized⟩ := inv.sized
  obtain ⟨rest, contents⟩ := inv.refines.contents
  rcases fits with ⟨k, enough, small, bytes⟩ | ⟨nothing, short, wrapped⟩
  · have start : max cap 16 = cap := Nat.max_eq_left sized.positive
    rw [sized.capacity] at enough small bytes
    rw [sized.elementSize] at bytes
    have enough' : p.len + n + p.extra ≤ max cap 16 * 2 ^ k := by
      rw [start]
      exact_mod_cast enough
    have small' : max cap 16 * 2 ^ k < 2 ^ 31 := by
      rw [start]
      exact_mod_cast small
    have bytes' : max cap 16 * 2 ^ k * size < 2 ^ 31 := by
      rw [start]
      exact_mod_cast bytes
    obtain ⟨cap', more, grown, large, larger, whole, least, -⟩ :=
      ensureCapacity_spec fresh sized.elementSize sized.capacity sized.whole enough' small' bytes'
    have front : p.data ++ more = flat items ++ (rest ++ more) := by
      rw [contents, append_assoc]
    obtain ⟨slots, data, room⟩ := slots_behind (n := n + p.extra) whole front
      (Or.inr (by rw [← inv.refines.len]; omega))
    have needed : gint (p.len + n + p.extra) = ((p.len + n + p.extra : Nat) : Int) :=
      gint_eq (by omega)
    have positive := sized.positive
    refine ⟨{ p with data := p.data ++ more, capacity := cap' }, slots, cap', ?_,
      ⟨sized.elementSize, rfl, Nat.le_trans positive larger, least, whole⟩, rfl, rfl, data, room, ?_⟩
    · rw [needed]
      exact grown
    · have below : p.len + n + p.extra < 2 ^ 31 := Nat.lt_of_le_of_lt enough' small'
      clear enough enough' small small' bytes bytes'
      omega
  · have none : size = 0 := by
      have := sized.elementSize
      omega
    obtain ⟨slots, data, room⟩ := slots_behind (n := n + p.extra) sized.whole contents (Or.inl none)
    have flag := p.extra_le
    have early : gint (p.len + n + p.extra) < p.capacity := by
      have := gint_wrapped wrapped (by omega)
      have := sized.capacity
      have := sized.positive
      omega
    refine ⟨p, slots, cap, ?_, sized, rfl, rfl, data, room, short⟩
    unfold ensureCapacity
    rw [if_pos early]

/-! ### The operations on whole blocks -/

theorem Sized.offset (sized : Sized size p cap) (data : p.data = flat blocks) (i : Nat) (index : Int)
    (inside : i ≤ blocks.length) (same : index = i) : elementLength p index = i * size := by
  have total : blocks.length * size = cap * size := by
    rw [← length_flat, ← data]
    exact sized.whole
  have below : i * size ≤ blocks.length * size := Nat.mul_le_mul_right size inside
  have small := sized.bytes
  rw [same]
  exact elementLength_eq sized.elementSize (by omega)

theorem Sized.stored {len : Nat} {after : List (Block UInt8 size)} (sized : Sized size p cap)
    (data : p.data = flat blocks) (same : after.length = blocks.length) :
    Sized size { p with data := flat after, len := len } cap := by
  refine ⟨sized.elementSize, sized.capacity, sized.positive, sized.bytes, ?_⟩
  rw [length_flat, same, ← length_flat, ← data]
  exact sized.whole

theorem read_vals (vals : List (Block UInt8 size)) : read (flat vals) 0 (vals.length * size) = some (flat vals) := by
  have found := read_middle [] (flat vals) []
  rw [append_nil, length_flat] at found
  exact found

theorem split_slots (room : n ≤ slots.length) : ∃ old free, slots = old ++ free ∧ old.length = n := by
  refine ⟨slots.take n, slots.drop n, (take_append_drop n slots).symm, ?_⟩
  rw [length_take]
  exact Nat.min_eq_left room

theorem Grown.terminate {p' : GArrayPriv} (room : Grown size p p' items slots cap n)
    (after free : List (Block UInt8 size)) (len : p.len = items.length) (total : after.length = items.length + n)
    (same : (after ++ free).length = (items ++ slots).length) :
    ∃ q, GArray.terminate { p' with data := flat (after ++ free), len := guint (p'.len + n) }
        = some q ∧ Inv size q after := by
  have short := room.small
  have enough := room.room
  have length : guint (p'.len + n) = after.length := by
    rw [room.len, guint_eq (by omega) (by omega)]
    omega
  have behind : p.extra ≤ free.length := by
    simp only [length_append] at same
    omega
  rw [length]
  refine terminate_spec (room.sized.stored room.data same) rfl ?_ rfl ?_
  · show after.length < 2 ^ 32
    omega
  · rw [GArrayPriv.extra] at behind ⊢
    rw [← room.flag] at behind
    exact behind

theorem appendVals_spec (inv : Inv size p items) (fits : p.Fits vals.length) :
    ∃ p', gArrayAppendVals p (flat vals) vals.length fresh = some p' ∧ Inv size p' (items ++ vals) := by
  obtain ⟨grown, slots, cap, ensured, room⟩ := grown_spec fresh inv fits
  obtain ⟨old, free, rfl, count⟩ := split_slots (Nat.le_trans (Nat.le_add_right _ _) room.room)
  have length : grown.len = items.length := by rw [room.len, inv.refines.len]
  have stored := overwrite_flat (overwrite_middle items free count)
  have source := room.sized.offset room.data vals.length vals.length
    (by simp only [length_append]; omega) rfl
  have target := room.sized.offset room.data items.length grown.len
    (by simp only [length_append]; omega) (by rw [length])
  obtain ⟨p', ended, inv'⟩ := room.terminate (items ++ vals) free
    inv.refines.len length_append (by simp only [length_append]; omega)
  refine ⟨p', ?_, inv'⟩
  rw [append_assoc] at ended
  unfold gArrayAppendVals
  rw [ensured]
  simp only [bind_eq_bind, bind_some, source, target, read_vals, room.data, stored]
  exact ended

/-- Inserting refines inserting: the elements from the index on move behind the new ones. -/
theorem insertVals_spec (inv : Inv size p items) (fits : p.Fits vals.length) (inside : index ≤ p.len) :
    ∃ p', gArrayInsertVals p index (flat vals) vals.length fresh = some p'
      ∧ Inv size p' (items.take index ++ vals ++ items.drop index) := by
  obtain ⟨grown, slots, cap, ensured, room⟩ := grown_spec fresh inv fits
  obtain ⟨old, free, rfl, count⟩ := split_slots (Nat.le_trans (Nat.le_add_right _ _) room.room)
  have length : grown.len = items.length := by rw [room.len, inv.refines.len]
  have same : items.take index ++ items.drop index = items := take_append_drop index items
  have first : (items.take index).length = index := by
    rw [length_take, ← inv.refines.len]
    exact Nat.min_eq_left inside
  rw [← same] at length room
  generalize items.take index = before, items.drop index = behind at *
  rw [length_append, first] at length
  have offset (i : Nat) (position : Int) (low : i ≤ index + behind.length + old.length)
      (given : position = i) : elementLength grown position = i * size := by
    refine room.sized.offset room.data i position ?_ given
    simp only [length_append]
    omega
  -- the free slots and the elements behind the index change places
  obtain ⟨hole, rest, middle, holeLength, restLength⟩ :
      ∃ hole rest, behind ++ old = hole ++ rest ∧ hole.length = old.length
        ∧ rest.length = behind.length := by
    refine ⟨(behind ++ old).take old.length, (behind ++ old).drop old.length,
      (take_append_drop _ _).symm, ?_, ?_⟩
    · rw [length_take, length_append]
      omega
    · rw [length_drop, length_append]
      omega
  have layout : before ++ behind ++ (old ++ free) = (before ++ hole) ++ (rest ++ free) := by
    rw [append_assoc, ← append_assoc behind, middle]
    simp only [append_assoc]
  have moved : memmove (before ++ behind ++ (old ++ free)) (index + old.length) index behind.length
      = some (before ++ hole ++ (behind ++ free)) := by
    have found := read_middle before behind (old ++ free)
    rw [first, ← append_assoc] at found
    have stored := overwrite_middle (before ++ hole) free restLength
    rw [length_append, first, holeLength, ← layout] at stored
    unfold memmove
    rw [found]
    exact stored
  have stored := overwrite_middle before (behind ++ free) (holeLength.trans count)
  rw [first, ← append_assoc] at stored
  obtain ⟨p', ended, inv'⟩ := room.terminate (before ++ vals ++ behind) free
    (by rw [same]; exact inv.refines.len)
    (by simp only [length_append]; omega) (by simp only [length_append]; omega)
  refine ⟨p', ?_, inv'⟩
  have all : before ++ vals ++ behind ++ free = before ++ (vals ++ (behind ++ free)) := by
    simp only [append_assoc]
  rw [all] at ended
  unfold gArrayInsertVals
  rw [ensured]
  simp only [bind_eq_bind, bind_some]
  rw [offset (index + old.length) _ (by omega) (by omega), offset index index (by omega) rfl,
    offset behind.length _ (by omega) (by omega),
    offset vals.length vals.length (by omega) rfl, room.data, memmove_flat moved]
  simp only [bind_some, read_vals, overwrite_flat stored]
  exact ended

/-! ### Removals -/

theorem split_at_index {items : List α} (inside : index < items.length) :
    ∃ before removed behind, items = before ++ removed :: behind ∧ before.length = index := by
  refine ⟨items.take index, items[index], items.drop (index + 1), ?_, ?_⟩
  · rw [getElem_cons_drop, take_append_drop]
  · rw [length_take]
    omega

theorem Inv.terminate (inv : Inv size p items) (data : p.data = flat (items ++ slots))
    (after free : List (Block UInt8 size)) (total : items.length = after.length + 1)
    (same : (after ++ free).length = (items ++ slots).length) :
    ∃ q, GArray.terminate { p with data := flat (after ++ free), len := guint (p.len - 1) }
        = some q ∧ Inv size q after := by
  obtain ⟨cap, sized⟩ := inv.sized
  have small := inv.small
  have length : guint ((p.len : Int) - 1) = after.length := by
    rw [inv.refines.len] at small ⊢
    rw [guint_eq (by omega) (by omega)]
    omega
  have behind : p.extra ≤ free.length := by
    have flag := p.extra_le
    simp only [length_append] at same
    omega
  rw [inv.refines.len] at small
  rw [length]
  refine terminate_spec (sized.stored data same) rfl ?_ rfl behind
  show after.length < 2 ^ 32
  omega

/-- An array with a slot behind the last element can be cut by one element anywhere. -/
theorem removeIndex_spec (inv : Inv size p items) (inside : index < p.len)
    (meets : p.elementSize = 0 ∨ (p.len : Int) < p.capacity) :
    ∃ p', gArrayRemoveIndex p index = some p' ∧ Inv size p' (items.eraseIdx index) := by
  obtain ⟨cap, sized⟩ := inv.sized
  obtain ⟨rest, contents⟩ := inv.refines.contents
  have space : size = 0 ∨ items.length + 1 ≤ cap := by
    have := sized.elementSize
    have := sized.capacity
    have := inv.refines.len
    omega
  obtain ⟨slots, data, room⟩ := slots_behind sized.whole contents space
  cases slots with
  | nil => cases room
  | cons slot slots =>
    have len := inv.refines.len
    obtain ⟨before, removed, behind, rfl, first⟩ := split_at_index (len ▸ inside)
    subst first
    simp only [length_append, length_cons] at len
    have offset (i : Nat) (position : Int) (low : i ≤ before.length + behind.length + 2)
        (given : position = i) : elementLength p position = i * size := by
      refine sized.offset data i position ?_ given
      simp only [length_append, length_cons]
      omega
    have moved : memmove (before ++ removed :: behind ++ slot :: slots) before.length
        (before.length + 1) (behind.length + 1)
        = some (before ++ behind ++ (slot :: slot :: slots)) := by
      have found := read_middle (before ++ [removed]) (behind ++ [slot]) slots
      have same : (removed :: behind).length = (behind ++ [slot]).length := by simp
      have stored := overwrite_middle before (slot :: slots) same
      simp only [append_assoc, length_append, length_cons, length_nil,
        cons_append, nil_append] at found stored ⊢
      unfold memmove
      rw [found]
      exact stored
    have erased : (before ++ removed :: behind).eraseIdx before.length = before ++ behind := by
      rw [eraseIdx_append_of_length_le (Nat.le_refl _), Nat.sub_self]
      rfl
    rw [erased]
    obtain ⟨p', ended, inv'⟩ := inv.terminate data (before ++ behind) (slot :: slot :: slots)
      (by simp only [length_append, length_cons]; omega)
      (by simp only [length_append, length_cons]; omega)
    refine ⟨p', ?_, inv'⟩
    unfold gArrayRemoveIndex
    rw [offset before.length _ (by omega) rfl, offset (before.length + 1) (before.length + 1) (by omega) (by omega),
      offset (behind.length + 1) _ (by omega) (by omega), data, memmove_flat moved]
    exact ended

theorem slot_flat (sized : p.elementSize = size) (data : p.data = flat blocks) (inside : i < blocks.length) :
    p.slot i = (blocks[i]).cells := by
  obtain ⟨before, block, behind, rfl, first⟩ := split_at_index inside
  subst first
  unfold GArrayPriv.slot
  have front := length_flat before
  rw [data, sized, Int.toNat_natCast, flat_append, flat_cons, ← front, drop_left,
    take_append_of_le_length (Nat.le_of_eq block.whole.symm)]
  rw [take_of_length_le (Nat.le_of_eq block.whole)]
  simp

theorem block_unique (none : size = 0) (first second : Block UInt8 size) : first = second := by
  subst none
  apply Block.ext
  rw [eq_nil_of_length_eq_zero first.whole, eq_nil_of_length_eq_zero second.whole]

/-- The list after the last element moved into a hole, by the elements around the hole. -/
theorem moveLast_around (before behind : List α) (removed : α) : moveLast (before ++ removed :: behind) before.length
      = match behind.getLast? with
        | none => before
        | some last => before ++ last :: behind.dropLast := by
  unfold moveLast
  rw [getLast?_append, getLast?_cons]
  cases behind with
  | nil => simp
  | cons next behind =>
    rw [getLast?_eq_some_getLast (cons_ne_nil next behind)]
    simp [dropLast_append_of_ne_nil]

/-- The slots that a fast removal drags along hold what the elements behind the hole hold. -/
theorem dragged_slots {before behind : List (Block UInt8 size)} {removed : Block UInt8 size}
    (sized : p.elementSize = size) (len : p.len = before.length + behind.length + 1)
    (data : p.data = flat (before ++ removed :: behind ++ slots)) (room : behind.length ≤ slots.length)
    (meets : size = 0 ∨ ∀ j, before.length < j → j + 1 < p.len →
      p.slot j = p.slot (p.len - 1 + (j - before.length))) : behind.dropLast = slots.take (behind.length - 1) := by
  apply ext_getElem
  · rw [length_dropLast, length_take]
    omega
  intro i left right
  rw [length_dropLast] at left
  rw [getElem_dropLast, getElem_take]
  rcases meets with none | meets
  · exact block_unique none _ _
  · have equal := meets (before.length + 1 + i) (by omega) (by omega)
    have place : p.len - 1 + (before.length + 1 + i - before.length)
        = before.length + 1 + behind.length + i := by omega
    rw [place, slot_flat sized data (by simp only [length_append, length_cons]; omega),
      slot_flat sized data (by simp only [length_append, length_cons]; omega)] at equal
    apply Block.ext
    have first : (before ++ removed :: behind ++ slots)[before.length + 1 + i]? = behind[i]? := by
      rw [append_assoc, getElem?_append_right (by omega)]
      have index : before.length + 1 + i - before.length = i + 1 := by omega
      rw [index, cons_append, getElem?_cons_succ, getElem?_append_left (by omega)]
    have second : (before ++ removed :: behind ++ slots)[before.length + 1 + behind.length + i]?
        = slots[i]? := by
      rw [getElem?_append_right (by simp only [length_append, length_cons]; omega)]
      congr 1
      simp only [length_append, length_cons]
      omega
    rw [getElem?_eq_getElem (by simp only [length_append, length_cons]; omega),
      getElem?_eq_getElem (by omega)] at first second
    rw [Option.some.inj first, Option.some.inj second] at equal
    exact equal

theorem dragged_move (before : List (Block UInt8 size)) (removed : Block UInt8 size)
    {behind : List (Block UInt8 size)} (room : behind.length ≤ slots.length)
    (same : behind.dropLast = slots.take (behind.length - 1)) :
    ∃ free, memmove (before ++ removed :: behind ++ slots) before.length
        (before.length + behind.length) (behind.length + 1)
      = some (moveLast (before ++ removed :: behind) before.length ++ free) := by
  rw [moveLast_around]
  unfold memmove
  rcases eq_nil_or_concat behind with nothing | ⟨between, last, concat⟩
  · subst nothing
    have found := read_middle before [removed] slots
    have lengths : [removed].length = [removed].length := rfl
    have stored := overwrite_middle before slots lengths
    rw [← append_assoc, length_singleton] at found
    rw [← append_assoc] at stored
    refine ⟨removed :: slots, ?_⟩
    rw [length_nil, Nat.add_zero, Nat.zero_add, found, bind_some, stored,
      append_assoc]
    rfl
  · rw [concat_eq_append] at concat
    subst concat
    rw [dropLast_concat, length_append, length_singleton, Nat.add_sub_cancel] at same
    rw [length_append, length_singleton] at room
    obtain ⟨front, free, rfl, count⟩ := split_slots room
    rw [take_append_of_le_length (by omega)] at same
    have read := read_middle (before ++ removed :: between) (last :: front) free
    have lengths : (removed :: (between ++ [last])).length = (last :: front).length := by
      simp only [length_cons, length_append, length_nil, count]
    have stored := overwrite_middle before (front ++ free) lengths
    have split : front = between ++ front.drop between.length := by
      rw [same]
      have shorter : between.length ≤ front.length := by omega
      rw [length_take, Nat.min_eq_left shorter, take_append_drop]
    refine ⟨front.drop between.length ++ (front ++ free), ?_⟩
    simp only [append_assoc, cons_append, nil_append, length_append,
      length_cons, length_nil, getLast?_concat, dropLast_concat, count]
      at read stored ⊢
    have joined : front ++ (front ++ free)
        = between ++ (front.drop between.length ++ (front ++ free)) := by
      rw [← append_assoc between, ← split]
    rw [read, bind_some, stored, ← joined]

/-- The last element can be moved into a hole when the slots that move along are there and change
nothing. -/
theorem removeIndexFast_spec (inv : Inv size p items) (inside : index < p.len) (meets : p.elementSize = 0 ∨
      ((p.len - 1 + (p.len - index) : Int) ≤ p.capacity ∧
        ∀ j, index < j → j + 1 < p.len → p.slot j = p.slot (p.len - 1 + (j - index)))) :
    ∃ p', gArrayRemoveIndexFast p index = some p' ∧ Inv size p' (moveLast items index) := by
  obtain ⟨cap, sized⟩ := inv.sized
  obtain ⟨rest, contents⟩ := inv.refines.contents
  have len := inv.refines.len
  obtain ⟨before, removed, behind, rfl, first⟩ := split_at_index (len ▸ inside)
  subst first
  have total : (before ++ removed :: behind).length = before.length + behind.length + 1 := by
    rw [length_append, length_cons, Nat.add_assoc]
  rw [total] at len
  have space : size = 0 ∨ (before ++ removed :: behind).length + behind.length ≤ cap := by
    have := sized.elementSize
    have := sized.capacity
    rcases meets with none | ⟨enough, -⟩
    · left; omega
    · right; omega
  obtain ⟨slots, data, room⟩ := slots_behind sized.whole contents space
  have agree : size = 0 ∨ ∀ j, before.length < j → j + 1 < p.len →
      p.slot j = p.slot (p.len - 1 + (j - before.length)) := by
    have := sized.elementSize
    rcases meets with none | ⟨-, equal⟩
    · left; omega
    · exact Or.inr equal
  obtain ⟨free, moved⟩ := dragged_move before removed room
    (dragged_slots sized.elementSize len data room agree)
  have offset (i : Nat) (position : Int) (low : i ≤ before.length + behind.length + 1)
      (given : position = i) : elementLength p position = i * size := by
    refine sized.offset data i position ?_ given
    rw [length_append, total]
    omega
  have shorter : (before ++ removed :: behind).length
      = (moveLast (before ++ removed :: behind) before.length).length + 1 := by
    rw [total, moveLast_around]
    rcases eq_nil_or_concat behind with nothing | ⟨between, last, concat⟩
    · subst nothing
      simp
    · subst concat
      simp
  have same : (moveLast (before ++ removed :: behind) before.length ++ free).length
      = (before ++ removed :: behind ++ slots).length := by
    cases found : read (before ++ removed :: behind ++ slots) (before.length + behind.length)
        (behind.length + 1) with
    | none =>
      rw [memmove, found] at moved
      cases moved
    | some cells =>
      rw [memmove, found] at moved
      exact length_overwrite moved
  obtain ⟨p', ended, inv'⟩ := inv.terminate data
    (moveLast (before ++ removed :: behind) before.length) free shorter same
  refine ⟨p', ?_, inv'⟩
  unfold gArrayRemoveIndexFast
  rw [offset before.length _ (by omega) rfl,
    offset (before.length + behind.length) _ (by omega) (by omega),
    offset (behind.length + 1) _ (by omega) (by omega), data, memmove_flat moved]
  exact ended

/-! ### Runs -/

theorem call_spec (call : Call size) (fresh : Nat → UInt8) (inv : Inv size p items) (inRange : call.InRange p)
    (meets : call.Meets p) : ∃ p', call.apply fresh p = some p' ∧ Inv size p' (call.onList items) := by
  cases call with
  | appendVals vals => exact appendVals_spec fresh inv meets
  | insertVals index vals => exact insertVals_spec fresh inv meets inRange.2
  | removeIndex index => exact removeIndex_spec inv inRange meets
  | removeIndexFast index => exact removeIndexFast_spec inv inRange meets

theorem created_spec (sized : p.elementSize = size) (empty : p.data = []) (len : p.len = 0)
    (capacity : p.capacity = (0 : Nat)) (small : 16 * size < 2 ^ 31)
    (cleared : p.zeroTerminated = true → p.clear_ = true ∨ size = 0) :
    ∃ p', ensureCapacity p initialCapacity fresh = some p' ∧ Inv size p' ([] : List (Block UInt8 size)) := by
  have nothing : p.data.length = 0 * size := by rw [empty, Nat.zero_mul, length_nil]
  have bytes : max 0 16 * 2 ^ 0 * size < 2 ^ 31 := by
    exact small
  obtain ⟨cap, more, grown, large, -, whole, bytes, zeros⟩ :=
    ensureCapacity_spec fresh sized capacity nothing (show 16 ≤ max 0 16 * 2 ^ 0 by decide)
      (by decide) bytes
  rw [empty, nil_append] at grown whole
  have short : p.len < 2 ^ 32 := by
    rw [len]
    exact Nat.two_pow_pos 32
  refine ⟨_, grown, ⟨⟨sized, len, ⟨more, rfl⟩, ?_, ?_⟩,
    ⟨cap, ⟨sized, rfl, large, bytes, whole⟩⟩, short⟩⟩
  · show (more.length : Int) = cap * p.elementSize
    rw [whole, sized, Int.natCast_mul]
  · intro flag
    have room : size ≤ more.length := by
      rw [whole]
      exact Nat.le_mul_of_pos_left size (by omega)
    rcases cleared flag with set | nothing
    · refine ⟨List.replicate (more.length - size) 0, ?_⟩
      rw [replicate_append_replicate, Nat.add_sub_cancel' room]
      exact zeros set
    · subst nothing
      exact ⟨more, rfl⟩

theorem new_spec (meets : NewMeets zeroTerminated clear_ size) :
    ∃ p, gArrayNew zeroTerminated clear_ size fresh = some p ∧ Inv size p ([] : List (Block UInt8 size)) := by
  obtain ⟨small, cleared⟩ := meets
  have sized : gint size = size := gint_eq (by omega)
  unfold gArrayNew
  rw [sized]
  exact created_spec fresh rfl rfl rfl rfl small cleared

theorem runNew_append (zeroTerminated clear_ : Bool) (fresh : Nat → UInt8)
    (steps : List (Step size)) (step : Step size) : runNew zeroTerminated clear_ fresh (steps ++ [step])
      = (runNew zeroTerminated clear_ fresh steps).bind fun p => step.1.apply step.2 p := by
  unfold runNew run
  cases gArrayNew zeroTerminated clear_ size fresh with
  | none => rfl
  | some p => simp [foldlM_append]

theorem listAfter_append (steps : List (Step size)) (step : Step size) :
    listAfter (steps ++ [step]) = step.1.onList (listAfter steps) := by
  unfold listAfter
  rw [foldl_append]
  rfl

theorem run_spec {fresh : Nat → UInt8} (n : Nat) (steps : List (Step size)) (count : steps.length = n)
    (created : NewMeets zeroTerminated clear_ size) (inRange : InRange zeroTerminated clear_ fresh steps)
    (meets : EveryCallMeets zeroTerminated clear_ fresh steps) :
    ∃ p, runNew zeroTerminated clear_ fresh steps = some p ∧ Inv size p (listAfter steps) := by
  induction n generalizing steps with
  | zero =>
    rw [eq_nil_of_length_eq_zero count]
    obtain ⟨p, made, inv⟩ := new_spec fresh created
    exact ⟨p, by rw [runNew, made]; rfl, inv⟩
  | succ n ih =>
    rcases eq_nil_or_concat steps with nothing | ⟨earlier, step, concat⟩
    · rw [nothing] at count
      cases count
    · rw [concat_eq_append] at concat
      subst concat
      rw [length_append, length_singleton] at count
      have inRange' : InRange zeroTerminated clear_ fresh earlier := by
        intro before at_ later p split ran
        exact inRange before at_ (later ++ [step]) p (by rw [split]; simp) ran
      have meets' : EveryCallMeets zeroTerminated clear_ fresh earlier := by
        intro before at_ later p split ran
        exact meets before at_ (later ++ [step]) p (by rw [split]; simp) ran
      obtain ⟨p, ran, inv⟩ := ih earlier (by omega) inRange' meets'
      obtain ⟨p', stepped, inv'⟩ := call_spec step.1 step.2 inv
        (inRange earlier step [] p rfl ran) (meets earlier step [] p rfl ran)
      rw [runNew_append, ran, listAfter_append]
      exact ⟨p', stepped, inv'⟩

/-- Every run of calls that meet their conditions stays inside of the allocation and refines the
list under append, insert, remove and the move of the last element. -/
theorem gArray_refinesList (zeroTerminated clear_ : Bool) (fresh : Nat → UInt8)
    (steps : List (Step size))
    (inRange : InRange zeroTerminated clear_ fresh steps)
    (created : NewMeets zeroTerminated clear_ size)
    (meets : EveryCallMeets zeroTerminated clear_ fresh steps) :
    Faithful zeroTerminated clear_ fresh steps := by
  intro earlier later split
  subst split
  have inRange' : InRange zeroTerminated clear_ fresh earlier := by
    intro before step after p split ran
    exact inRange before step (after ++ later) p (by rw [split]; simp) ran
  have meets' : EveryCallMeets zeroTerminated clear_ fresh earlier := by
    intro before step after p split ran
    exact meets before step (after ++ later) p (by rw [split]; simp) ran
  obtain ⟨p, ran, inv⟩ := run_spec earlier.length earlier rfl created inRange' meets'
  exact ⟨p, ran, inv.refines⟩

/-! ### Runs on bytes -/

/-- An element of one byte. -/
def byte (value : UInt8) : Block UInt8 1 :=
  Block.filled value 1

/-- The three elements 1, 2, 3 are stored, and one of them is removed fast. -/
def fastRemoval (index : Nat) : List (Step 1) :=
  [(.appendVals [byte 1, byte 2, byte 3], fun _ => 0), (.removeIndexFast index, fun _ => 0)]

/-- An array is filled up to its capacity, and its first element is removed. -/
def fullRemoval : List (Step 1) :=
  [(.appendVals (List.replicate 16 (byte 1)), fun _ => 0), (.removeIndex 0, fun _ => 0)]

theorem twoCalls {first second : Step size} {run : List (Step size) → Option GArrayPriv}
    {P : Step size → GArrayPriv → Prop} (one : ∀ p, run [] = some p → P first p)
    (two : ∀ p, run [first] = some p → P second p) :
    ∀ earlier step later p, [first, second] = earlier ++ step :: later → run earlier = some p → P step p := by
  intro earlier step later p split ran
  cases earlier with
  | nil =>
    cases split
    exact one p ran
  | cons head earlier =>
    cases earlier with
    | nil =>
      cases split
      exact two p ran
    | cons next earlier => simp at split

theorem len_of_map {found : Option GArrayPriv} (len : Nat) (capacity : Int)
    (known : found.map (fun p => (p.len, p.capacity)) = some (len, capacity)) (same : found = some p) :
    p.len = len ∧ p.capacity = capacity := by
  rw [same] at known
  cases known
  exact ⟨rfl, rfl⟩

/-- Removing the second of three elements fast is right: only the slot behind the array moves along. -/
theorem gArray_refinesList_sample :
    Faithful true true (fun _ => 255) (fastRemoval 1) := by
  refine gArray_refinesList true true (fun _ => 255) (fastRemoval 1) ?_ ?_ ?_
  · apply twoCalls
    · intro p ran
      show 3 < 2 ^ 32
      decide
    · intro p ran
      obtain ⟨len, -⟩ := len_of_map 3 16 (by decide) ran
      show 1 < p.len
      omega
  · exact ⟨by decide, fun _ => Or.inl rfl⟩
  · apply twoCalls
    · intro p ran
      have same : runNew true true (fun _ => 255) ([] : List (Step 1))
          = some { data := List.replicate 16 0, len := 0, clear_ := true, elementSize := 1,
                   zeroTerminated := true, capacity := 16 } := by decide
      cases ran
      exact Or.inl ⟨0, by decide, by decide, by decide⟩
    · intro p ran
      obtain ⟨len, capacity⟩ := len_of_map 3 16 (by decide) ran
      refine Or.inr ⟨by omega, ?_⟩
      intro j low high
      omega

/-- The list promise fails in three ways: a fast removal far from the end moves bytes from behind
the array over its elements, a removal from a full array reads behind the allocation, and an array
that is zero-terminated but not cleared starts without its terminator. -/
theorem gArray_fastRemovalLosesAnElement :
    (InRange false false (fun _ => 0) (fastRemoval 0)
        ∧ ¬ Faithful false false (fun _ => 0) (fastRemoval 0))
      ∧ (InRange false false (fun _ => 0) fullRemoval
        ∧ ¬ Faithful false false (fun _ => 0) fullRemoval)
      ∧ (InRange true false (fun _ => 255) ([] : List (Step 1))
        ∧ ¬ Faithful true false (fun _ => 255) ([] : List (Step 1))) := by
  refine ⟨⟨?_, ?_⟩, ⟨?_, ?_⟩, ?_, ?_⟩
  · apply twoCalls
    · intro p ran
      show 3 < 2 ^ 32
      decide
    · intro p ran
      obtain ⟨len, -⟩ := len_of_map 3 16 (by decide) ran
      show 0 < p.len
      omega
  · intro faithful
    obtain ⟨p, ran, refines⟩ := faithful (fastRemoval 0) [] (by simp)
    obtain ⟨rest, contents⟩ := refines.contents
    have stored : (runNew false false (fun _ => 0) (fastRemoval 0)).map (fun p => p.data.take 2)
        = some [3, 0] := by decide
    have expected : flat (listAfter (fastRemoval 0)) = [3, 2] := by decide
    rw [ran, map_some, contents, expected] at stored
    simp at stored
  · apply twoCalls
    · intro p ran
      show 16 < 2 ^ 32
      decide
    · intro p ran
      obtain ⟨len, -⟩ := len_of_map 16 16 (by decide) ran
      show 0 < p.len
      omega
  · intro faithful
    obtain ⟨p, ran, -⟩ := faithful fullRemoval [] (by simp)
    have lost : runNew false false (fun _ => 0) fullRemoval = none := by decide
    cases ran
  · intro earlier step later p split
    simp at split
  · intro faithful
    obtain ⟨p, ran, refines⟩ := faithful [] [] rfl
    have flag : (runNew true false (fun _ => 255) ([] : List (Step 1))).map
        (fun p => (p.zeroTerminated, p.data.take 1)) = some (true, [255]) := by decide
    rw [ran, map_some] at flag
    obtain ⟨rest, terminated⟩ := refines.terminated (by
      cases set : p.zeroTerminated with
      | true => rfl
      | false => simp [set] at flag)
    rw [terminated] at flag
    simp [listAfter] at flag

end MonoRuntime.GArray
