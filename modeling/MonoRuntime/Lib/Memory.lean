/-
Module: MonoRuntime.Lib.Memory
Purpose: One allocation as a list of cells: reading, overwriting and moving ranges of it, and the same allocation seen as blocks of one size.
Trusted boundary: none
Main exports: read
-/

namespace MonoRuntime.Memory

open List

variable {α : Type} {size : Nat}

/-- The `n` cells from `src` on; nothing when they do not lie in the allocation. -/
def read (mem : List α) (src n : Nat) : Option (List α) :=
  if src + n ≤ mem.length then some ((mem.drop src).take n) else none

/-- Store `cells` from `dst` on; nothing when they do not fit into the allocation. -/
def overwrite (mem : List α) (dst : Nat) (cells : List α) : Option (List α) :=
  if dst + cells.length ≤ mem.length then
    some (mem.take dst ++ cells ++ mem.drop (dst + cells.length))
  else none

/-- Copy `n` cells from `src` to `dst` as if through a buffer, so that the ranges may overlap. -/
def memmove (mem : List α) (dst src n : Nat) : Option (List α) :=
  (read mem src n).bind (overwrite mem dst)

/-- Fill `n` cells from `dst` on with one value. -/
def memset (mem : List α) (dst : Nat) (value : α) (n : Nat) : Option (List α) :=
  overwrite mem dst (List.replicate n value)

/-! ### Reading and overwriting a part that is known -/

theorem read_middle (front middle back : List α) :
    read (front ++ (middle ++ back)) front.length middle.length = some middle := by
  unfold read
  rw [if_pos (by simp only [length_append]; omega), drop_left, take_left]

theorem overwrite_middle (front back : List α) {old cells : List α} (same : old.length = cells.length) :
    overwrite (front ++ (old ++ back)) front.length cells = some (front ++ (cells ++ back)) := by
  unfold overwrite
  have past : (front ++ (old ++ back)).drop (front.length + cells.length) = back := by
    rw [← same, ← drop_drop, drop_left, drop_left]
  rw [if_pos (by simp only [length_append]; omega), past, take_left, append_assoc]

theorem length_overwrite {mem mem' cells : List α} {dst : Nat} (stored : overwrite mem dst cells = some mem') :
    mem'.length = mem.length := by
  unfold overwrite at stored
  split at stored
  next inside =>
    cases stored
    simp only [length_append, length_take, length_drop]
    omega
  next => cases stored

/-! ### The allocation as blocks of one size -/

/-- A block of `size` cells. -/
@[ext] structure Block (α : Type) (size : Nat) where
  cells : List α
  whole : cells.length = size

/-- The cells of blocks one after the other. -/
def flat (blocks : List (Block α size)) : List α :=
  (blocks.map Block.cells).flatten

/-- A block of one value. -/
def Block.filled (value : α) (size : Nat) : Block α size :=
  ⟨List.replicate size value, length_replicate⟩

@[simp] theorem flat_nil : flat ([] : List (Block α size)) = [] := rfl

@[simp] theorem flat_cons (block : Block α size) (blocks : List (Block α size)) :
    flat (block :: blocks) = block.cells ++ flat blocks := by
  simp [flat]

@[simp] theorem flat_append (front back : List (Block α size)) : flat (front ++ back) = flat front ++ flat back := by
  simp [flat]

@[simp] theorem length_flat (blocks : List (Block α size)) : (flat blocks).length = blocks.length * size := by
  induction blocks with
  | nil => simp
  | cons block blocks ih =>
    rw [flat_cons, length_append, ih, block.whole, length_cons,
      Nat.succ_mul, Nat.add_comm]

theorem exists_flat (n : Nat) (mem : List α) (whole : mem.length = n * size) :
    ∃ blocks : List (Block α size), blocks.length = n ∧ flat blocks = mem := by
  induction n generalizing mem with
  | zero =>
    rw [Nat.zero_mul] at whole
    exact ⟨[], rfl, (eq_nil_of_length_eq_zero whole).symm⟩
  | succ n ih =>
    rw [Nat.succ_mul] at whole
    have rest : (mem.drop size).length = n * size := by rw [length_drop]; omega
    have first : (mem.take size).length = size := by rw [length_take]; omega
    obtain ⟨blocks, count, cells⟩ := ih (mem.drop size) rest
    refine ⟨⟨mem.take size, first⟩ :: blocks, by rw [length_cons, count], ?_⟩
    rw [flat_cons, cells]
    exact take_append_drop size mem

theorem read_flat {blocks found : List (Block α size)} {src n : Nat} (inside : read blocks src n = some found) :
    read (flat blocks) (src * size) (n * size) = some (flat found) := by
  unfold read at inside
  split at inside
  next enough =>
    cases inside
    have front : (blocks.take src).length = src := by rw [length_take]; omega
    have middle : ((blocks.drop src).take n).length = n := by
      rw [length_take, length_drop]; omega
    have split : flat blocks
        = flat (blocks.take src) ++ (flat ((blocks.drop src).take n)
          ++ flat ((blocks.drop src).drop n)) := by
      rw [← flat_append, ← flat_append, take_append_drop, take_append_drop]
    rw [split]
    have found := read_middle (flat (blocks.take src)) (flat ((blocks.drop src).take n))
      (flat ((blocks.drop src).drop n))
    rw [length_flat, length_flat, front, middle] at found
    exact found
  next => cases inside

theorem overwrite_flat {blocks after cells : List (Block α size)} {dst : Nat}
    (inside : overwrite blocks dst cells = some after) :
    overwrite (flat blocks) (dst * size) (flat cells) = some (flat after) := by
  unfold overwrite at inside
  split at inside
  next enough =>
    cases inside
    have front : (blocks.take dst).length = dst := by rw [length_take]; omega
    have middle : ((blocks.drop dst).take cells.length).length = cells.length := by
      rw [length_take, length_drop]; omega
    have split : flat blocks
        = flat (blocks.take dst) ++ (flat ((blocks.drop dst).take cells.length)
          ++ flat (blocks.drop (dst + cells.length))) := by
      rw [← flat_append, ← flat_append, ← drop_drop, take_append_drop,
        take_append_drop]
    rw [split]
    have same : (flat ((blocks.drop dst).take cells.length)).length = (flat cells).length := by
      rw [length_flat, length_flat, middle]
    have stored := overwrite_middle (flat (blocks.take dst))
      (flat (blocks.drop (dst + cells.length))) same
    rw [length_flat, front] at stored
    rw [stored]
    simp only [flat_append, append_assoc]
  next => cases inside

theorem memmove_flat {blocks after : List (Block α size)} {dst src n : Nat}
    (inside : memmove blocks dst src n = some after) :
    memmove (flat blocks) (dst * size) (src * size) (n * size) = some (flat after) := by
  unfold memmove at inside ⊢
  cases found : read blocks src n with
  | none =>
    rw [found] at inside
    cases inside
  | some cells =>
    rw [found] at inside
    rw [read_flat found]
    exact overwrite_flat inside

end MonoRuntime.Memory
