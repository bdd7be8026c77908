/-
Module: MonoRuntime.Lib.Worklist
Purpose: A search with a list of nodes to do, which looks at the node in front, adds it to what was found and puts
  those of its successors in front that were not found yet. What comes out is what was found before and what can be
  reached from the nodes to do, without duplicates.
Trusted boundary: none
Main exports: push
-/
import Mathlib.Algebra.BigOperators.Group.Finset.Basic

namespace MonoRuntime.Worklist

open List

variable {β : Type*} [DecidableEq β] (succ : β → List β)

/-- Put the successors that were not found yet in front, one after another. -/
def push (found todo : List β) (b : β) : List β :=
  (succ b).foldl (fun todo next => if next ∈ found then todo else next :: todo) todo

/-- Look at the nodes to do until there are none, at most `fuel` times. -/
def search : (fuel : Nat) → (todo found : List β) → Option (List β)
  | 0, _, _ => none
  | _ + 1, [], found => some found
  | fuel + 1, b :: todo, found =>
      if b ∈ found then search fuel todo found
      else search fuel (push succ (b :: found) todo b) (b :: found)

/-- There is a path along successors. -/
abbrev Reaches (a b : β) : Prop :=
  Relation.ReflTransGen (fun c d => d ∈ succ c) a b

/-- How often the search can still look at a node. -/
def work (nodes : Finset β) (todo found : List β) : Nat :=
  todo.length + ∑ b ∈ nodes with b ∉ found, (succ b).length

variable {succ}

theorem mem_push {found todo : List β} {a b : β} : a ∈ push succ found todo b ↔ a ∈ todo ∨ a ∈ succ b ∧ a ∉ found := by
  unfold push
  induction succ b generalizing todo with
  | nil => simp
  | cons next rest ih =>
    rw [foldl_cons, ih]
    by_cases isFound : next ∈ found
    · rw [if_pos isFound, mem_cons]
      have : a = next → a ∈ found := fun same => same ▸ isFound
      tauto
    · rw [if_neg isFound, mem_cons, mem_cons]
      have : a = next → a ∉ found := fun same => same ▸ isFound
      tauto

theorem length_push (found todo : List β) (b : β) : (push succ found todo b).length ≤ todo.length + (succ b).length := by
  unfold push
  induction succ b generalizing todo with
  | nil => simp
  | cons next rest ih =>
    rw [foldl_cons, length_cons]
    refine (ih _).trans ?_
    split
    next => omega
    next =>
      rw [length_cons]
      omega

theorem work_push {nodes : Finset β} {todo found : List β} {b : β} (isNode : b ∈ nodes) (isNew : b ∉ found) :
    work succ nodes (push succ (b :: found) todo b) (b :: found) < work succ nodes (b :: todo) found := by
  have rest : ({a ∈ nodes | a ∉ b :: found} : Finset β) = {a ∈ nodes | a ∉ found}.erase b := by
    ext a
    simp only [Finset.mem_filter, mem_cons, Finset.mem_erase]
    tauto
  have member : b ∈ ({a ∈ nodes | a ∉ found} : Finset β) := Finset.mem_filter.mpr ⟨isNode, isNew⟩
  have sum := Finset.add_sum_erase _ (fun a => (succ a).length) member
  have pushed := @length_push _ _ succ (b :: found) todo b
  unfold work
  rw [rest, length_cons]
  omega

omit [DecidableEq β] in
/-- What can be reached from a node that was found is found, or can be reached from a node to do. -/
theorem Reaches.found {todo found : List β} (kept : ∀ b ∈ found, ∀ next ∈ succ b, next ∈ found ∨ next ∈ todo) {a b : β}
    (reaches : Reaches succ a b) (isFound : a ∈ found) : b ∈ found ∨ ∃ t ∈ todo, Reaches succ t b := by
  induction reaches with
  | refl => exact .inl isFound
  | @tail c next _ along ih =>
    rcases ih with old | ⟨t, isTodo, path⟩
    · exact (kept c old next along).imp_right fun isTodo => ⟨next, isTodo, .refl⟩
    · exact .inr ⟨t, isTodo, path.tail along⟩

theorem search_spec {nodes : Finset β} (closed : ∀ b ∈ nodes, ∀ next ∈ succ b, next ∈ nodes) :
    ∀ (fuel : Nat) (todo found : List β), (∀ b ∈ todo, b ∈ nodes) → found.Nodup →
      (∀ b ∈ found, ∀ next ∈ succ b, next ∈ found ∨ next ∈ todo) → work succ nodes todo found < fuel →
        ∃ result, search succ fuel todo found = some result ∧ result.Nodup ∧
          ∀ b, b ∈ result ↔ b ∈ found ∨ ∃ t ∈ todo, Reaches succ t b
  | 0, _, _, _, _, _, enough => absurd enough (Nat.not_lt_zero _)
  | fuel + 1, [], found, _, nodup, _, _ => ⟨found, rfl, nodup, by simp⟩
  | fuel + 1, b :: todo, found, inside, nodup, kept, enough => by
      obtain ⟨isNode, inside⟩ := forall_mem_cons.mp inside
      rw [search]
      by_cases isFound : b ∈ found
      · rw [if_pos isFound]
        have kept' : ∀ c ∈ found, ∀ next ∈ succ c, next ∈ found ∨ next ∈ todo := by
          intro c member next along
          rcases kept c member next along with old | isTodo
          · exact .inl old
          · rcases mem_cons.mp isTodo with rfl | later
            · exact .inl isFound
            · exact .inr later
        have less : work succ nodes todo found < fuel := by
          unfold work at enough ⊢
          rw [length_cons] at enough
          omega
        obtain ⟨result, run, nodup', spec⟩ := search_spec closed fuel todo found inside nodup kept' less
        refine ⟨result, run, nodup', fun a => ?_⟩
        rw [spec, exists_mem_cons_iff]
        have known := fun path : Reaches succ b a => path.found kept' isFound
        tauto
      · rw [if_neg isFound]
        have inside' : ∀ c ∈ push succ (b :: found) todo b, c ∈ nodes := by
          intro c member
          rcases mem_push.mp member with old | new
          · exact inside c old
          · exact closed b isNode c new.1
        have kept' : ∀ c ∈ b :: found, ∀ next ∈ succ c, next ∈ b :: found ∨ next ∈ push succ (b :: found) todo b := by
          intro c member next along
          rw [mem_push, mem_cons (a := next)]
          rcases mem_cons.mp member with rfl | old
          · tauto
          · have := kept c old next along
            rw [mem_cons] at this
            tauto
        obtain ⟨result, run, nodup', spec⟩ := search_spec closed fuel _ (b :: found) inside'
          (nodup_cons.mpr ⟨isFound, nodup⟩) kept' ((work_push isNode isFound).trans_le (Nat.le_of_lt_succ enough))
        refine ⟨result, run, nodup', fun a => ?_⟩
        rw [spec, mem_cons, exists_mem_cons_iff]
        constructor
        · rintro ((rfl | old) | ⟨t, isTodo, path⟩)
          · exact .inr (.inl .refl)
          · exact .inl old
          · rcases mem_push.mp isTodo with later | ⟨along, _⟩
            · exact .inr (.inr ⟨t, later, path⟩)
            · exact .inr (.inl (path.head along))
        · rintro (old | path | ⟨t, isTodo, path⟩)
          · exact .inl (.inr old)
          · exact (path.found kept' mem_cons_self).imp_left mem_cons.mp
          · exact .inr ⟨t, mem_push.mpr (.inl isTodo), path⟩

end MonoRuntime.Worklist
