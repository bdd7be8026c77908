/-
Module: MonoRuntime.Lib.KeyedMap
Purpose: Finite maps whose keys are taken up to an equivalence and are stored beside their values, and the lists of entries that make up such a map.
Trusted boundary: none
Main exports: KeyEquiv
-/
import Mathlib.Data.List.Perm.Basic

namespace MonoRuntime.KeyedMap

open List

variable {K V : Type}

/-- A decidable equivalence of keys. -/
structure KeyEquiv (K : Type) where
  same : K → K → Bool
  refl : ∀ a, same a a = true
  symm : ∀ {a b}, same a b = true → same b a = true
  trans : ∀ {a b c}, same a b = true → same b c = true → same a c = true

/-- A map: for every key the entry under it, if there is one. -/
abbrev Map (K V : Type) : Type :=
  K → Option (K × V)

/-- The map without entries. -/
def empty : Map K V :=
  fun _ => none

/-- The map with the value stored under the key. The key of an entry that is there already is
exchanged or kept. -/
def store (E : KeyEquiv K) (key : K) (value : V) (exchange : Bool) (m : Map K V) :
    Map K V := fun k =>
  if E.same key k then
    match m key with
    | none => some (key, value)
    | some held => some (if exchange then key else held.1, value)
  else m k

/-- The map without the entry under the key. -/
def erase (E : KeyEquiv K) (key : K) (m : Map K V) : Map K V := fun k =>
  if E.same key k then none else m k

/-- The map of the entries that satisfy a predicate. -/
def select (p : K → V → Bool) (m : Map K V) : Map K V := fun k =>
  (m k).filter fun held => p held.1 held.2

/-- The first entry of a list under a key. -/
def lookup (E : KeyEquiv K) (k : K) (entries : List (K × V)) : Option (K × V) :=
  entries.find? fun held => E.same held.1 k

/-- No two entries have the same key. -/
def Distinct (E : KeyEquiv K) (entries : List (K × V)) : Prop :=
  entries.Pairwise fun a b => E.same a.1 b.1 = false

/-- The list holds every entry of the map exactly once, and nothing else. -/
structure Lists (E : KeyEquiv K) (entries : List (K × V)) (m : Map K V) : Prop where
  distinct : Distinct E entries
  found : ∀ k, lookup E k entries = m k

variable {E : KeyEquiv K} {entries : List (K × V)} {m : Map K V}

theorem KeyEquiv.same_comm (E : KeyEquiv K) (a b : K) : E.same a b = E.same b a := by
  rw [Bool.eq_iff_iff]
  exact ⟨E.symm, E.symm⟩

theorem KeyEquiv.same_congr (E : KeyEquiv K) {a b : K} (ab : E.same a b = true) (c : K) : E.same a c = E.same b c := by
  rw [Bool.eq_iff_iff]
  exact ⟨E.trans (E.symm ab), E.trans ab⟩

/-! ### Lookup in a list with distinct keys -/

variable {k key : K} {held : K × V} {before later : List (K × V)}

/-- In a list with distinct keys an entry is found if and only if it is there. -/
theorem lookup_eq_some_iff (distinct : Distinct E entries) :
    lookup E k entries = some held ↔ held ∈ entries ∧ E.same held.1 k = true := by
  constructor
  · intro found
    exact ⟨mem_of_find?_eq_some found, find?_some (p := fun held : K × V => E.same held.1 k) found⟩
  · rintro ⟨inside, same⟩
    obtain ⟨before, later, split⟩ := append_of_mem inside
    subst split
    unfold lookup
    rw [find?_append]
    have others : before.find? (fun held => E.same held.1 k) = none := by
      rw [find?_eq_none]
      intro other there equal
      have apart := (pairwise_append.1 distinct).2.2 other there held mem_cons_self
      rw [E.trans equal (E.symm same)] at apart
      cases apart
    rw [others, find?_cons, same]
    rfl

theorem Distinct.perm {entries' : List (K × V)} (distinct : Distinct E entries) (perm : entries.Perm entries') :
    Distinct E entries' := by
  refine perm.pairwise distinct ?_
  intro a b apart
  rw [E.same_comm, apart]

theorem Lists.perm {entries' : List (K × V)} (lists : Lists E entries m) (perm : entries.Perm entries') :
    Lists E entries' m := by
  have distinct := lists.distinct.perm perm
  refine ⟨distinct, ?_⟩
  intro k
  rw [← lists.found k]
  apply Option.ext
  intro held
  rw [lookup_eq_some_iff distinct, lookup_eq_some_iff lists.distinct, perm.mem_iff]

theorem Lists.nil : Lists E ([] : List (K × V)) empty :=
  ⟨List.Pairwise.nil, fun _ => rfl⟩

/-- An entry of the list is the one that the map has under every equivalent key. -/
theorem Lists.of_mem (lists : Lists E entries m) (inside : held ∈ entries) (same : E.same held.1 k = true) :
    m k = some held := by
  rw [← lists.found k]
  exact (lookup_eq_some_iff lists.distinct).2 ⟨inside, same⟩

theorem Lists.congr (lists : Lists E entries m) {a b : K} (ab : E.same a b = true) : m a = m b := by
  rw [← lists.found a, ← lists.found b]
  unfold lookup
  congr 1
  funext held
  rw [E.same_comm, E.same_congr ab, E.same_comm]

theorem Lists.apart (lists : Lists E entries m) (missing : m k = none) (inside : held ∈ entries) :
    E.same held.1 k = false := by
  cases same : E.same held.1 k with
  | false => rfl
  | true =>
    rw [lists.of_mem inside same] at missing
    cases missing

/-! ### The operations on lists of entries -/

theorem Lists.cons (lists : Lists E entries m) (value : V) (exchange : Bool) (missing : m key = none) :
    Lists E ((key, value) :: entries) (store E key value exchange m) := by
  constructor
  · refine pairwise_cons.2 ⟨?_, lists.distinct⟩
    intro held inside
    rw [E.same_comm]
    exact lists.apart missing inside
  · intro k
    unfold lookup store
    cases same : E.same key k with
    | true =>
      rw [find?_cons, same, if_pos rfl, missing]
    | false =>
      rw [find?_cons, same, if_neg Bool.false_ne_true]
      exact lists.found k

theorem Distinct.apart_middle {other : K × V} (distinct : Distinct E (before ++ held :: later))
    (there : other ∈ before ++ later) : E.same held.1 other.1 = false := by
  have front : Distinct E (held :: (before ++ later)) := distinct.perm perm_middle
  exact (pairwise_cons.1 front).1 other there

theorem Lists.unlink (lists : Lists E (before ++ held :: later) m) (same : E.same held.1 key = true) :
    Lists E (before ++ later) (erase E key m) := by
  have shorter : Distinct E (before ++ later) :=
    List.Pairwise.sublist (List.Sublist.append (List.Sublist.refl before)
      (sublist_cons_self held later)) lists.distinct
  refine ⟨shorter, ?_⟩
  intro k
  unfold erase
  apply Option.ext
  intro other
  rw [lookup_eq_some_iff shorter]
  cases hit : E.same key k with
  | true =>
    rw [if_pos rfl]
    constructor
    · rintro ⟨there, equal⟩
      have apart := lists.distinct.apart_middle there
      rw [E.trans same (E.trans hit (E.symm equal))] at apart
      cases apart
    · intro impossible
      cases impossible
  | false =>
    rw [if_neg Bool.false_ne_true, ← lists.found k, lookup_eq_some_iff lists.distinct]
    constructor
    · rintro ⟨there, equal⟩
      exact ⟨(perm_middle.mem_iff).2 (mem_cons_of_mem held there), equal⟩
    · rintro ⟨there, equal⟩
      rcases mem_cons.1 ((perm_middle.mem_iff).1 there) with itself | there
      · subst itself
        rw [← E.same_congr same k, equal] at hit
        cases hit
      · exact ⟨there, equal⟩

theorem Lists.overwrite (lists : Lists E (before ++ held :: later) m)
    (same : E.same held.1 key = true) (value : V) (exchange : Bool) :
    Lists E (before ++ (if exchange then key else held.1, value) :: later)
      (store E key value exchange m) := by
  have stored : m key = some held :=
    lists.of_mem (mem_append_right before mem_cons_self) same
  have keySame : E.same (if exchange then key else held.1) key = true := by
    cases exchange with
    | true => exact E.refl key
    | false => exact same
  -- Without the old entry the list has no entry under the key, so the new one goes in front of it.
  have erased := lists.unlink same
  have missing : erase E key m (if exchange then key else held.1) = none := by
    rw [erased.congr keySame]
    unfold erase
    rw [if_pos (E.refl key)]
  have front := erased.cons value true missing
  apply Lists.perm _ perm_middle.symm
  refine ⟨front.distinct, ?_⟩
  intro k
  rw [front.found k]
  unfold store
  rw [E.same_congr keySame k, stored, missing]
  cases hit : E.same key k with
  | true => rfl
  | false =>
    show erase E key m k = m k
    unfold erase
    rw [hit]
    rfl

theorem Lists.filter (lists : Lists E entries m) (p : K → V → Bool) :
    Lists E (entries.filter fun held => p held.1 held.2) (select p m) := by
  have distinct : Distinct E (entries.filter fun held => p held.1 held.2) :=
    List.Pairwise.filter _ lists.distinct
  refine ⟨distinct, ?_⟩
  intro k
  unfold select
  apply Option.ext
  intro held
  rw [lookup_eq_some_iff distinct, mem_filter, Option.filter_eq_some_iff, ← lists.found k,
    lookup_eq_some_iff lists.distinct]
  constructor
  · rintro ⟨⟨inside, kept⟩, same⟩
    exact ⟨⟨inside, same⟩, kept⟩
  · rintro ⟨⟨inside, same⟩, kept⟩
    exact ⟨⟨inside, kept⟩, same⟩

end MonoRuntime.KeyedMap
