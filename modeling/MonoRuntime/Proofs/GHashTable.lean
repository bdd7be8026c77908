/-
Module: MonoRuntime.Proofs.GHashTable
Purpose: A hash table stands for a finite map over every run of calls that stays within the range of its two counters.
Trusted boundary: none
Main exports: gHashTable_refinesMap, gHashTable_losesCount
-/
import MonoRuntime.Eglib.GHashTable
import MonoRuntime.Proofs.GArray

namespace MonoRuntime.HashTable

open KeyedMap Simulation Buckets List Option
open GArray (signed guint gint guint_eq gint_eq)

variable {K V : Type}

/-! ### Primes -/

theorem calcPrimeFrom_spec {x i : Nat} (given : 0 < x ∧ x < 2 ^ 31) (start : 0 < i) :
    0 < calcPrimeFrom x i ∧ calcPrimeFrom x i < 2 ^ 31 := by
  fun_induction calcPrimeFrom x i with
  | case1 i below prime => exact ⟨start, by omega⟩
  | case2 i below other ih => exact ih (by omega)
  | case3 i past => exact given

theorem gSpacedPrimesClosest_spec {x : Nat} (small : x < 2 ^ 31) :
    ∃ size, gSpacedPrimesClosest x = some size ∧ 0 < size ∧ size < 2 ^ 31 := by
  unfold gSpacedPrimesClosest
  cases found : primeTbl.find? fun prime => decide (x ≤ prime) with
  | some prime =>
    have known : ∀ prime ∈ primeTbl, 0 < prime ∧ prime < 2 ^ 31 := by decide
    exact ⟨prime, rfl, known prime (mem_of_find?_eq_some found)⟩
  | none =>
    have large : ¬ x ≤ 11 := by
      have all := find?_eq_none.1 found 11 (by decide)
      simpa using all
    have range : 0 < x ∧ x < 2 ^ 31 := ⟨by omega, small⟩
    have start : 0 < x / 2 * 2 - 1 := by omega
    refine ⟨calcPrimeFrom x (x / 2 * 2 - 1), ?_, calcPrimeFrom_spec range start⟩
    unfold calcPrime
    rw [if_pos small]

/-! ### The invariant -/

/-- What holds between calls on a table with the two destroy functions. -/
structure Inv (f : KeyFuncs K) (keyDestroy valueDestroy : Bool) (h : GHashTable K V) (m : Map K V) :
    Prop where
  listed : Lists f.toKeyEquiv h.table.flatten m
  placed : Placed (fun s => hashcode f h.tableSize s.1) h.table
  chains : (h.table.length : Int) = h.tableSize
  positive : 0 < h.tableSize
  sizeSmall : h.tableSize < 2 ^ 31
  inUse : h.inUse = h.table.flatten.length
  inUseSmall : h.inUse < 2 ^ 31
  threshold : h.threshold = 0
  lastRehash : 0 < h.lastRehash ∧ h.lastRehash < 2 ^ 31
  keyDestroy : h.keyDestroyFunc = keyDestroy
  valueDestroy : h.valueDestroyFunc = valueDestroy

variable {f : KeyFuncs K} {keyDestroy valueDestroy : Bool} {h : GHashTable K V} {m : Map K V}

theorem hashcode_lt {size : Int} (positive : 0 < size) (small : size < 2 ^ 31) (key : K) :
    hashcode f size key < size.toNat := by
  unfold hashcode
  rw [guint_eq (by omega) (by omega)]
  apply Nat.mod_lt
  omega

theorem Inv.chainOf (inv : Inv f keyDestroy valueDestroy h m) (key : K) :
    ∃ chain, HashTable.chainOf f h key = some chain ∧ h.table[hashcode f h.tableSize key]? = some chain := by
  have inside : hashcode f h.tableSize key < h.table.length := by
    have small := hashcode_lt (f := f) inv.positive inv.sizeSmall key
    have chains := inv.chains
    omega
  exact ⟨_, getElem?_eq_getElem inside, getElem?_eq_getElem inside⟩

theorem hashcode_congr {a b : K} (same : f.same a b = true) (size : Int) : hashcode f size a = hashcode f size b := by
  unfold hashcode
  rw [f.respects same]

variable {key : K} {chain : List (Slot K V)}

theorem Inv.find_chain (inv : Inv f keyDestroy valueDestroy h m)
    (found : h.table[hashcode f h.tableSize key]? = some chain) :
    chain.find? (fun s => f.same s.1 key) = m key := by
  rw [← inv.listed.found key]
  unfold KeyedMap.lookup
  rw [find?_flatten inv.placed found]
  intro s same
  exact hashcode_congr same h.tableSize

theorem Inv.lookup (inv : Inv f keyDestroy valueDestroy h m) (key : K) :
    gHashTableLookupExtended f h key = some (m key) := by
  obtain ⟨chain, is, found⟩ := inv.chainOf key
  unfold gHashTableLookupExtended
  rw [is, map_some, inv.find_chain found]

theorem new_spec (f : KeyFuncs K) (keyDestroy valueDestroy : Bool) :
    ∃ h : GHashTable K V, gHashTableNewFull keyDestroy valueDestroy = some h ∧ Inv f keyDestroy valueDestroy h empty := by
  have size : gSpacedPrimesClosest 1 = some 11 := by decide
  refine ⟨_, by rw [gHashTableNewFull, size]; rfl, ?_⟩
  exact {
    listed := Lists.nil
    placed := placed_replicate _ 11
    chains := rfl
    positive := (by decide : (0 : Int) < 11)
    sizeSmall := (by decide : (11 : Int) < 2 ^ 31)
    inUse := rfl
    inUseSmall := (by decide : (0 : Int) < 2 ^ 31)
    threshold := rfl
    lastRehash := (by decide : (0 : Int) < 11 ∧ (11 : Int) < 2 ^ 31)
    keyDestroy := rfl
    valueDestroy := rfl }

/-! ### Rehashing -/

theorem Inv.rebuilt {table : List (List (Slot K V))} {size : Int} (inv : Inv f keyDestroy valueDestroy h m)
    (placed : Placed (fun s => hashcode f size s.1) table) (chains : (table.length : Int) = size)
    (positive : 0 < size) (small : size < 2 ^ 31) (perm : table.flatten.Perm h.table.flatten) :
    Inv f keyDestroy valueDestroy
      { h with table := table, tableSize := size, lastRehash := h.tableSize } m where
  listed := inv.listed.perm perm.symm
  placed := placed
  chains := chains
  positive := positive
  sizeSmall := small
  inUse := by rw [perm.length_eq, inv.inUse]
  inUseSmall := inv.inUseSmall
  threshold := inv.threshold
  lastRehash := ⟨inv.positive, inv.sizeSmall⟩
  keyDestroy := inv.keyDestroy
  valueDestroy := inv.valueDestroy

theorem doRehash_spec (inv : Inv f keyDestroy valueDestroy h m) :
    ∃ h', doRehash f h = some h' ∧ h'.inUse = h.inUse ∧ Inv f keyDestroy valueDestroy h' m := by
  have inUse := inv.inUse
  have inUseSmall := inv.inUseSmall
  obtain ⟨prime, found, positive, small⟩ :=
    gSpacedPrimesClosest_spec (x := guint h.inUse) (by rw [guint_eq (by omega) (by omega)]; omega)
  have size : gint prime = prime := gint_eq small
  have positive' : 0 < gint prime := by omega
  have small' : gint prime < 2 ^ 31 := by omega
  obtain ⟨table, pushed, length, placed, perm⟩ :=
    pushAll_spec h.table.flatten (placed_replicate (fun s => hashcode f (gint prime) s.1) prime) (by
      intro s _
      have inside := hashcode_lt (f := f) positive' small' s.1
      rw [length_replicate]
      omega)
  rw [length_replicate] at length
  have empty : (List.replicate prime ([] : List (Slot K V))).flatten = [] := by
    rw [flatten_replicate_nil]
  rw [empty, append_nil] at perm
  have chains : (table.length : Int) = gint prime := by rw [size, length]
  refine ⟨{ h with table := table, tableSize := gint prime, lastRehash := h.tableSize }, ?_,
    rfl, ?_⟩
  · show (gSpacedPrimesClosest (guint h.inUse)).bind _ = _
    rw [found, bind_some]
    show (pushAll _ _ _).bind _ = _
    rw [pushed, bind_some]
  · exact inv.rebuilt placed chains positive' small' perm

theorem rehash_spec (inv : Inv f keyDestroy valueDestroy h m) (fits : h.tableSize < 2 ^ 30) :
    ∃ h', rehash f h = some h' ∧ h'.inUse = h.inUse ∧ Inv f keyDestroy valueDestroy h' m := by
  have inUse := inv.inUse
  have inUseSmall := inv.inUseSmall
  have lastRehash := inv.lastRehash
  have positive := inv.positive
  have difference : signed (h.lastRehash - h.inUse) = some (h.lastRehash - h.inUse) := by
    unfold signed
    rw [if_pos ⟨by omega, by omega⟩]
  have twice : signed (h.tableSize * 2) = some (h.tableSize * 2) := by
    unfold signed
    rw [if_pos ⟨by omega, by omega⟩]
  have absolute : ∃ diff, absInt (h.lastRehash - h.inUse) = some diff := by
    unfold absInt signed
    split
    · exact ⟨_, rfl⟩
    · rw [if_pos ⟨by omega, by omega⟩]
      exact ⟨_, rfl⟩
  obtain ⟨diff, absolute⟩ := absolute
  have decided : rehash f h
      = if diff * 3 > h.tableSize * 2 * 4 then doRehash f h else some h := by
    show (signed (h.lastRehash - h.inUse)).bind (fun difference => (absInt difference).bind fun diff =>
      (signed (h.tableSize * 2)).bind fun twice =>
        if diff * 3 > twice * 4 then doRehash f h else some h) = _
    rw [difference, bind_some, absolute, bind_some, twice, bind_some]
  rw [decided]
  split
  · exact doRehash_spec inv
  · exact ⟨h, rfl, rfl, inv⟩

/-! ### Walks along a chain -/

/-- The walk of an insertion stops at the slot that the search finds, and writes to it. -/
theorem replaceInChain_spec (f : KeyFuncs K) (key : K) (value : V) (replace : Bool) (chain : List (Slot K V)) :
    match chain.find? (fun s => f.same s.1 key) with
    | none => replaceInChain f key value replace chain = none
    | some old => ∃ before later, chain = before ++ old :: later ∧
        replaceInChain f key value replace chain
          = some (before ++ (if replace then key else old.1, value) :: later, old) := by
  induction chain with
  | nil => rfl
  | cons s rest ih =>
    rw [find?_cons]
    unfold replaceInChain
    cases same : f.same s.1 key with
    | true => exact ⟨[], rest, rfl, rfl⟩
    | false =>
      cases found : rest.find? (fun s => f.same s.1 key) with
      | none =>
        rw [found] at ih
        rw [ih]
        rfl
      | some old =>
        rw [found] at ih
        obtain ⟨before, later, split, walked⟩ := ih
        exact ⟨s :: before, later, by rw [split]; rfl, by rw [walked]; rfl⟩

/-- The walk of a removal stops at the slot that the search finds, and unlinks it. -/
theorem unlinkInChain_spec (f : KeyFuncs K) (key : K) (chain : List (Slot K V)) :
    match chain.find? (fun s => f.same s.1 key) with
    | none => unlinkInChain f key chain = none
    | some old => ∃ before later, chain = before ++ old :: later ∧
        unlinkInChain f key chain = some (before ++ later, old) := by
  induction chain with
  | nil => rfl
  | cons s rest ih =>
    rw [find?_cons]
    unfold unlinkInChain
    cases same : f.same s.1 key with
    | true => exact ⟨[], rest, rfl, rfl⟩
    | false =>
      cases found : rest.find? (fun s => f.same s.1 key) with
      | none =>
        rw [found] at ih
        rw [ih]
        rfl
      | some old =>
        rw [found] at ih
        obtain ⟨before, later, split, walked⟩ := ih
        exact ⟨s :: before, later, by rw [split]; rfl, by rw [walked]; rfl⟩

theorem sweepChain_eq (func : K → V → Bool) (chain : List (Slot K V)) : sweepChain func chain
      = (chain.filter (fun s => !func s.1 s.2), chain.filter fun s => func s.1 s.2) := by
  induction chain with
  | nil => rfl
  | cons s rest ih =>
    unfold sweepChain
    rw [ih]
    cases gone : func s.1 s.2 with
    | true | false =>
      rw [filter_cons, filter_cons, gone]
      rfl

/-! ### The calls -/

theorem Inv.exchanged {inUse : Int} {m' : Map K V} (inv : Inv f keyDestroy valueDestroy h m)
    (here : ∀ s ∈ chain, hashcode f h.tableSize s.1 = hashcode f h.tableSize key)
    (listed : Lists f.toKeyEquiv (setChain f h key chain).flatten m')
    (count : inUse = (setChain f h key chain).flatten.length) (small : inUse < 2 ^ 31) :
    Inv f keyDestroy valueDestroy { h with table := setChain f h key chain, inUse := inUse } m' where
  listed := listed
  placed := inv.placed.set here
  chains := by
    show ((h.table.set _ chain).length : Int) = h.tableSize
    rw [length_set]
    exact inv.chains
  positive := inv.positive
  sizeSmall := inv.sizeSmall
  inUse := count
  inUseSmall := small
  threshold := inv.threshold
  lastRehash := inv.lastRehash
  keyDestroy := inv.keyDestroy
  valueDestroy := inv.valueDestroy

theorem Inv.place (inv : Inv f keyDestroy valueDestroy h m)
    (found : h.table[hashcode f h.tableSize key]? = some chain) {s : Slot K V} (inside : s ∈ chain) :
    hashcode f h.tableSize s.1 = hashcode f h.tableSize key :=
  inv.placed _ chain found s inside

theorem Inv.destroy (inv : Inv f keyDestroy valueDestroy h m) (keys : List K) (values : List V) (count : Nat) :
    h.destroy keys values count = released keyDestroy valueDestroy keys values count := by
  unfold GHashTable.destroy
  rw [inv.keyDestroy, inv.valueDestroy]

theorem insertSlot_spec (inv : Inv f keyDestroy valueDestroy h m) (key : K) (value : V) (replace : Bool)
    (fits : m key = none → h.inUse < 2 ^ 31 - 1) : ∃ h', insertSlot f h key value replace
        = some (h', released keyDestroy valueDestroy
            (if replace then (m key).toList.map Prod.fst else []) ((m key).toList.map Prod.snd) 0) ∧
      Inv f keyDestroy valueDestroy h' (store f.toKeyEquiv key value replace m) := by
  have inUse := inv.inUse
  have inUseSmall := inv.inUseSmall
  obtain ⟨chain, is, found⟩ := inv.chainOf key
  obtain ⟨front, back, split, changed⟩ := flatten_at found
  have searched := inv.find_chain found
  have walk := replaceInChain_spec f key value replace chain
  have listed := inv.listed
  rw [searched] at walk
  cases held : m key with
  | some old =>
    rw [held] at walk searched
    obtain ⟨before, later, chainSplit, walked⟩ := walk
    have same : f.same old.1 key = true :=
      find?_some (p := fun s : Slot K V => f.same s.1 key) searched
    refine ⟨{ h with
      table := setChain f h key (before ++ (if replace then key else old.1, value) :: later) },
      ?_, ?_⟩
    · show (HashTable.chainOf f h key).bind _ = _
      rw [is, bind_some, walked]
      show some (_, h.destroy (if replace then [old.1] else []) [old.2] 0) = _
      rw [inv.destroy]
      rfl
    · have keySame : f.same (if replace then key else old.1) key = true := by
        cases replace with
        | true => exact f.refl key
        | false => exact same
      refine inv.exchanged ?_ ?_ ?_ inUseSmall
      · intro s inside
        rcases mem_append.1 inside with there | there
        · exact inv.place found (by rw [chainSplit]; exact mem_append_left _ there)
        · rcases mem_cons.1 there with itself | there
          · rw [itself]
            exact hashcode_congr keySame h.tableSize
          · exact inv.place found (by
              rw [chainSplit]
              exact mem_append_right _ (mem_cons_of_mem _ there))
      · rw [split, chainSplit] at listed
        rw [setChain, changed]
        have listed' : Lists f.toKeyEquiv ((front ++ before) ++ old :: (later ++ back)) m := by
          simpa using listed
        simpa using listed'.overwrite same value replace
      · rw [inUse, setChain, changed, split, chainSplit]
        simp
  | none =>
    rw [held] at walk
    have room := fits held
    have counted : signed (h.inUse + 1) = some (h.inUse + 1) := by
      unfold signed
      rw [if_pos ⟨by omega, by omega⟩]
    refine ⟨{ h with table := setChain f h key ((key, value) :: chain), inUse := h.inUse + 1 },
      ?_, ?_⟩
    · show (HashTable.chainOf f h key).bind _ = _
      rw [is, bind_some, walk]
      show (signed (h.inUse + 1)).bind _ = _
      rw [counted, bind_some, inv.destroy]
      cases replace with
      | true | false => rfl
    · apply inv.exchanged
      · intro s inside
        rcases mem_cons.1 inside with itself | there
        · rw [itself]
        · exact inv.place found there
      · rw [setChain, changed]
        have pushed := listed.cons value replace held
        rw [split, append_assoc] at pushed
        rw [append_assoc, cons_append]
        exact pushed.perm perm_middle.symm
      · rw [inUse, setChain, changed, split]
        simp
        omega
      · omega

theorem insertReplace_spec (inv : Inv f keyDestroy valueDestroy h m) (key : K) (value : V) (replace : Bool)
    (fits : h.tableSize < 2 ^ 30) (room : m key = none → h.inUse < 2 ^ 31 - 1) :
    ∃ h', gHashTableInsertReplace f h key value replace = some (h', released keyDestroy valueDestroy
            (if replace then (m key).toList.map Prod.fst else []) ((m key).toList.map Prod.snd) 0) ∧
      Inv f keyDestroy valueDestroy h' (store f.toKeyEquiv key value replace m) := by
  obtain ⟨rehashed, again, same, inv'⟩ := rehash_spec inv fits
  obtain ⟨h', result, stored⟩ :=
    insertSlot_spec inv' key value replace (by rw [same]; exact room)
  refine ⟨h', ?_, stored⟩
  have always : h.inUse ≥ h.threshold := by
    rw [inv.threshold, inv.inUse]
    omega
  unfold gHashTableInsertReplace
  rw [if_pos always, again, bind_some, result]

theorem remove_spec (inv : Inv f keyDestroy valueDestroy h m) (key : K) : ∃ h', gHashTableRemove f h key
        = some (h', released keyDestroy valueDestroy ((m key).toList.map Prod.fst)
            ((m key).toList.map Prod.snd) (m key).toList.length) ∧
      Inv f keyDestroy valueDestroy h' (erase f.toKeyEquiv key m) := by
  have inUse := inv.inUse
  have inUseSmall := inv.inUseSmall
  obtain ⟨chain, is, found⟩ := inv.chainOf key
  obtain ⟨front, back, split, changed⟩ := flatten_at found
  have searched := inv.find_chain found
  have walk := unlinkInChain_spec f key chain
  have listed := inv.listed
  rw [searched] at walk
  cases held : m key with
  | some old =>
    rw [held] at walk searched
    obtain ⟨before, later, chainSplit, walked⟩ := walk
    have same : f.same old.1 key = true :=
      find?_some (p := fun s : Slot K V => f.same s.1 key) searched
    refine ⟨{ h with table := setChain f h key (before ++ later), inUse := h.inUse - 1 }, ?_, ?_⟩
    · show (HashTable.chainOf f h key).bind _ = _
      rw [is, bind_some, walked]
      show some (_, h.destroy [old.1] [old.2] 1) = _
      rw [inv.destroy]
      rfl
    · apply inv.exchanged
      · intro s inside
        rcases mem_append.1 inside with there | there
        · exact inv.place found (by rw [chainSplit]; exact mem_append_left _ there)
        · exact inv.place found (by
            rw [chainSplit]
            exact mem_append_right _ (mem_cons_of_mem _ there))
      · rw [split, chainSplit] at listed
        rw [setChain, changed]
        have listed' : Lists f.toKeyEquiv ((front ++ before) ++ old :: (later ++ back)) m := by
          simpa using listed
        simpa using listed'.unlink same
      · rw [inUse, setChain, changed, split, chainSplit]
        simp
        omega
      · omega
  | none =>
    rw [held] at walk
    refine ⟨h, ?_, ?_⟩
    · show (HashTable.chainOf f h key).bind _ = _
      rw [is, bind_some, walk]
      rw [inv.destroy]
      rfl
    · -- Without an entry under the key the map stays as it is.
      have unchanged : erase f.toKeyEquiv key m = m := by
        funext k
        unfold erase
        cases same : f.same key k with
        | true => rw [if_pos rfl, ← listed.congr same, held]
        | false => rfl
      rw [unchanged]
      exact inv

theorem Inv.swept (inv : Inv f keyDestroy valueDestroy h m) (func : K → V → Bool) : Inv f keyDestroy valueDestroy
      { h with table := h.table.map fun chain => (sweepChain func chain).1,
               inUse := h.inUse - (h.table.flatten.filter fun s => func s.1 s.2).length }
      (select (fun key value => !func key value) m) := by
  have kept : (h.table.map fun chain => (sweepChain func chain).1).flatten
      = h.table.flatten.filter fun s => !func s.1 s.2 := by
    rw [filter_flatten]
    congr 1
    apply map_congr_left
    intro chain _
    rw [sweepChain_eq]
  have inUse := inv.inUse
  have inUseSmall := inv.inUseSmall
  have parts : h.table.flatten.length
      = (h.table.flatten.filter fun s => func s.1 s.2).length
        + (h.table.flatten.filter fun s => !func s.1 s.2).length :=
    length_eq_length_filter_add fun s : Slot K V => func s.1 s.2
  exact {
    listed := by
      rw [kept]
      exact inv.listed.filter fun key value => !func key value
    placed := by
      intro i chain found s inside
      rw [getElem?_map] at found
      obtain ⟨whole, there, part⟩ := map_eq_some_iff.1 found
      rw [← part, sweepChain_eq] at inside
      exact inv.placed i whole there s (mem_of_mem_filter inside)
    chains := by
      rw [length_map]
      exact inv.chains
    positive := inv.positive
    sizeSmall := inv.sizeSmall
    inUse := by
      show h.inUse - _ = ((List.flatten _).length : Int)
      rw [kept]
      omega
    inUseSmall := by
      show h.inUse - _ < 2 ^ 31
      omega
    threshold := inv.threshold
    lastRehash := inv.lastRehash
    keyDestroy := inv.keyDestroy
    valueDestroy := inv.valueDestroy }

/-- A sweep whose rehash, if there is one, has room takes out what the predicate says. -/
theorem sweep_spec (inv : Inv f keyDestroy valueDestroy h m) (func : K → V → Bool)
    (fits : (∃ s ∈ h.table.flatten, func s.1 s.2 = true) → h.tableSize < 2 ^ 30) :
    ∃ h' gone, sweep f h func = some (h', gone) ∧ Lists f.toKeyEquiv gone (select func m) ∧
      Inv f keyDestroy valueDestroy h' (select (fun key value => !func key value) m) := by
  have gone : (h.table.flatMap fun chain => (sweepChain func chain).2)
      = h.table.flatten.filter fun s => func s.1 s.2 := by
    rw [filter_flatten, flatMap_def]
    congr 1
    apply map_congr_left
    intro chain _
    rw [sweepChain_eq]
  have taken : Lists f.toKeyEquiv (h.table.flatten.filter fun s => func s.1 s.2) (select func m) :=
    inv.listed.filter func
  have swept := inv.swept func
  unfold sweep
  rw [gone]
  by_cases any : (h.table.flatten.filter fun s => func s.1 s.2).length > 0
  · obtain ⟨s, inside⟩ := exists_mem_of_length_pos any
    obtain ⟨there, satisfied⟩ := mem_filter.1 inside
    obtain ⟨h', again, -, inv'⟩ := rehash_spec swept (fits ⟨s, there, satisfied⟩)
    refine ⟨h', _, ?_, taken, inv'⟩
    rw [if_pos any, again]
    rfl
  · refine ⟨_, _, ?_, taken, swept⟩
    rw [if_neg any]

/-! ### Iterators -/

theorem nextChain_spec (size : Int) (chains : List (List (Slot K V))) (index : Int)
    (rest : index + chains.length = size) : (chains.flatten = [] ∧ nextChain size chains index = some none) ∨
      ∃ skipped s chain later, chains = skipped ++ (s :: chain) :: later ∧ skipped.flatten = [] ∧
        nextChain size chains index = some (some (index + skipped.length, s, chain)) := by
  induction chains generalizing index with
  | nil =>
    refine Or.inl ⟨rfl, ?_⟩
    have past : index ≥ size := by
      rw [length_nil] at rest
      omega
    unfold nextChain
    rw [if_pos past]
  | cons chain chains ih =>
    rw [length_cons] at rest
    have below : ¬ index ≥ size := by omega
    unfold nextChain
    rw [if_neg below]
    cases chain with
    | cons s chain => exact Or.inr ⟨[], s, chain, chains, rfl, rfl, by simp⟩
    | nil =>
      rcases ih (index + 1) (by omega) with ⟨nothing, past⟩ | ⟨skipped, s, chain, later, split, gap, next⟩
      · exact Or.inl ⟨nothing, past⟩
      · refine Or.inr ⟨[] :: skipped, s, chain, later, by rw [split]; rfl, gap, ?_⟩
        dsimp only
        rw [next, length_cons]
        congr 3
        omega

/-- An iterator visits the slots that are left in its chain and those of the chains behind it. -/
theorem iterate_spec (chains : (h.table.length : Int) = h.tableSize) (calls : Nat) (iter : Iter K V)
    (low : 0 ≤ iter.slotIndex + 1) (high : iter.slotIndex + 1 ≤ h.tableSize)
    (enough : (iter.slot ++ (h.table.drop (iter.slotIndex + 1).toNat).flatten).length < calls) :
    iterate h calls iter = some (iter.slot ++ (h.table.drop (iter.slotIndex + 1).toNat).flatten) := by
  induction calls generalizing iter with
  | zero => cases enough
  | succ calls ih =>
    have open_ : ¬ iter.slotIndex = -2 := by omega
    obtain ⟨index, slot⟩ := iter
    have low' : 0 ≤ index + 1 := low
    have high' : index + 1 ≤ h.tableSize := high
    unfold iterate gHashTableIterNext
    rw [if_neg open_]
    cases slot with
    | cons s rest =>
      have left := ih { slotIndex := index, slot := rest } low high
        (Nat.lt_of_succ_lt_succ enough)
      show (iterate h calls { slotIndex := index, slot := rest }).map _ = _
      rw [left]
      rfl
    | nil =>
      have length : index + 1 + (h.table.drop (index + 1).toNat).length = h.tableSize := by
        rw [length_drop]
        omega
      rcases nextChain_spec h.tableSize (h.table.drop (index + 1).toNat) (index + 1) length with
        ⟨nothing, past⟩ | ⟨skipped, s, chain, later, split, gap, next⟩
      · dsimp only
        rw [past, nothing]
        rfl
      · have behind : h.table.drop (index + 1 + skipped.length + 1).toNat = later := by
          have moved : (index + 1 + skipped.length + 1).toNat
              = (index + 1).toNat + (skipped.length + 1) := by omega
          rw [moved, ← drop_drop, split, ← drop_drop, drop_left]
          rfl
        have inside : (skipped.length : Int) + 1 ≤ (h.table.drop (index + 1).toNat).length := by
          rw [split, length_append, length_cons]
          omega
        have items : (h.table.drop (index + 1).toNat).flatten = s :: (chain ++ later.flatten) := by
          rw [split, flatten_append, gap]
          rfl
        have left := ih { slotIndex := index + 1 + skipped.length, slot := chain }
          (by show (0 : Int) ≤ index + 1 + skipped.length + 1; omega)
          (by show index + 1 + skipped.length + 1 ≤ h.tableSize; omega)
          (by
            rw [behind]
            rw [items] at enough
            exact Nat.lt_of_succ_lt_succ enough)
        rw [next, map_some, bind_some]
        rw [left, behind, items]
        rfl

/-! ### The map -/

theorem foreach_eq (h : GHashTable K V) : gHashTableForeach h = h.table.flatten := by
  unfold gHashTableForeach
  rw [flatMap_def, List.map_id']

theorem Inv.represents (inv : Inv f keyDestroy valueDestroy h m) : Represents f h m := by
  have size : gHashTableSize h = h.table.flatten.length := by
    have inUse := inv.inUse
    have inUseSmall := inv.inUseSmall
    unfold gHashTableSize
    rw [guint_eq (by omega) (by omega)]
    omega
  have positive := inv.positive
  refine ⟨?_, ?_, ?_, positive⟩
  · rw [foreach_eq]
    exact inv.listed
  · rw [foreach_eq, size]
  · refine ⟨h.table.flatten, ?_, inv.listed⟩
    apply iterate_spec inv.chains
    · show (0 : Int) ≤ -1 + 1
      decide
    · show (-1 + 1 : Int) ≤ h.tableSize
      omega
    · show ([] ++ h.table.flatten).length < _
      rw [size]
      exact Nat.lt_succ_self _

/-- A call that meets its condition answers what the map says, and leaves the table of the map
after the call. -/
theorem call_spec {call : Call K V} (inv : Inv f keyDestroy valueDestroy h m) (meets : call.Meets f h) :
    ∃ h' o, call.apply f h = some (h', o) ∧ call.Answers f keyDestroy valueDestroy m o ∧
      Inv f keyDestroy valueDestroy h' (call.onMap f m) := by
  cases call with
  | insertReplace key value replace =>
    obtain ⟨fits, room⟩ := meets
    obtain ⟨h', result, inv'⟩ := insertReplace_spec inv key value replace fits (by
      intro missing
      exact room (by rw [inv.lookup, missing]))
    exact ⟨h', _, result, rfl, inv'⟩
  | remove key =>
    obtain ⟨h', result, inv'⟩ := remove_spec inv key
    exact ⟨h', _, result, rfl, inv'⟩
  | foreachRemove func | foreachSteal func =>
    have fits : (∃ s ∈ h.table.flatten, func s.1 s.2 = true) → h.tableSize < 2 ^ 30 := by
      rw [← foreach_eq]
      exact meets
    obtain ⟨h', gone, swept, taken, inv'⟩ := sweep_spec inv func fits
    refine ⟨h', _, ?_, ⟨gone, taken, rfl⟩, inv'⟩
    show (sweep f h func).map _ = _
    rw [swept, map_some, inv.destroy]
  | removeAll =>
    have fits : (∃ s ∈ h.table.flatten, true = true) → h.tableSize < 2 ^ 30 := by
      rintro ⟨s, inside, -⟩
      apply meets
      rw [foreach_eq]
      exact ne_nil_of_mem inside
    obtain ⟨h', gone, swept, taken, inv'⟩ := sweep_spec inv (fun _ _ => true) fits
    have all : select (fun _ _ => true) m = m := by
      funext k
      unfold select
      cases m k with
      | none | some held => rfl
    have nothing : select (fun _ _ => !true) m = empty := by
      funext k
      unfold select
      cases m k with
      | none | some held => rfl
    rw [all] at taken
    rw [nothing] at inv'
    refine ⟨h', _, ?_, ⟨gone, taken, rfl⟩, inv'⟩
    show (sweep f h fun _ _ => true).map _ = _
    rw [swept, map_some, inv.destroy]
  | lookup key =>
    refine ⟨h, _, ?_, rfl, inv⟩
    show (gHashTableLookup f h key).map _ = _
    unfold gHashTableLookup
    rw [inv.lookup]
    rfl
  | lookupExtended key =>
    refine ⟨h, _, ?_, rfl, inv⟩
    show (gHashTableLookupExtended f h key).map _ = _
    rw [inv.lookup]
    rfl

/-- Over every run whose calls stay within the two counters, the table answers like a finite map,
tells the number of its entries, visits each of them once and hands what it lets go of to the destroy
functions, once. -/
theorem gHashTable_refinesMap (f : KeyFuncs K) (keyDestroy valueDestroy : Bool)
    (calls : List (Call K V))
    (meets : EveryCallMeets f keyDestroy valueDestroy calls) :
    Faithful f keyDestroy valueDestroy calls := by
  obtain ⟨h, made, inv⟩ := new_spec (V := V) f keyDestroy valueDestroy
  refine ⟨h, made, ?_⟩
  have shows : ∀ {h : GHashTable K V} {m : Map K V}, Inv f keyDestroy valueDestroy h m → Represents f h m :=
    fun inv => inv.represents
  apply simulates_of_step shows
  · intro h m call inv meets
    exact call_spec inv meets
  · exact inv
  · exact meets h made

/-! ### Runs on numbers -/

/-- Numbers as keys, all of which fall into one chain. -/
def natKeys : KeyFuncs Nat where
  same a b := a == b
  refl a := beq_self_eq_true a
  symm := by
    intro a b same
    rw [Nat.beq_eq_true_eq] at *
    exact same.symm
  trans := by
    intro a b c ab bc
    rw [Nat.beq_eq_true_eq] at *
    exact ab.trans bc
  hash _ := 7
  respects _ := rfl

/-- Two keys are stored, the first one is exchanged, and everything is removed. -/
def fourCalls : List (Call Nat Nat) :=
  [.insertReplace 1 10 false, .insertReplace 2 20 false, .insertReplace 1 30 true, .removeAll]

/-- A run with both destroy functions. -/
theorem gHashTable_refinesMap_sample : Faithful natKeys true true fourCalls := by
  apply gHashTable_refinesMap
  intro h made
  cases made
  refine EveryCall.cons ⟨by decide, fun _ => by decide⟩ rfl ?_
  refine EveryCall.cons ⟨by decide, fun _ => by decide⟩ rfl ?_
  refine EveryCall.cons ⟨by decide, fun _ => by decide⟩ rfl ?_
  exact EveryCall.cons (fun _ => by decide) rfl trivial

/-- The insertions of the first `n` numbers. -/
def insertions (n : Nat) : List (Call Nat Unit) :=
  (List.range n).map fun key => .insertReplace key () false

theorem length_of_keys {entries : List (Nat × Unit)} {m : Map Nat Unit}
    (listed : Lists natKeys.toKeyEquiv entries m) (n : Nat) (present : ∀ k < n, m k ≠ none) : n ≤ entries.length := by
  have covered : List.range n ⊆ entries.map Prod.fst := by
    intro k inside
    cases held : m k with
    | none => exact absurd held (present k (mem_range.1 inside))
    | some entry =>
      have found := listed.found k
      rw [held] at found
      obtain ⟨there, same⟩ := (lookup_eq_some_iff listed.distinct).1 found
      have equal : entry.1 = k := eq_of_beq same
      rw [← equal]
      exact List.mem_map_of_mem there
  have length := (subperm_of_subset nodup_range covered).length_le
  rw [length_range, length_map] at length
  exact length

theorem insertions_present (n k : Nat) (small : k < n) :
    runAbstract (Call.onMap natKeys) empty (insertions n) k ≠ none := by
  induction n with
  | zero => cases small
  | succ n ih =>
    have split : insertions (n + 1) = insertions n ++ [.insertReplace n () false] := by
      unfold insertions
      rw [range_succ, map_append]
      rfl
    unfold runAbstract at ih ⊢
    rw [split, foldl_append]
    show store natKeys.toKeyEquiv n () false _ k ≠ none
    unfold store
    split
    · split
      · simp
      · simp
    · next different =>
        apply ih
        have other : n ≠ k := by
          intro equal
          exact different (by rw [equal]; exact natKeys.refl k)
        omega

theorem rehash_inUse {f : KeyFuncs K} {h h' : GHashTable K V} (again : rehash f h = some h') : h'.inUse = h.inUse := by
  obtain ⟨difference, -, again⟩ := bind_eq_some_iff.1 again
  obtain ⟨diff, -, again⟩ := bind_eq_some_iff.1 again
  obtain ⟨twice, -, again⟩ := bind_eq_some_iff.1 again
  split at again
  · unfold doRehash at again
    obtain ⟨prime, -, again⟩ := bind_eq_some_iff.1 again
    obtain ⟨table, -, again⟩ := bind_eq_some_iff.1 again
    cases again
    rfl
  · cases again
    rfl

/-- An insertion that goes through leaves the number of entries in the range of `int`. -/
theorem insert_inUse {f : KeyFuncs K} {h h' : GHashTable K V} {o : Outcome K V} {value : V} {replace : Bool}
    (inserted : gHashTableInsertReplace f h key value replace = some (h', o))
    (range : 0 ≤ h.inUse ∧ h.inUse < 2 ^ 31) : 0 ≤ h'.inUse ∧ h'.inUse < 2 ^ 31 := by
  obtain ⟨rehashed, again, inserted⟩ := bind_eq_some_iff.1 inserted
  have same : rehashed.inUse = h.inUse := by
    split at again
    · exact rehash_inUse again
    · cases again
      rfl
  obtain ⟨chain, -, inserted⟩ := bind_eq_some_iff.1 inserted
  split at inserted
  · cases inserted
    rw [same]
    exact range
  · obtain ⟨inUse, counted, inserted⟩ := bind_eq_some_iff.1 inserted
    cases inserted
    unfold signed at counted
    split at counted
    · next fits =>
        cases counted
        show 0 ≤ rehashed.inUse + 1 ∧ rehashed.inUse + 1 < 2 ^ 31
        omega
    · cases counted

theorem insertions_inUse {h h' : GHashTable Nat Unit} {os : List (Outcome Nat Unit)} (keys : List Nat)
    (ran : run (Call.apply natKeys) h (keys.map fun key => .insertReplace key () false) = some (h', os))
    (range : 0 ≤ h.inUse ∧ h.inUse < 2 ^ 31) : 0 ≤ h'.inUse ∧ h'.inUse < 2 ^ 31 := by
  induction keys generalizing h os with
  | nil =>
    cases ran
    exact range
  | cons key keys ih =>
    obtain ⟨next, inserted, ran⟩ := bind_eq_some_iff.1 ran
    obtain ⟨rest, later, same⟩ := map_eq_some_iff.1 ran
    cases same
    exact ih later (insert_inUse inserted range)

/-- The number of entries is kept in an `int`, so a table cannot take in 2^31 keys. -/
theorem insertions_notFaithful (n : Nat) (large : 2 ^ 31 ≤ n) : ¬ Faithful natKeys false false (insertions n) := by
  rintro ⟨h, made, simulated⟩
  cases made
  obtain ⟨h', os, ran, represents⟩ := simulated.total
  have range := insertions_inUse (List.range n) ran ⟨by decide, by decide⟩
  have length := length_of_keys represents.foreach n (insertions_present n)
  have size := represents.size
  unfold gHashTableSize at size
  rw [guint_eq range.1 (by omega)] at size
  omega

/-- Storing the first 2^31 numbers does not end in a table that holds them. -/
theorem gHashTable_losesCount : ¬ Faithful natKeys false false (insertions (2 ^ 31)) :=
  insertions_notFaithful (2 ^ 31) (Nat.le_refl _)

end MonoRuntime.HashTable
