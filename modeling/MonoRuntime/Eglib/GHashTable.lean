/-
Module: MonoRuntime.Eglib.GHashTable
Purpose: The chained hash tables of eglib with their rehashing and iterators, and the finite map that a table stands for.
Trusted boundary: every allocation is granted; callbacks do not touch the table
Main exports: GHashTable
-/
import MonoRuntime.Eglib.GArray
import MonoRuntime.Lib.KeyedMap
import MonoRuntime.Lib.Buckets
import MonoRuntime.Lib.Simulation

namespace MonoRuntime.HashTable

open KeyedMap Simulation
open GArray (signed guint gint)

/-! ### Primes -/

/-- `prime_tbl`. -/
def primeTbl : List Nat :=
  [11, 19, 37, 73, 109, 163, 251, 367, 557, 823, 1237, 1861, 2777, 4177, 6247, 9371, 14057, 21089,
    31627, 47431, 71143, 106721, 160073, 240101, 360163, 540217, 810343, 1215497, 1823231, 2734867,
    4102283, 6153409, 9230113, 13845163]

/-- The loop of `test_prime` from the divisor `n` on. -/
def noDivisor (x n : Nat) : Bool :=
  if n < Nat.sqrt x then
    if x % n = 0 then false else noDivisor x (n + 2)
  else true
termination_by Nat.sqrt x - n

/-- `test_prime`. -/
def testPrime (x : Nat) : Bool :=
  if x % 2 = 1 then noDivisor x 3 else x == 2

/-- The loop of `calc_prime` from `i` on, below `G_MAXINT32`. -/
def calcPrimeFrom (x i : Nat) : Nat :=
  if i < 2 ^ 31 - 1 then
    if testPrime i then i else calcPrimeFrom x (i + 2)
  else x
termination_by 2 ^ 31 - i

/-- `calc_prime`, which takes an `int`: an argument above its range arrives as a negative number,
of which no root can be taken. -/
def calcPrime (x : Nat) : Option Nat :=
  if x < 2 ^ 31 then some (calcPrimeFrom x (x / 2 * 2 - 1)) else none

/-- `g_spaced_primes_closest`. -/
def gSpacedPrimesClosest (x : Nat) : Option Nat :=
  match primeTbl.find? fun prime => decide (x ≤ prime) with
  | some prime => some prime
  | none => calcPrime x

/-! ### The table -/

/-- `hash_func` and `key_equal_func`: the equality is an equivalence that the hash respects. -/
structure KeyFuncs (K : Type) extends KeyEquiv K where
  hash : K → UInt32
  respects : ∀ {a b}, same a b = true → hash a = hash b

variable {K V : Type}

/-- `Slot`, without its link: a chain is a list of them. -/
abbrev Slot (K V : Type) : Type :=
  K × V

/-- `struct _GHashTable`; of the two destroy functions only the presence matters to the table. -/
structure GHashTable (K V : Type) where
  table : List (List (Slot K V))
  tableSize : Int
  inUse : Int
  threshold : Int
  lastRehash : Int
  valueDestroyFunc : Bool
  keyDestroyFunc : Bool
deriving DecidableEq

/-- `hash_func (key) % table_size`, with the size converted to unsigned. -/
def hashcode (f : KeyFuncs K) (size : Int) (key : K) : Nat :=
  (f.hash key).toNat % guint size

/-- `g_hash_table_new_full`. -/
def gHashTableNewFull (keyDestroyFunc valueDestroyFunc : Bool) : Option (GHashTable K V) :=
  (gSpacedPrimesClosest 1).map fun size =>
    { table := List.replicate size [], tableSize := size, inUse := 0, threshold := 0,
      lastRehash := size, valueDestroyFunc := valueDestroyFunc, keyDestroyFunc := keyDestroyFunc }

/-- `do_rehash`: the slots are pushed onto their new chains in the order of the old table. -/
def doRehash (f : KeyFuncs K) (h : GHashTable K V) : Option (GHashTable K V) := do
  let prime ← gSpacedPrimesClosest (guint h.inUse)
  let size := gint prime
  let table ← Buckets.pushAll (fun s => hashcode f size s.1) (List.replicate prime []) h.table.flatten
  some { h with table := table, tableSize := size, lastRehash := h.tableSize }

/-- `ABS`. -/
def absInt (x : Int) : Option Int :=
  if x > 0 then some x else signed (-x)

/-- `rehash`. The comparison is made in double precision, in which both sides are exact. -/
def rehash (f : KeyFuncs K) (h : GHashTable K V) : Option (GHashTable K V) := do
  let difference ← signed (h.lastRehash - h.inUse)
  let diff ← absInt difference
  let twice ← signed (h.tableSize * 2)
  if diff * 3 > twice * 4 then doRehash f h else some h

/-- The chain that a key belongs to. -/
def chainOf (f : KeyFuncs K) (h : GHashTable K V) (key : K) : Option (List (Slot K V)) :=
  h.table[hashcode f h.tableSize key]?

/-- Put a chain in the place of the one that a key belongs to. -/
def setChain (f : KeyFuncs K) (h : GHashTable K V) (key : K) (chain : List (Slot K V)) :
    List (List (Slot K V)) :=
  h.table.set (hashcode f h.tableSize key) chain

/-- What a call tells its caller and hands to the destroy functions. -/
structure Outcome (K V : Type) where
  found : Option (Slot K V)
  value : Option V
  count : Nat
  destroyedKeys : List K
  destroyedValues : List V
deriving DecidableEq

/-- The outcome of a call without any effect. -/
def Outcome.nothing : Outcome K V :=
  { found := none, value := none, count := 0, destroyedKeys := [], destroyedValues := [] }

/-- The outcome of a call that hands keys and values to the destroy functions that there are. -/
def released (keyDestroy valueDestroy : Bool) (keys : List K) (values : List V) (count : Nat) :
    Outcome K V :=
  { Outcome.nothing with
    count := count,
    destroyedKeys := if keyDestroy then keys else [],
    destroyedValues := if valueDestroy then values else [] }

/-- `if (hash->key_destroy_func != NULL)` and its sibling, with the number of slots that a call
reports. -/
def GHashTable.destroy (h : GHashTable K V) (keys : List K) (values : List V) (count : Nat) :
    Outcome K V :=
  released h.keyDestroyFunc h.valueDestroyFunc keys values count

/-- Walk along a chain to the slot with the key and write to it; also the slot as it was. -/
def replaceInChain (f : KeyFuncs K) (key : K) (value : V) (replace : Bool) :
    List (Slot K V) → Option (List (Slot K V) × Slot K V)
  | [] => none
  | s :: rest =>
      if f.same s.1 key then some ((if replace then key else s.1, value) :: rest, s)
      else (replaceInChain f key value replace rest).map fun result => (s :: result.1, result.2)

/-- `g_hash_table_insert_replace` after the rehash that it may begin with. -/
def insertSlot (f : KeyFuncs K) (h : GHashTable K V) (key : K) (value : V) (replace : Bool) :
    Option (GHashTable K V × Outcome K V) := do
  let chain ← chainOf f h key
  match replaceInChain f key value replace chain with
  | some (chain, old) =>
      some ({ h with table := setChain f h key chain },
        h.destroy (if replace then [old.1] else []) [old.2] 0)
  | none =>
      let inUse ← signed (h.inUse + 1)
      some ({ h with table := setChain f h key ((key, value) :: chain), inUse := inUse },
        h.destroy [] [] 0)

/-- `g_hash_table_insert_replace`. -/
def gHashTableInsertReplace (f : KeyFuncs K) (h : GHashTable K V) (key : K) (value : V)
    (replace : Bool) : Option (GHashTable K V × Outcome K V) :=
  (if h.inUse ≥ h.threshold then rehash f h else some h).bind fun h =>
    insertSlot f h key value replace

/-- `g_hash_table_size`. -/
def gHashTableSize (h : GHashTable K V) : Nat :=
  guint h.inUse

/-- `g_hash_table_lookup_extended`. -/
def gHashTableLookupExtended (f : KeyFuncs K) (h : GHashTable K V) (key : K) :
    Option (Option (Slot K V)) :=
  (chainOf f h key).map fun chain => chain.find? fun s => f.same s.1 key

/-- `g_hash_table_lookup`, where nothing stands for the null pointer. -/
def gHashTableLookup (f : KeyFuncs K) (h : GHashTable K V) (key : K) : Option (Option V) :=
  (gHashTableLookupExtended f h key).map fun found => found.map fun s => s.2

/-- `g_hash_table_foreach`: the slots in the order in which the function is called with them. -/
def gHashTableForeach (h : GHashTable K V) : List (Slot K V) :=
  h.table.flatMap fun chain => chain

/-- Walk along a chain to the slot with the key and unlink it; also the slot. -/
def unlinkInChain (f : KeyFuncs K) (key : K) : List (Slot K V) → Option (List (Slot K V) × Slot K V)
  | [] => none
  | s :: rest =>
      if f.same s.1 key then some (rest, s)
      else (unlinkInChain f key rest).map fun result => (s :: result.1, result.2)

/-- `g_hash_table_remove`. -/
def gHashTableRemove (f : KeyFuncs K) (h : GHashTable K V) (key : K) :
    Option (GHashTable K V × Outcome K V) := do
  let chain ← chainOf f h key
  match unlinkInChain f key chain with
  | some (chain, old) =>
      some ({ h with table := setChain f h key chain, inUse := h.inUse - 1 },
        h.destroy [old.1] [old.2] 1)
  | none => some (h, h.destroy [] [] 0)

/-- The walk of the bulk removals along a chain: the slots that stay, and those that are unlinked. -/
def sweepChain (func : K → V → Bool) : List (Slot K V) → List (Slot K V) × List (Slot K V)
  | [] => ([], [])
  | s :: rest =>
      let swept := sweepChain func rest
      if func s.1 s.2 then (swept.1, s :: swept.2) else (s :: swept.1, swept.2)

/-- The loop that `g_hash_table_foreach_remove`, `g_hash_table_foreach_steal` and
`g_hash_table_remove_all` share, with the slots that it unlinks in their order. -/
def sweep (f : KeyFuncs K) (h : GHashTable K V) (func : K → V → Bool) :
    Option (GHashTable K V × List (Slot K V)) :=
  let gone := h.table.flatMap fun chain => (sweepChain func chain).2
  let h := { h with table := h.table.map fun chain => (sweepChain func chain).1,
                    inUse := h.inUse - gone.length }
  if gone.length > 0 then (rehash f h).map fun h => (h, gone) else some (h, gone)

/-- `g_hash_table_foreach_remove`. -/
def gHashTableForeachRemove (f : KeyFuncs K) (h : GHashTable K V) (func : K → V → Bool) :
    Option (GHashTable K V × Outcome K V) :=
  (sweep f h func).map fun result =>
    (result.1, h.destroy (result.2.map Prod.fst) (result.2.map Prod.snd) result.2.length)

/-- `g_hash_table_foreach_steal`. -/
def gHashTableForeachSteal (f : KeyFuncs K) (h : GHashTable K V) (func : K → V → Bool) :
    Option (GHashTable K V × Outcome K V) :=
  (sweep f h func).map fun result => (result.1, h.destroy [] [] result.2.length)

/-- `g_hash_table_remove_all`, which does not tell how many slots it unlinked. -/
def gHashTableRemoveAll (f : KeyFuncs K) (h : GHashTable K V) :
    Option (GHashTable K V × Outcome K V) :=
  (sweep f h fun _ _ => true).map fun result =>
    (result.1, h.destroy (result.2.map Prod.fst) (result.2.map Prod.snd) 0)

/-! ### Iterators -/

/-- `Iter`, where the slot pointer is the rest of the chain from that slot on. -/
structure Iter (K V : Type) where
  slotIndex : Int
  slot : List (Slot K V)

/-- `g_hash_table_iter_init`. -/
def gHashTableIterInit : Iter K V :=
  { slotIndex := -1, slot := [] }

/-- The loop that looks for the next chain with a slot, over the chains from the index on. -/
def nextChain (size : Int) (chains : List (List (Slot K V))) (index : Int) :
    Option (Option (Int × Slot K V × List (Slot K V))) :=
  if index ≥ size then some none
  else
    match chains with
    | [] => none
    | [] :: chains => nextChain size chains (index + 1)
    | (s :: rest) :: _ => some (some (index, s, rest))

/-- `g_hash_table_iter_next`: nothing when an assertion fails or the table is left; else the slot,
unless the iterator is at its end. -/
def gHashTableIterNext (h : GHashTable K V) (iter : Iter K V) :
    Option (Option (Slot K V) × Iter K V) :=
  if iter.slotIndex = -2 then none
  else
    match iter.slot with
    | s :: rest => some (some s, { iter with slot := rest })
    | [] =>
        (nextChain h.tableSize (h.table.drop (iter.slotIndex + 1).toNat) (iter.slotIndex + 1)).map
          fun next =>
            match next with
            | none => (none, { iter with slotIndex := -2 })
            | some (index, s, rest) => (some s, { slotIndex := index, slot := rest })

/-- The slots that an iterator visits until it answers that there are no more, which it has to do
within a number of calls. -/
def iterate (h : GHashTable K V) : Nat → Iter K V → Option (List (Slot K V))
  | 0, _ => none
  | calls + 1, iter =>
      (gHashTableIterNext h iter).bind fun next =>
        match next.1 with
        | none => some []
        | some s => (iterate h calls next.2).map fun rest => s :: rest

/-! ### What the table is for -/

/-- A call of one of the operations. -/
inductive Call (K V : Type) where
  | insertReplace (key : K) (value : V) (replace : Bool)
  | remove (key : K)
  | foreachRemove (func : K → V → Bool)
  | foreachSteal (func : K → V → Bool)
  | removeAll
  | lookup (key : K)
  | lookupExtended (key : K)

/-- The call on a table. -/
def Call.apply (f : KeyFuncs K) (h : GHashTable K V) :
    Call K V → Option (GHashTable K V × Outcome K V)
  | .insertReplace key value replace => gHashTableInsertReplace f h key value replace
  | .remove key => gHashTableRemove f h key
  | .foreachRemove func => gHashTableForeachRemove f h func
  | .foreachSteal func => gHashTableForeachSteal f h func
  | .removeAll => gHashTableRemoveAll f h
  | .lookup key =>
      (gHashTableLookup f h key).map fun value => (h, { Outcome.nothing with value := value })
  | .lookupExtended key =>
      (gHashTableLookupExtended f h key).map fun found => (h, { Outcome.nothing with found := found })

/-- The call on a finite map. -/
def Call.onMap (f : KeyFuncs K) : Call K V → Map K V → Map K V
  | .insertReplace key value replace => store f.toKeyEquiv key value replace
  | .remove key => erase f.toKeyEquiv key
  | .foreachRemove func => select fun key value => !func key value
  | .foreachSteal func => select fun key value => !func key value
  | .removeAll => fun _ => empty
  | .lookup _ => id
  | .lookupExtended _ => id

/-- The outcome of a call on a table with the two destroy functions that the finite map before the
call calls for: an entry that is given up is handed to the functions that there are, once. -/
def Call.Answers (f : KeyFuncs K) (keyDestroy valueDestroy : Bool) :
    Call K V → Map K V → Outcome K V → Prop
  | .insertReplace key _ replace, m, o =>
      let held := (m key).toList
      o = released keyDestroy valueDestroy (if replace then held.map Prod.fst else [])
        (held.map Prod.snd) 0
  | .remove key, m, o =>
      let held := (m key).toList
      o = released keyDestroy valueDestroy (held.map Prod.fst) (held.map Prod.snd) held.length
  | .foreachRemove func, m, o =>
      ∃ gone, Lists f.toKeyEquiv gone (select func m) ∧
        o = released keyDestroy valueDestroy (gone.map Prod.fst) (gone.map Prod.snd) gone.length
  | .foreachSteal func, m, o =>
      ∃ gone, Lists f.toKeyEquiv gone (select func m) ∧
        o = released keyDestroy valueDestroy [] [] gone.length
  | .removeAll, m, o =>
      ∃ gone, Lists f.toKeyEquiv gone m ∧
        o = released keyDestroy valueDestroy (gone.map Prod.fst) (gone.map Prod.snd) 0
  | .lookup key, m, o => o = { Outcome.nothing with value := (m key).map Prod.snd }
  | .lookupExtended key, m, o => o = { Outcome.nothing with found := m key }

/-- The table holds the entries of a finite map: it tells their number, the function of `foreach`
and an iterator come to each of them once, and there is a chain to look into. -/
structure Represents (f : KeyFuncs K) (h : GHashTable K V) (m : Map K V) : Prop where
  foreach : Lists f.toKeyEquiv (gHashTableForeach h) m
  size : gHashTableSize h = (gHashTableForeach h).length
  iterated : ∃ visits, iterate h (gHashTableSize h + 1) gHashTableIterInit = some visits ∧
    Lists f.toKeyEquiv visits m
  positive : 0 < h.tableSize

/-! ### When the code does it right -/

/-- A rehash doubles the size in an `int`; every insertion asks for one, and so does a bulk removal
that finds something. The number of entries is an `int` as well. -/
def Call.Meets (f : KeyFuncs K) (h : GHashTable K V) : Call K V → Prop
  | .insertReplace key _ _ =>
      h.tableSize < 2 ^ 30 ∧
        (gHashTableLookupExtended f h key = some none → h.inUse < 2 ^ 31 - 1)
  | .foreachRemove func => (∃ s ∈ gHashTableForeach h, func s.1 s.2 = true) → h.tableSize < 2 ^ 30
  | .foreachSteal func => (∃ s ∈ gHashTableForeach h, func s.1 s.2 = true) → h.tableSize < 2 ^ 30
  | .removeAll => gHashTableForeach h ≠ [] → h.tableSize < 2 ^ 30
  | .remove _ => True
  | .lookup _ => True
  | .lookupExtended _ => True

/-- Every call on a new table meets its condition in the state that it finds. -/
def EveryCallMeets (f : KeyFuncs K) (keyDestroy valueDestroy : Bool) (calls : List (Call K V)) : Prop :=
  ∀ h, gHashTableNewFull keyDestroy valueDestroy = some h →
    EveryCall (Call.apply f) (Call.Meets f) h calls

/-- A new table and the calls on it do what they do on the empty finite map. -/
def Faithful (f : KeyFuncs K) (keyDestroy valueDestroy : Bool) (calls : List (Call K V)) : Prop :=
  ∃ h, gHashTableNewFull keyDestroy valueDestroy = some h ∧
    Simulates (Call.apply f) (Call.onMap f) (Represents f)
      (Call.Answers f keyDestroy valueDestroy) h empty calls

end MonoRuntime.HashTable
