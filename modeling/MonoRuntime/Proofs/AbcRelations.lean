/-
Module: MonoRuntime.Proofs.AbcRelations
Purpose: When `process_block` leaves the relation lists as it found them. All facts on a variable are put behind the same
  last static definition, each in front of the ones before, and every removal stores the successor of what it removes
  there; so the list is what it was exactly when the last one to be removed was the first one to be put in.
Trusted boundary: none
Main exports: processBlock_restores_iff
-/
import MonoRuntime.Mini.AbcBlocks
import Mathlib.Data.List.Nodup
import Mathlib.Data.List.Perm.Subperm

namespace MonoRuntime.Abc

open List

variable {n : Nat}

/-! ### Writes to memory -/

@[simp] theorem Memory.setNext_top (m : Memory n) (a : Nat) (x : Option Nat) : (m.setNext a x).top = m.top :=
  rfl

@[simp] theorem Memory.setNext_relation (m : Memory n) (a b : Nat) (x : Option Nat) :
    ((m.setNext a x).cell b).relation = (m.cell b).relation := by
  by_cases same : b = a
  · subst same
    simp [Memory.setNext]
  · simp [Memory.setNext, Function.update_of_ne same]

@[simp] theorem Memory.setNext_next_self (m : Memory n) (a : Nat) (x : Option Nat) : ((m.setNext a x).cell a).next = x := by
  simp [Memory.setNext]

variable {m m' : Memory n} {a : Nat} {base top : Option Nat} {cells : List Nat} {path : Fin n → List Nat}

theorem Memory.setNext_of_ne {b : Nat} {x : Option Nat} (other : b ≠ a) : (m.setNext a x).cell b = m.cell b := by
  simp [Memory.setNext, Function.update_of_ne other]

@[simp] theorem Memory.alloc_top (m : Memory n) (r : SummarizedValueRelation n) : (m.alloc r).top = m.top + 1 :=
  rfl

@[simp] theorem Memory.alloc_self (m : Memory n) (r : SummarizedValueRelation n) : (m.alloc r).cell m.top = ⟨r, none⟩ := by
  simp [Memory.alloc]

theorem Memory.alloc_of_ne {r : SummarizedValueRelation n} (other : a ≠ m.top) : (m.alloc r).cell a = m.cell a := by
  simp [Memory.alloc, Function.update_of_ne other]

/-! ### The static definitions of a variable -/

/-- Behind a cell there are the cells of a path, all of static definitions. -/
def StaticPath (m : Memory n) : Nat → List Nat → Prop
  | _, [] => True
  | base, next :: path =>
      (m.cell base).next = some next ∧ (m.cell next).relation.relationIsStaticDefinition = true ∧ StaticPath m next path

/-- The end of a path. -/
def endOf : Nat → List Nat → Nat
  | base, [] => base
  | _, next :: path => endOf next path

theorem endOf_mem (base : Nat) (path : List Nat) : endOf base path ∈ base :: path := by
  induction path generalizing base with
  | nil => exact mem_singleton.mpr rfl
  | cons next path ih => exact mem_cons_of_mem base (ih next)

/-- A pointer is none, or one to a relation that is no static definition. -/
def Loose (m : Memory n) (x : Option Nat) : Prop :=
  ∀ a, x = some a → a < m.top ∧ (m.cell a).relation.relationIsStaticDefinition = false

theorem baseRelation_eq {base : Nat} {path : List Nat} {fuel : Nat} (statics : StaticPath m base path)
    (loose : Loose m (m.cell (endOf base path)).next) (enough : path.length ≤ fuel) :
    baseRelation m fuel base = endOf base path := by
  induction path generalizing base fuel with
  | nil =>
    obtain _ | fuel := fuel
    · rfl
    · rw [baseRelation]
      cases ahead : (m.cell base).next with
      | none => rfl
      | some next =>
        simp only [(loose next ahead).2]
        rfl
  | cons next path ih =>
    obtain ⟨fuel, rfl⟩ := Nat.exists_eq_succ_of_ne_zero (Nat.ne_of_gt (Nat.lt_of_lt_of_le (Nat.succ_pos _) enough))
    rw [baseRelation, statics.1]
    simp only [statics.2.1]
    exact ih statics.2.2 loose (Nat.le_of_succ_le_succ enough)

/-- A path depends on the pointers in front of its end, and on which cells are static definitions. -/
theorem StaticPath.congr {base : Nat} {path : List Nat} (statics : StaticPath m base path) (nodup : (base :: path).Nodup)
    (nexts : ∀ a ∈ base :: path, a ≠ endOf base path → (m'.cell a).next = (m.cell a).next)
    (relations : ∀ a ∈ path, (m'.cell a).relation = (m.cell a).relation) : StaticPath m' base path := by
  induction path generalizing base with
  | nil => trivial
  | cons next path ih =>
    obtain ⟨outside, nodup⟩ := nodup_cons.mp nodup
    have inner : base ≠ endOf next path := by
      rintro rfl
      exact outside (endOf_mem next path)
    refine ⟨?_, ?_, ih statics.2.2 nodup ?_ ?_⟩
    · rw [nexts base mem_cons_self inner]
      exact statics.1
    · rw [relations next mem_cons_self]
      exact statics.2.1
    · exact fun a member => nexts a (mem_cons_of_mem base member)
    · exact fun a member => relations a (mem_cons_of_mem next member)

/-- The last static definition of a variable, for the cells of the others behind the head. -/
def lastOf (path : Fin n → List Nat) (v : Fin n) : Nat :=
  endOf v (path v)

/-- The pointer behind the static definitions of a variable. -/
def link (path : Fin n → List Nat) (m : Memory n) (v : Fin n) : Option Nat :=
  (m.cell (lastOf path v)).next

/-- The static definitions of the variables are where the paths say, apart from each other. -/
structure Anchored (m : Memory n) (path : Fin n → List Nat) : Prop where
  statics : ∀ v : Fin n, StaticPath m v (path v)
  nodup : ∀ v : Fin n, (v.val :: path v).Nodup
  disjoint : ∀ v w : Fin n, v ≠ w → (v.val :: path v).Disjoint (w.val :: path w)
  allocated : ∀ v : Fin n, ∀ a ∈ v.val :: path v, a < m.top
  loose : ∀ v, Loose m (link path m v)

/-- Below a bound, only the last static definitions were written to, and only their pointers. -/
structure Frames (path : Fin n → List Nat) (bound : Nat) (m m' : Memory n) : Prop where
  top : m.top ≤ m'.top
  cells : ∀ a < bound, (∀ v, a ≠ lastOf path v) → m'.cell a = m.cell a
  relations : ∀ a < bound, (m'.cell a).relation = (m.cell a).relation

section Frames

variable {path : Fin n → List Nat} {bound : Nat} {m m' between : Memory n}

theorem Frames.refl (path : Fin n → List Nat) (bound : Nat) (m : Memory n) : Frames path bound m m :=
  ⟨le_refl _, fun _ _ _ => rfl, fun _ _ => rfl⟩

theorem Frames.trans (first : Frames path bound m between) (second : Frames path bound between m') :
    Frames path bound m m' :=
  ⟨le_trans first.top second.top, fun a below inner => (second.cells a below inner).trans (first.cells a below inner),
    fun a below => (second.relations a below).trans (first.relations a below)⟩

theorem Frames.weaken {bound' : Nat} (frames : Frames path bound m m') (less : bound' ≤ bound) : Frames path bound' m m' :=
  ⟨frames.top, fun a below => frames.cells a (lt_of_lt_of_le below less),
    fun a below => frames.relations a (lt_of_lt_of_le below less)⟩

theorem Frames.loose {x : Option Nat} (frames : Frames path m.top m m') (loose : Loose m x) : Loose m' x := by
  intro a is
  obtain ⟨below, dynamic⟩ := loose a is
  exact ⟨lt_of_lt_of_le below frames.top, by rw [frames.relations a below]; exact dynamic⟩

theorem Anchored.last_lt (anchored : Anchored m path) (v : Fin n) : lastOf path v < m.top :=
  anchored.allocated v _ (endOf_mem v (path v))

theorem Anchored.last_inj (anchored : Anchored m path) {v w : Fin n} (same : lastOf path v = lastOf path w) : v = w := by
  by_contra other
  have shared : lastOf path v ∈ w.val :: path w := same ▸ endOf_mem w (path w)
  exact anchored.disjoint v w other (endOf_mem v (path v)) shared

theorem Anchored.baseRelation_eq (anchored : Anchored m path) (v : Fin n) : baseRelation m m.top v = lastOf path v := by
  refine Abc.baseRelation_eq (anchored.statics v) (anchored.loose v) ?_
  have inside : v.val :: path v ⊆ List.range m.top := fun a member =>
    mem_range.mpr (anchored.allocated v a member)
  have short := (subperm_of_subset (anchored.nodup v) inside).length_le
  rw [length_cons, length_range] at short
  omega

theorem Anchored.of_frames (anchored : Anchored m path) (below : ∀ v : Fin n, ∀ a ∈ v.val :: path v, a < bound)
    (frames : Frames path bound m m') (loose : ∀ v, Loose m' (link path m' v)) : Anchored m' path where
  statics v := by
    refine (anchored.statics v).congr (anchored.nodup v) ?_ ?_
    · intro a member inner
      rw [frames.cells a (below v a member)]
      intro w same
      by_cases other : v = w
      · subst other
        exact inner same
      · exact anchored.disjoint v w other member (same ▸ endOf_mem w (path w))
    · exact fun a member => frames.relations a (below v a (mem_cons_of_mem _ member))
  nodup := anchored.nodup
  disjoint := anchored.disjoint
  allocated v a member := lt_of_lt_of_le (anchored.allocated v a member) frames.top
  loose := loose

end Frames

/-! ### Facts that were put in -/

/-- The cell of a change that was put on a variable. -/
def cellOn (v : Fin n) (change : AdditionalVariableRelation n) : Option Nat :=
  if change.variable_ = some v ∧ change.insertionPoint ≠ none then some change.relation else none

/-- The cells of the changes that were put on a variable, in their order. -/
def cellsOn (v : Fin n) (changes : List (AdditionalVariableRelation n)) : List Nat :=
  changes.filterMap (cellOn v)

/-- Every cell points to the one before it, the first one to what was there before. -/
def Tower (m : Memory n) : Option Nat → List Nat → Option Nat → Prop
  | base, [], top => top = base
  | base, cell :: cells, top => (m.cell cell).next = base ∧ Tower m (some cell) cells top

theorem Tower.congr (tower : Tower m base cells top) (same : ∀ a ∈ cells, (m'.cell a).next = (m.cell a).next) :
    Tower m' base cells top := by
  induction cells generalizing base with
  | nil => exact tower
  | cons cell cells ih =>
    exact ⟨(same cell mem_cons_self).trans tower.1,
      ih tower.2 fun a member => same a (mem_cons_of_mem cell member)⟩

theorem Tower.push {cell : Nat} (tower : Tower m base cells top) (next : (m.cell cell).next = top) :
    Tower m base (cells ++ [cell]) (some cell) := by
  induction cells generalizing base with
  | nil => exact ⟨next.trans tower, rfl⟩
  | cons first cells ih => exact ⟨tower.1, ih tower.2⟩

/-- The end of what was put on a variable where it is not the only thing points to a cell before it. -/
theorem Tower.last_next {first second : Nat} {last : Nat} (tower : Tower m base (first :: second :: cells) top)
    (is : (first :: second :: cells).getLast? = some last) :
    ∃ a ∈ first :: second :: cells, (m.cell last).next = some a := by
  induction cells generalizing base first second with
  | nil =>
    obtain rfl : second = last := by simpa using is
    exact ⟨first, mem_cons_self, tower.2.1⟩
  | cons third cells ih =>
    obtain ⟨a, member, next⟩ := ih tower.2 (by simpa using is)
    exact ⟨a, mem_cons_of_mem first member, next⟩

/-- A change was put behind the static definitions of its variable, or nowhere. -/
def Placed (path : Fin n → List Nat) (change : AdditionalVariableRelation n) : Prop :=
  change.insertionPoint = none ∨ ∃ v, change.variable_ = some v ∧ change.insertionPoint = some (lastOf path v)

theorem cellOn_eq_some {v : Fin n} {change : AdditionalVariableRelation n} (is : cellOn v change = some a) :
    change.variable_ = some v ∧ change.relation = a := by
  unfold cellOn at is
  split at is
  next on => exact ⟨on.1, Option.some.inj is⟩
  next => cases is

theorem mem_cellsOn {v : Fin n} {changes : List (AdditionalVariableRelation n)} (member : a ∈ cellsOn v changes) :
    ∃ change ∈ changes, change.relation = a := by
  obtain ⟨change, inside, is⟩ := mem_filterMap.mp member
  exact ⟨change, inside, (cellOn_eq_some is).2⟩

/-- What changes did to memory. -/
structure Inserted (path : Fin n → List Nat) (m₀ m : Memory n) (changes : List (AdditionalVariableRelation n)) : Prop where
  anchored : Anchored m path
  below : ∀ v : Fin n, ∀ a ∈ v.val :: path v, a < m₀.top
  frames : Frames path m₀.top m₀ m
  placed : ∀ change ∈ changes, Placed path change
  fresh : ∀ change ∈ changes, m₀.top ≤ change.relation ∧ change.relation < m.top
  distinct : (changes.map AdditionalVariableRelation.relation).Nodup
  dynamic : ∀ change ∈ changes, (m.cell change.relation).relation.relationIsStaticDefinition = false
  loose : ∀ change ∈ changes, Loose m (m.cell change.relation).next
  towers : ∀ v, Tower m (link path m₀ v) (cellsOn v changes) (link path m v)

section Insertion

variable {path : Fin n → List Nat} {m₀ m : Memory n} {changes : List (AdditionalVariableRelation n)}

theorem Inserted.start (anchored : Anchored m₀ path) : Inserted path m₀ m₀ [] where
  anchored := anchored
  below := anchored.allocated
  frames := .refl _ _ _
  placed change member := by cases member
  fresh change member := by cases member
  distinct := nodup_nil
  dynamic change member := by cases member
  loose change member := by cases member
  towers v := rfl

theorem Inserted.alloc (inserted : Inserted path m₀ m changes) (r : SummarizedValueRelation n) :
    Inserted path m₀ (m.alloc r) changes := by
  have old {a : Nat} (below : a < m.top) : (m.alloc r).cell a = m.cell a := Memory.alloc_of_ne (Nat.ne_of_lt below)
  have frames : Frames path m.top m (m.alloc r) :=
    ⟨Nat.le_succ _, fun a below _ => old below, fun a below => by rw [old below]⟩
  have links (v : Fin n) : link path (m.alloc r) v = link path m v := by
    rw [link, old (inserted.anchored.last_lt v)]
    rfl
  refine ⟨inserted.anchored.of_frames inserted.anchored.allocated frames fun v => ?_, inserted.below,
    inserted.frames.trans (frames.weaken inserted.frames.top), inserted.placed, fun change member => ?_, inserted.distinct,
    fun change member => ?_, fun change member => ?_, fun v => ?_⟩
  · rw [links]
    exact frames.loose (inserted.anchored.loose v)
  · have range := inserted.fresh change member
    exact ⟨range.1, Nat.lt_succ_of_lt range.2⟩
  · rw [old (inserted.fresh change member).2]
    exact inserted.dynamic change member
  · rw [old (inserted.fresh change member).2]
    exact frames.loose (inserted.loose change member)
  · rw [links]
    refine (inserted.towers v).congr fun a member => ?_
    obtain ⟨change, inside, rfl⟩ := mem_cellsOn member
    rw [old (inserted.fresh change inside).2]

theorem Inserted.last_lt (inserted : Inserted path m₀ m changes) (v : Fin n) : lastOf path v < m₀.top :=
  inserted.below v _ (endOf_mem v (path v))

/-- What `apply_change_to_evaluation_area` does: a change that has a relation is put behind the static definitions. -/
theorem applyChange_spec (m : Memory n) (change : AdditionalVariableRelation n) (anchored : Anchored m path) :
    (∃ v, change.variable_ = some v ∧ (m.cell change.relation).relation.relation ≠ .anyRelation ∧ applyChange m change =
        ((m.setNext change.relation (link path m v)).setNext (lastOf path v) (some change.relation),
          { change with insertionPoint := some (lastOf path v) })) ∨
    ((change.variable_ = none ∨ (m.cell change.relation).relation.relation = .anyRelation) ∧
      applyChange m change = (m, change)) := by
  unfold applyChange
  cases variable_ : change.variable_ with
  | none => exact Or.inr ⟨Or.inl rfl, rfl⟩
  | some v =>
    by_cases any : (m.cell change.relation).relation.relation = .anyRelation
    · refine Or.inr ⟨Or.inr any, ?_⟩
      simp [any]
    · refine Or.inl ⟨v, rfl, any, ?_⟩
      simp only [any, ne_eq, not_false_eq_true, if_true, anchored.baseRelation_eq, link]

theorem Inserted.skip {change : AdditionalVariableRelation n} (inserted : Inserted path m₀ m changes)
    (unset : change.insertionPoint = none) (fresh : m₀.top ≤ change.relation ∧ change.relation < m.top)
    (new : change.relation ∉ changes.map AdditionalVariableRelation.relation)
    (dynamic : (m.cell change.relation).relation.relationIsStaticDefinition = false)
    (loose : Loose m (m.cell change.relation).next) : Inserted path m₀ m (changes ++ [change]) where
  anchored := inserted.anchored
  below := inserted.below
  frames := inserted.frames
  placed := forall_mem_append.mpr ⟨inserted.placed, forall_mem_singleton.mpr (Or.inl unset)⟩
  fresh := forall_mem_append.mpr ⟨inserted.fresh, forall_mem_singleton.mpr fresh⟩
  distinct := by
    rw [map_append]
    exact inserted.distinct.append (nodup_singleton _) (disjoint_singleton.mpr new)
  dynamic := forall_mem_append.mpr ⟨inserted.dynamic, forall_mem_singleton.mpr dynamic⟩
  loose := forall_mem_append.mpr ⟨inserted.loose, forall_mem_singleton.mpr loose⟩
  towers v := by
    have nothing : cellOn v change = none := if_neg fun on => on.2 unset
    rw [cellsOn, filterMap_append, filterMap_cons_none nothing, filterMap_nil, append_nil]
    exact inserted.towers v

theorem Inserted.put {change : AdditionalVariableRelation n} {v : Fin n} (inserted : Inserted path m₀ m changes)
    (variable_ : change.variable_ = some v) (fresh : m₀.top ≤ change.relation ∧ change.relation < m.top)
    (new : change.relation ∉ changes.map AdditionalVariableRelation.relation)
    (dynamic : (m.cell change.relation).relation.relationIsStaticDefinition = false) :
    Inserted path m₀ ((m.setNext change.relation (link path m v)).setNext (lastOf path v) (some change.relation))
      (changes ++ [{ change with insertionPoint := some (lastOf path v) }]) := by
  have away (w : Fin n) : lastOf path w ≠ change.relation := Nat.ne_of_lt (lt_of_lt_of_le (inserted.last_lt w) fresh.1)
  generalize after : (m.setNext change.relation (link path m v)).setNext (lastOf path v) (some change.relation) = m'
  have top : m'.top = m.top := by rw [← after, Memory.setNext_top, Memory.setNext_top]
  have relations (a : Nat) : (m'.cell a).relation = (m.cell a).relation := by
    rw [← after, Memory.setNext_relation, Memory.setNext_relation]
  have next : (m'.cell change.relation).next = link path m v := by
    rw [← after, Memory.setNext_of_ne (away v).symm, Memory.setNext_next_self]
  have rest {a : Nat} (ne : a ≠ change.relation) (inner : a ≠ lastOf path v) : m'.cell a = m.cell a := by
    rw [← after, Memory.setNext_of_ne inner, Memory.setNext_of_ne ne]
  have linkSelf : link path m' v = some change.relation := by
    rw [link, ← after, Memory.setNext_next_self]
  have linkOther {w : Fin n} (other : w ≠ v) : link path m' w = link path m w := by
    rw [link, rest (away w) fun same => other (inserted.anchored.last_inj same)]
    rfl
  have frames : Frames path m₀.top m m' :=
    ⟨le_of_eq top.symm, fun a below inner => rest (Nat.ne_of_lt (lt_of_lt_of_le below fresh.1)) (inner v),
      fun a _ => relations a⟩
  have keeps {x : Option Nat} (loose : Loose m x) : Loose m' x := by
    intro a same
    rw [top, relations]
    exact loose a same
  have old {c : AdditionalVariableRelation n} (member : c ∈ changes) : m'.cell c.relation = m.cell c.relation :=
    rest (fun same => new (same ▸ mem_map_of_mem member))
      (Nat.ne_of_lt (lt_of_lt_of_le (inserted.last_lt v) (inserted.fresh c member).1)).symm
  refine ⟨?_, inserted.below, inserted.frames.trans frames, ?_, ?_, ?_, ?_, ?_, fun w => ?_⟩
  · refine inserted.anchored.of_frames inserted.below frames fun w => ?_
    by_cases same : w = v
    · subst same
      rintro a is
      obtain rfl := Option.some.inj (linkSelf.symm.trans is)
      rw [top, relations]
      exact ⟨fresh.2, dynamic⟩
    · rw [linkOther same]
      exact keeps (inserted.anchored.loose w)
  · exact forall_mem_append.mpr ⟨inserted.placed, forall_mem_singleton.mpr (Or.inr ⟨v, variable_, rfl⟩)⟩
  · rw [top]
    exact forall_mem_append.mpr ⟨inserted.fresh, forall_mem_singleton.mpr fresh⟩
  · rw [map_append]
    exact inserted.distinct.append (nodup_singleton _) (disjoint_singleton.mpr new)
  · refine forall_mem_append.mpr ⟨fun c member => ?_, forall_mem_singleton.mpr ?_⟩
    · rw [relations]
      exact inserted.dynamic c member
    · rw [relations]
      exact dynamic
  · refine forall_mem_append.mpr ⟨fun c member => ?_, forall_mem_singleton.mpr ?_⟩
    · rw [old member]
      exact keeps (inserted.loose c member)
    · rw [next]
      exact keeps (inserted.anchored.loose v)
  · have tower : Tower m' (link path m₀ w) (cellsOn w changes) (link path m w) := by
      refine (inserted.towers w).congr fun a member => ?_
      obtain ⟨c, inside, rfl⟩ := mem_cellsOn member
      rw [old inside]
    rw [cellsOn, filterMap_append]
    by_cases same : w = v
    · subst same
      have on : cellOn w { change with insertionPoint := some (lastOf path w) } = some change.relation :=
        if_pos ⟨variable_, by simp⟩
      rw [filterMap_cons_some on, filterMap_nil, linkSelf]
      exact tower.push next
    · have off : cellOn w { change with insertionPoint := some (lastOf path v) } = none :=
        if_neg fun on => same (Option.some.inj (on.1.symm.trans variable_))
      rw [filterMap_cons_none off, filterMap_nil, append_nil, linkOther same]
      exact tower

/-- What is kept of a change that is applied: its variable and its relation; and whether it was put in. -/
structure Applied (m : Memory n) (change change' : AdditionalVariableRelation n) : Prop where
  variable_ : change'.variable_ = change.variable_
  relation : change'.relation = change.relation
  put : change'.insertionPoint ≠ none ↔
    change.variable_ ≠ none ∧ (m.cell change.relation).relation.relation ≠ .anyRelation

theorem Inserted.apply (inserted : Inserted path m₀ m changes) (change : AdditionalVariableRelation n)
    (unset : change.insertionPoint = none) (fresh : m₀.top ≤ change.relation ∧ change.relation < m.top)
    (new : change.relation ∉ changes.map AdditionalVariableRelation.relation)
    (dynamic : (m.cell change.relation).relation.relationIsStaticDefinition = false)
    (loose : Loose m (m.cell change.relation).next) :
    Inserted path m₀ (applyChange m change).1 (changes ++ [(applyChange m change).2]) ∧
      Applied m change (applyChange m change).2 ∧ (applyChange m change).1.top = m.top ∧
      ∀ a, ((applyChange m change).1.cell a).relation = (m.cell a).relation ∧
        (a ≠ change.relation → m₀.top ≤ a → (applyChange m change).1.cell a = m.cell a) := by
  obtain ⟨v, variable_, some_, applied⟩ | ⟨nothing, applied⟩ := applyChange_spec m change inserted.anchored
  · rw [applied]
    refine ⟨inserted.put variable_ fresh new dynamic, ⟨rfl, rfl, ?_⟩, rfl, fun a => ⟨by simp, fun other above => ?_⟩⟩
    · simp [variable_, some_]
    · have inner : a ≠ lastOf path v := (Nat.ne_of_lt (lt_of_lt_of_le (inserted.last_lt v) above)).symm
      rw [Memory.setNext_of_ne inner, Memory.setNext_of_ne other]
  · rw [applied]
    refine ⟨inserted.skip unset fresh new dynamic loose, ⟨rfl, rfl, ?_⟩, rfl, fun a => ⟨rfl, fun _ _ => rfl⟩⟩
    simp only [unset, ne_eq, not_true_eq_false, false_iff, not_and, not_not]
    rintro is
    exact nothing.resolve_left is

end Insertion

/-! ### Entering a block -/

variable (report : Bool) (bb : BasicBlock n) (v : Fin n)

theorem cellsOn_append (front back : List (AdditionalVariableRelation n)) :
    cellsOn v (front ++ back) = cellsOn v front ++ cellsOn v back :=
  filterMap_append

theorem length_cellsOn (changes : List (AdditionalVariableRelation n)) : (cellsOn v changes).length =
      changes.countP fun change => change.variable_ = some v ∧ change.insertionPoint ≠ none := by
  induction changes with
  | nil => rfl
  | cons change changes ih =>
    by_cases on : change.variable_ = some v ∧ change.insertionPoint ≠ none
    · have is : cellOn v change = some change.relation := if_pos on
      rw [cellsOn, filterMap_cons_some is, length_cons, countP_cons_of_pos (by simpa using on)]
      exact congrArg Nat.succ ih
    · have is : cellOn v change = none := if_neg on
      rw [cellsOn, filterMap_cons_none is, countP_cons_of_neg (by simpa using on)]
      exact ih

/-- What holds in the walk over the instructions of a block: the changes of its entry condition and of its checks are put
in, and every one of its checks was. -/
structure Scanned (path : Fin n → List Nat) (m₀ : Memory n) (entry : List (AdditionalVariableRelation n))
    (scan : BlockScan n) : Prop where
  inserted : Inserted path m₀ scan.area.memory (entry ++ scan.checkRelations)
  put : ∀ change ∈ scan.checkRelations, change.insertionPoint ≠ none

section Scan

variable {path : Fin n → List Nat} {m₀ : Memory n} {entry : List (AdditionalVariableRelation n)} {scan : BlockScan n}

theorem Scanned.addRelation (scanned : Scanned path m₀ entry scan) (v : Fin n) {relation : ValueRelation}
    (relatedValue : SummarizedValue n) (some_ : relation ≠ .anyRelation) :
    Scanned path m₀ entry (scan.addRelation v relation relatedValue) := by
  unfold BlockScan.addRelation
  have inserted := scanned.inserted.alloc
    { relation := relation, relatedValue := relatedValue, relationIsStaticDefinition := false }
  have new : scan.area.memory.top ∉
      (entry ++ scan.checkRelations).map AdditionalVariableRelation.relation := by
    intro member
    obtain ⟨change, inside, same⟩ := mem_map.mp member
    exact absurd (scanned.inserted.fresh change inside).2 (by rw [same]; exact Nat.lt_irrefl _)
  obtain ⟨inserted', applied, -, -⟩ := inserted.apply
    { variable_ := some v, relation := scan.area.memory.top, insertionPoint := none } rfl
    ⟨scanned.inserted.frames.top, Nat.lt_succ_self _⟩ new (by rw [Memory.alloc_self])
    (by rw [Memory.alloc_self]; intro a is; cases is)
  refine ⟨?_, forall_mem_append.mpr ⟨scanned.put, forall_mem_singleton.mpr ?_⟩⟩
  · rw [← append_assoc]
    exact inserted'
  · refine applied.put.mpr ⟨by simp, ?_⟩
    rw [Memory.alloc_self]
    exact some_

theorem removeAbcFromInst_memory (report : Bool) (area : EvaluationAreaState n) (arrayVariable indexVariable : Fin n) :
    (removeAbcFromInst report area arrayVariable indexVariable).1.memory = area.memory :=
  rfl

theorem Scanned.of_memory {scan' : BlockScan n} (scanned : Scanned path m₀ entry scan)
    (memory : scan'.area.memory = scan.area.memory) (checks : scan'.checkRelations = scan.checkRelations) :
    Scanned path m₀ entry scan' :=
  ⟨by rw [memory, checks]; exact scanned.inserted, by rw [checks]; exact scanned.put⟩

theorem Scanned.processIns (scanned : Scanned path m₀ entry scan) (report : Bool) (ins : Ins n) :
    Scanned path m₀ entry (processIns report scan ins) := by
  cases ins with
  | boundsCheck arrayVar indexVar =>
    unfold Abc.processIns
    dsimp only
    have looked : Scanned path m₀ entry
        { scan with area := (removeAbcFromInst report scan.area arrayVar indexVar).1 } :=
      scanned.of_memory (removeAbcFromInst_memory report scan.area arrayVar indexVar) rfl
    split
    · exact looked
    · exact (looked.addRelation indexVar (.variable_ arrayVar 0) (by decide)).addRelation indexVar (.constant 0) (by decide)
  | checkThis sreg1 => exact scanned.of_memory rfl rfl
  | notNull sreg1 => exact scanned.addRelation sreg1 (.constant 0) (by decide)
  | other => exact scanned

theorem Scanned.processCode (scanned : Scanned path m₀ entry scan) (report : Bool) (code : List (Ins n)) :
    Scanned path m₀ entry (code.foldl (Abc.processIns report) scan) := by
  induction code generalizing scan with
  | nil => exact scanned
  | cons ins code ih => exact ih (scanned.processIns report ins)

end Scan

theorem getRelationsFromPreviousBb_dynamic (previous : Option (EntryBranch n)) :
    (getRelationsFromPreviousBb previous).1.2.relationIsStaticDefinition = false ∧
      (getRelationsFromPreviousBb previous).2.2.relationIsStaticDefinition = false := by
  unfold getRelationsFromPreviousBb
  cases previous with
  | none => exact ⟨rfl, rfl⟩
  | some previous =>
    dsimp only
    split
    · split
      · exact ⟨rfl, rfl⟩
      · exact ⟨rfl, rfl⟩
      · exact ⟨rfl, rfl⟩
    · exact ⟨rfl, rfl⟩

theorem Applied.on_iff {change change' : AdditionalVariableRelation n} (applied : Applied m change change')
    (v : Fin n) : change'.variable_ = some v ∧ change'.insertionPoint ≠ none ↔
      change.variable_ = some v ∧ (m.cell change.relation).relation.relation ≠ .anyRelation := by
  rw [applied.put, applied.variable_]
  constructor
  · rintro ⟨is, -, some_⟩
    exact ⟨is, some_⟩
  · rintro ⟨is, some_⟩
    exact ⟨is, by simp [is], some_⟩

theorem addEntryRelations_spec (anchored : Anchored m path) : Inserted path m (addEntryRelations bb.previous m).1
        [(addEntryRelations bb.previous m).2.1, (addEntryRelations bb.previous m).2.2] ∧
      ∀ v, (cellsOn v [(addEntryRelations bb.previous m).2.1, (addEntryRelations bb.previous m).2.2]).length =
        entryFacts bb v := by
  obtain ⟨dynamic1, dynamic2⟩ := getRelationsFromPreviousBb_dynamic bb.previous
  unfold addEntryRelations entryFacts
  generalize getRelationsFromPreviousBb bb.previous = additional at dynamic1 dynamic2
  obtain ⟨⟨variable1, r1⟩, variable2, r2⟩ := additional
  have null {m' : Memory n} : Loose m' none := by
    intro a is
    cases is
  have start := ((Inserted.start anchored).alloc r1).alloc r2
  have cell1 : ((m.alloc r1).alloc r2).cell m.top = ⟨r1, none⟩ := by
    rw [Memory.alloc_of_ne (by simp), Memory.alloc_self]
  have cell2 : ((m.alloc r1).alloc r2).cell (m.top + 1) = ⟨r2, none⟩ := Memory.alloc_self (m.alloc r1) r2
  obtain ⟨first, applied1, top1, same1⟩ := start.apply
    { variable_ := variable1, relation := m.top, insertionPoint := none } rfl
    ⟨le_refl _, by simp only [Memory.alloc_top]; omega⟩ (by simp) (by rw [cell1]; exact dynamic1) (by rw [cell1]; exact null)
  have cell2' := (same1 (m.top + 1)).2 (by simp) (by omega)
  rw [cell2] at cell2'
  obtain ⟨second, applied2, -, -⟩ := first.apply
    { variable_ := variable2, relation := m.top + 1, insertionPoint := none } rfl
    ⟨by simp, by rw [top1]; simp⟩ (by simp [applied1.relation]) (by rw [cell2']; exact dynamic2)
    (by rw [cell2']; exact null)
  refine ⟨second, fun v => ?_⟩
  have on1 := applied1.on_iff v
  have on2 := applied2.on_iff v
  rw [cell1] at on1
  rw [cell2'] at on2
  rw [length_cellsOn]
  simp only [countP_cons, countP_nil, on1, on2]

/-- The changes of the entry condition in a frame. -/
def Frame.entry (frame : Frame n) : List (AdditionalVariableRelation n) :=
  [frame.relation1, frame.relation2]

/-- What a block does when it is entered. -/
structure Entered (path : Fin n → List Nat) (report : Bool) (bb : BasicBlock n) (area : EvaluationAreaState n)
    (frame : Frame n) : Prop where
  inserted : Inserted path area.memory frame.area.memory (frame.entry ++ frame.checkRelations)
  entryCount : ∀ v, (cellsOn v frame.entry).length = entryFacts bb v
  checkCount : ∀ v, (cellsOn v frame.checkRelations).length = checkFacts report bb area v

variable (dominated : Dominated n) (area : EvaluationAreaState n)

theorem enterBlock_spec (anchored : Anchored area.memory path) :
    Entered path report bb area (enterBlock report bb area) := by
  obtain ⟨inserted, entryCount⟩ := addEntryRelations_spec bb anchored
  have start : Scanned path area.memory
      [(addEntryRelations bb.previous area.memory).2.1, (addEntryRelations bb.previous area.memory).2.2]
      { area := { area with memory := (addEntryRelations bb.previous area.memory).1 }, checkRelations := [] } :=
    ⟨inserted, fun change member => by cases member⟩
  have scanned := start.processCode report bb.code
  refine ⟨scanned.inserted, entryCount, fun v => ?_⟩
  rw [length_cellsOn, checkFacts]
  refine countP_congr fun change member => ?_
  simp [scanned.put change member]

/-! ### Leaving a block -/

section Removal

variable {path : Fin n → List Nat} {bound : Nat}

/-- The removal of a change: what its cell points to is put behind the static definitions. -/
theorem removeChange_spec {m : Memory n} {change : AdditionalVariableRelation n} (anchored : Anchored m path)
    (placed : Placed path change) (above : ∀ v, lastOf path v < change.relation) :
    (∀ v, link path (removeChange m change) v =
      match cellOn v change with
      | none => link path m v
      | some cell => (m.cell cell).next) ∧
    (removeChange m change).top = m.top ∧
    (∀ a, ((removeChange m change).cell a).relation = (m.cell a).relation) ∧
    ∀ a, a ≠ change.relation → (∀ v, a ≠ lastOf path v) → (removeChange m change).cell a = m.cell a := by
  obtain nowhere | ⟨v, variable_, at_⟩ := placed
  · have same : removeChange m change = m := by
      rw [removeChange, nowhere]
    rw [same]
    refine ⟨fun v => ?_, rfl, fun _ => rfl, fun _ _ _ => rfl⟩
    rw [show cellOn v change = none from if_neg fun on => on.2 nowhere]
  · have removed : removeChange m change =
        (m.setNext (lastOf path v) (m.cell change.relation).next).setNext change.relation none := by
      rw [removeChange, at_]
    rw [removed]
    refine ⟨fun w => ?_, rfl, fun a => by simp, fun a other inner => ?_⟩
    · rw [link, Memory.setNext_of_ne (Nat.ne_of_lt (above w))]
      by_cases same : w = v
      · subst same
        rw [show cellOn w change = some change.relation from if_pos ⟨variable_, by simp [at_]⟩, Memory.setNext_next_self]
      · have off : cellOn w change = none :=
          if_neg fun on => same (Option.some.inj (on.1.symm.trans variable_))
        rw [off, Memory.setNext_of_ne fun shared => same (anchored.last_inj shared)]
        rfl
    · rw [Memory.setNext_of_ne other, Memory.setNext_of_ne (inner v)]

/-- The removal of changes in turn: behind the static definitions there is what the last one of them pointed to. -/
theorem removeChanges_spec {m : Memory n} {changes : List (AdditionalVariableRelation n)} (anchored : Anchored m path)
    (below : ∀ v : Fin n, ∀ a ∈ v.val :: path v, a < bound) (placed : ∀ change ∈ changes, Placed path change)
    (above : ∀ change ∈ changes, bound ≤ change.relation)
    (distinct : (changes.map AdditionalVariableRelation.relation).Nodup)
    (loose : ∀ change ∈ changes, Loose m (m.cell change.relation).next) :
    Anchored (changes.foldl removeChange m) path ∧ Frames path bound m (changes.foldl removeChange m) ∧
      ∀ v, link path (changes.foldl removeChange m) v =
        match (cellsOn v changes).getLast? with
        | none => link path m v
        | some cell => (m.cell cell).next := by
  induction changes generalizing m with
  | nil => exact ⟨anchored, .refl _ _ _, fun v => rfl⟩
  | cons change changes ih =>
    have member : change ∈ change :: changes := mem_cons_self
    have high (v : Fin n) : lastOf path v < change.relation :=
      lt_of_lt_of_le (below v _ (endOf_mem v (path v))) (above change member)
    obtain ⟨links, top, relations, cells⟩ := removeChange_spec anchored (placed change member) high
    rw [foldl_cons]
    generalize removeChange m change = m' at links top relations cells ⊢
    have keeps {x : Option Nat} (is : Loose m x) : Loose m' x := by
      intro a same
      rw [top, relations]
      exact is a same
    have frames : Frames path bound m m' :=
      ⟨le_of_eq top.symm,
        fun a low inner => cells a (Nat.ne_of_lt (lt_of_lt_of_le low (above change member))) inner,
        fun a _ => relations a⟩
    have later {c : AdditionalVariableRelation n} (inside : c ∈ changes) : m'.cell c.relation = m.cell c.relation := by
      refine cells _ (fun same => ?_) fun v same => ?_
      · exact (nodup_cons.mp distinct).1 (same ▸ mem_map_of_mem inside)
      · exact absurd (above c (mem_cons_of_mem change inside))
          (Nat.not_le_of_lt (same ▸ below v _ (endOf_mem v (path v))))
    have anchored' : Anchored m' path := by
      refine anchored.of_frames below frames fun v => ?_
      rw [links v]
      cases on : cellOn v change with
      | none => exact keeps (anchored.loose v)
      | some cell =>
        obtain ⟨-, rfl⟩ := cellOn_eq_some on
        exact keeps (loose change member)
    obtain ⟨anchored'', frames', links'⟩ := ih anchored' (fun c inside => placed c (mem_cons_of_mem change inside))
      (fun c inside => above c (mem_cons_of_mem change inside)) (nodup_cons.mp distinct).2
      (fun c inside => by
        rw [later inside]
        exact keeps (loose c (mem_cons_of_mem change inside)))
    refine ⟨anchored'', frames.trans frames', fun v => ?_⟩
    rw [links' v]
    cases last : (cellsOn v changes).getLast? with
    | some cell =>
      obtain ⟨c, inside, rfl⟩ := mem_cellsOn (mem_of_getLast? last)
      have whole : (cellsOn v (change :: changes)).getLast? = some c.relation := by
        rw [show change :: changes = [change] ++ changes from rfl, cellsOn_append, getLast?_append, last]
        rfl
      simp only [whole]
      rw [later inside]
    | none =>
      have nothing : cellsOn v changes = [] := getLast?_eq_none_iff.mp last
      rw [show change :: changes = [change] ++ changes from rfl, cellsOn_append, nothing, append_nil]
      simp only [links v]
      cases on : cellOn v change with
      | none =>
        rw [cellsOn, filterMap_cons_none on]
        rfl
      | some cell =>
        rw [cellsOn, filterMap_cons_some on]
        rfl

end Removal

/-- What a walk over blocks leaves: the static definitions are in place, and the pointer behind them is what it was, where
that is so, or a relation that was put in meanwhile. -/
structure Outcome (path : Fin n → List Nat) (m m' : Memory n) (restored : Fin n → Prop) : Prop where
  anchored : Anchored m' path
  frames : Frames path m.top m m'
  links : ∀ v, restored v ∧ link path m' v = link path m v ∨
    ¬ restored v ∧ ∃ a, m.top ≤ a ∧ link path m' v = some a

theorem leaveBlock_spec {report : Bool} {bb : BasicBlock n} {area area' : EvaluationAreaState n}
    {frame : Frame n} {restored : Fin n → Prop} (entered : Entered path report bb area frame)
    (walked : Outcome path frame.area.memory area'.memory restored) :
    Outcome path area.memory (leaveBlock frame area').memory fun v =>
      BlockRestores (entryFacts bb v) (checkFacts report bb area v) (restored v) := by
  have inserted := entered.inserted
  have removal : (leaveBlock frame area').memory =
      (frame.checkRelations ++ frame.entry).foldl removeChange area'.memory := by
    rw [foldl_append]
    rfl
  have swap {change : AdditionalVariableRelation n} (member : change ∈ frame.checkRelations ++ frame.entry) :
      change ∈ frame.entry ++ frame.checkRelations :=
    mem_append.mpr (mem_append.mp member).symm
  have kept {change : AdditionalVariableRelation n} (member : change ∈ frame.entry ++ frame.checkRelations) :
      area'.memory.cell change.relation = frame.area.memory.cell change.relation :=
    walked.frames.cells _ (inserted.fresh change member).2 fun v =>
      (Nat.ne_of_lt (lt_of_lt_of_le (inserted.last_lt v) (inserted.fresh change member).1)).symm
  have distinct : ((frame.checkRelations ++ frame.entry).map AdditionalVariableRelation.relation).Nodup :=
    (perm_append_comm.map _).nodup inserted.distinct
  obtain ⟨anchored, frames, links⟩ := removeChanges_spec walked.anchored inserted.below
    (fun change member => inserted.placed change (swap member))
    (fun change member => (inserted.fresh change (swap member)).1) distinct
    (fun change member => by
      rw [kept (swap member)]
      exact walked.frames.loose (inserted.loose change (swap member)))
  rw [removal]
  refine ⟨anchored, (inserted.frames.trans (walked.frames.weaken inserted.frames.top)).trans frames, fun v => ?_⟩
  have tower := inserted.towers v
  have linked := links v
  have entryCount := entered.entryCount v
  have checkCount := entered.checkCount v
  have cell {a : Nat} (member : a ∈ cellsOn v (frame.entry ++ frame.checkRelations)) :
      area.memory.top ≤ a ∧ area'.memory.cell a = frame.area.memory.cell a := by
    obtain ⟨change, inside, rfl⟩ := mem_cellsOn member
    exact ⟨(inserted.fresh change inside).1, kept inside⟩
  have short : (cellsOn v frame.entry).length ≤ 2 := le_trans (length_filterMap_le _ _) (by simp [Frame.entry])
  rw [cellsOn_append] at tower linked
  simp only [cellsOn_append] at cell
  unfold BlockRestores
  rw [← entryCount, ← checkCount]
  generalize cellsOn v frame.entry = entries at *
  generalize cellsOn v frame.checkRelations = checks at *
  rcases entries with _ | ⟨e, _ | ⟨e', _ | ⟨e'', entries⟩⟩⟩
  · rcases checks with _ | ⟨c, _ | ⟨c', checks⟩⟩
    · -- nothing was put in: it is as the dominated blocks leave it
      have before : link path frame.area.memory v = link path area.memory v := tower
      have after : link path ((frame.checkRelations ++ frame.entry).foldl removeChange area'.memory) v =
          link path area'.memory v := linked
      rw [after]
      obtain ⟨is, same⟩ | ⟨is, a, above, same⟩ := walked.links v
      · exact Or.inl ⟨Or.inr (Or.inr ⟨rfl, rfl, is⟩), same.trans before⟩
      · refine Or.inr ⟨?_, a, le_trans inserted.frames.top above, same⟩
        rintro (one | ⟨-, one⟩ | ⟨-, -, restored⟩)
        · cases one
        · cases one
        · exact is restored
    · refine Or.inl ⟨Or.inr (Or.inl ⟨rfl, rfl⟩), ?_⟩
      have is : (area'.memory.cell c).next = link path area.memory v := by
        rw [(cell mem_cons_self).2]
        exact tower.1
      exact linked.trans is
    · right
      refine ⟨by simp, ?_⟩
      obtain ⟨last, is⟩ : ∃ last, (c :: c' :: checks).getLast? = some last :=
        Option.ne_none_iff_exists'.mp (by simp)
      obtain ⟨a, member, next⟩ := tower.last_next is
      refine ⟨a, (cell member).1, ?_⟩
      rw [append_nil, is] at linked
      dsimp only at linked
      rw [linked, ← next, (cell (mem_of_getLast? is)).2]
  · refine Or.inl ⟨Or.inl rfl, ?_⟩
    rw [getLast?_concat] at linked
    dsimp only at linked
    rw [linked, (cell mem_cons_self).2]
    exact tower.1
  · right
    refine ⟨by simp, e, (cell mem_cons_self).1, ?_⟩
    rw [getLast?_append] at linked
    simp only [getLast?_cons_cons, getLast?_singleton, Option.some_or] at linked
    rw [linked, (cell (by simp)).2]
    exact tower.2.1
  · simp only [length_cons] at short
    omega

theorem processDominated_spec (anchored : Anchored area.memory path) :
    Outcome path area.memory (processDominated report dominated area).memory fun v =>
      RestoredBy report v dominated area := by
  induction dominated generalizing area with
  | nil => exact ⟨anchored, .refl _ _ _, fun v => Or.inl ⟨trivial, rfl⟩⟩
  | cons bb dominated next ihDominated ihNext =>
    have entered := enterBlock_spec report bb area anchored
    have block := leaveBlock_spec entered (ihDominated (enterBlock report bb area).area entered.inserted.anchored)
    have rest := ihNext (processBlock report bb dominated area) block.anchored
    refine ⟨rest.anchored, block.frames.trans (rest.frames.weaken block.frames.top), fun v => ?_⟩
    obtain ⟨later, same⟩ | ⟨later, a, above, same⟩ := rest.links v
    · obtain ⟨here, before⟩ | ⟨here, a, above, before⟩ := block.links v
      · exact Or.inl ⟨⟨here, later⟩, same.trans before⟩
      · exact Or.inr ⟨fun both => here both.1, a, above, same.trans before⟩
    · exact Or.inr ⟨fun both => later both.2, a, le_trans block.frames.top above, same⟩

/-! ### The lists of relations -/

theorem Memory.Lists.next {start : Option Nat} {front back : List (Nat × SummarizedValueRelation n)}
    {r : SummarizedValueRelation n} (lists : m.Lists start (front ++ (a, r) :: back)) :
    (m.cell a).relation = r ∧ (m.cell a).next = back.head?.map Prod.fst ∧ m.Lists (m.cell a).next back := by
  induction front generalizing start with
  | nil =>
    obtain _ | address := start
    · cases lists
    · obtain ⟨rfl, relation, lists⟩ := lists
      refine ⟨relation, ?_, lists⟩
      cases next : (m.cell a).next with
      | none =>
        rw [next] at lists
        obtain _ | ⟨entry, back⟩ := back
        · rfl
        · cases lists
      | some address =>
        rw [next] at lists
        obtain _ | ⟨⟨b, r'⟩, back⟩ := back
        · cases lists
        · exact congrArg some lists.1.symm
  | cons entry front ih =>
    obtain _ | address := start
    · cases lists
    · exact ih lists.2.2

theorem Memory.Lists.congr {start : Option Nat} {relations : List (Nat × SummarizedValueRelation n)}
    (lists : m.Lists start relations) (same : ∀ a ∈ relations.map Prod.fst, m'.cell a = m.cell a) :
    m'.Lists start relations := by
  induction relations generalizing start with
  | nil =>
    obtain _ | address := start
    · trivial
    · cases lists
  | cons entry relations ih =>
    obtain _ | address := start
    · cases lists
    · obtain ⟨rfl, relation, lists⟩ := lists
      have here := same entry.1 (by simp)
      refine ⟨rfl, by rw [here]; exact relation, ?_⟩
      rw [here]
      exact ih lists fun a member => same a (mem_cons_of_mem _ member)

/-- The cells behind the first one of a list that are static definitions. -/
def staticCells : List (Nat × SummarizedValueRelation n) → List Nat
  | [] => []
  | (a, r) :: relations => if r.relationIsStaticDefinition then a :: staticCells relations else []

theorem staticCells_spec {base : Nat} {relations : List (Nat × SummarizedValueRelation n)}
    (lists : m.Lists (m.cell base).next relations) (allocated : ∀ a ∈ relations.map Prod.fst, a < m.top) :
    StaticPath m base (staticCells relations) ∧ staticCells relations <+: relations.map Prod.fst ∧
      Loose m (m.cell (endOf base (staticCells relations))).next := by
  induction relations generalizing base with
  | nil =>
    refine ⟨trivial, nil_prefix, ?_⟩
    intro a is
    simp only [staticCells, endOf] at is
    rw [is] at lists
    cases lists
  | cons entry relations ih =>
    obtain ⟨a, r⟩ := entry
    cases next : (m.cell base).next with
    | none =>
      rw [next] at lists
      cases lists
    | some address =>
      rw [next] at lists
      obtain ⟨rfl, relation, lists⟩ := lists
      unfold staticCells
      by_cases static : r.relationIsStaticDefinition = true
      · rw [if_pos static]
        obtain ⟨path, shorter, loose⟩ := ih lists fun b member => allocated b (mem_cons_of_mem _ member)
        exact ⟨⟨next, by rw [relation]; exact static, path⟩, (prefix_cons_inj a).mpr shorter, loose⟩
      · rw [if_neg static]
        refine ⟨trivial, nil_prefix, ?_⟩
        intro b is
        obtain rfl := Option.some.inj (next.symm.trans is)
        exact ⟨allocated a (by simp), by rw [relation]; simpa using static⟩

section Lists

variable {m m' : Memory n} {relations : Fin n → List (Nat × SummarizedValueRelation n)}

theorem Memory.WellFormed.head (wellFormed : m.WellFormed relations) (v : Fin n) :
    ∃ r rest, relations v = (v.val, r) :: rest := by
  have lists := wellFormed.lists v
  cases whole : relations v with
  | nil =>
    rw [whole] at lists
    cases lists
  | cons entry rest =>
    rw [whole] at lists
    exact ⟨entry.2, rest, by rw [← lists.1]⟩

theorem Memory.WellFormed.anchored (wellFormed : m.WellFormed relations) :
    Anchored m fun v => staticCells (relations v).tail := by
  have spec (v : Fin n) : StaticPath m v (staticCells (relations v).tail) ∧
      (v.val :: staticCells (relations v).tail) <+: (relations v).map Prod.fst ∧
      Loose m (m.cell (endOf v (staticCells (relations v).tail))).next := by
    obtain ⟨r, rest, whole⟩ := wellFormed.head v
    have lists := wellFormed.lists v
    have allocated := wellFormed.allocated v
    rw [whole] at lists allocated ⊢
    obtain ⟨path, shorter, loose⟩ :=
      staticCells_spec lists.2.2 fun a member => allocated a (mem_cons_of_mem _ member)
    exact ⟨path, (prefix_cons_inj _).mpr shorter, loose⟩
  refine ⟨fun v => (spec v).1, fun v => ?_, fun v w other => ?_, fun v a member => ?_, fun v => (spec v).2.2⟩
  · exact (spec v).2.1.sublist.nodup (wellFormed.nodup v)
  · exact fun a inV inW => wellFormed.disjoint v w other ((spec v).2.1.subset inV) ((spec w).2.1.subset inW)
  · exact wellFormed.allocated v a ((spec v).2.1.subset member)

theorem Memory.WellFormed.split (wellFormed : m.WellFormed relations) (v : Fin n) :
    ∃ front r back, relations v = front ++ (lastOf (fun v => staticCells (relations v).tail) v, r) :: back := by
  obtain ⟨r, rest, whole⟩ := wellFormed.head v
  have path (base : Nat) (r : SummarizedValueRelation n) (rest : List (Nat × SummarizedValueRelation n)) :
      ∃ front r' back, (base, r) :: rest = front ++ (endOf base (staticCells rest), r') :: back := by
    induction rest generalizing base r with
    | nil => exact ⟨[], r, [], rfl⟩
    | cons entry rest ih =>
      obtain ⟨a, r'⟩ := entry
      unfold staticCells
      by_cases static : r'.relationIsStaticDefinition = true
      · rw [if_pos static]
        obtain ⟨front, r'', back, same⟩ := ih a r'
        exact ⟨(base, r) :: front, r'', back, by rw [same]; rfl⟩
      · rw [if_neg static]
        exact ⟨[], r, (a, r') :: rest, rfl⟩
  obtain ⟨front, r', back, same⟩ := path v.val r rest
  refine ⟨front, r', back, ?_⟩
  rw [lastOf, whole]
  exact same

/-- The list of a variable is what it was exactly where the pointer behind its static definitions is. -/
theorem Memory.WellFormed.lists_iff (wellFormed : m.WellFormed relations)
    (frames : Frames (fun v => staticCells (relations v).tail) m.top m m') (v : Fin n) :
    m'.Lists (some v.val) (relations v) ↔
      link (fun v => staticCells (relations v).tail) m' v = link (fun v => staticCells (relations v).tail) m v := by
  obtain ⟨front, r, back, whole⟩ := wellFormed.split v
  have before := wellFormed.lists v
  have allocated := wellFormed.allocated v
  constructor
  · intro after
    rw [whole] at before after
    exact after.next.2.1.trans before.next.2.1.symm
  · intro same
    have kept (a : Nat) (member : a ∈ (relations v).map Prod.fst) : m'.cell a = m.cell a := by
      by_cases is : a = lastOf (fun v => staticCells (relations v).tail) v
      · have relation := frames.relations a (allocated a member)
        subst is
        exact Cell.ext_iff.mpr ⟨relation, same⟩
      · refine frames.cells a (allocated a member) fun w shared => ?_
        by_cases other : v = w
        · exact is (other ▸ shared)
        · obtain ⟨front', r', back', whole'⟩ := wellFormed.split w
          refine wellFormed.disjoint v w other member ?_
          rw [shared, whole', map_append, map_cons]
          exact mem_append_right _ mem_cons_self
    exact before.congr kept

end Lists

/-! ### Without reports the condition is one on the blocks -/

theorem applyChange_variable (m : Memory n) (change : AdditionalVariableRelation n) :
    (applyChange m change).2.variable_ = change.variable_ := by
  unfold applyChange
  split
  · rfl
  · split
    · rfl
    · rfl

theorem addRelation_count (scan : BlockScan n) (v w : Fin n) (relation : ValueRelation) (relatedValue : SummarizedValue n) :
    (scan.addRelation w relation relatedValue).checkRelations.countP (fun change => change.variable_ = some v) =
      scan.checkRelations.countP (fun change => change.variable_ = some v) + if w = v then 1 else 0 := by
  unfold BlockScan.addRelation
  rw [countP_append, countP_singleton, applyChange_variable]
  simp

theorem processCode_count (code : List (Ins n)) (scan : BlockScan n) :
    (code.foldl (processIns false) scan).checkRelations.countP (fun change => change.variable_ = some v) =
      scan.checkRelations.countP (fun change => change.variable_ = some v) + codeFacts v code := by
  induction code generalizing scan with
  | nil => rfl
  | cons ins code ih =>
    have here : (processIns false scan ins).checkRelations.countP (fun change => change.variable_ = some v) =
        scan.checkRelations.countP (fun change => change.variable_ = some v) + codeFacts v [ins] := by
      cases ins with
      | boundsCheck arrayVar indexVar =>
        have stays : (removeAbcFromInst false scan.area arrayVar indexVar).2 = false := Bool.and_false _
        unfold processIns
        dsimp only
        rw [stays, if_neg (by decide), addRelation_count, addRelation_count]
        simp only [codeFacts, map_cons, map_nil, sum_cons, sum_nil]
        split
        · rfl
        · rfl
      | checkThis sreg1 => rfl
      | notNull sreg1 => exact addRelation_count ..
      | other => rfl
    rw [foldl_cons, ih, here, Nat.add_assoc]
    simp [codeFacts]

theorem checkFacts_quiet (v : Fin n) : checkFacts false bb area v = codeFacts v bb.code := by
  unfold checkFacts enterBlock
  rw [processCode_count]
  exact Nat.zero_add _

theorem restoredBy_quiet : RestoredBy false v dominated area ↔ QuietlyRestored v dominated := by
  induction dominated generalizing area with
  | nil => exact Iff.rfl
  | cons bb dominated next ihDominated ihNext =>
    unfold RestoredBy QuietlyRestored BlockRestores
    rw [ihDominated, ihNext, checkFacts_quiet]

/-! ### The lists behind a block -/

/-- A definition of a variable of which nothing is known. -/
def unknownRelation : SummarizedValueRelation 2 :=
  { relation := .eqRelation, relatedValue := .any, relationIsStaticDefinition := true }

/-- An array and an index that nothing is known of. -/
def unknownArea : EvaluationAreaState 2 where
  memory := { cell := fun _ => { relation := unknownRelation, next := none }, top := 2 }
  contexts _ := { status := .notStarted, currentRelation := none, ranges := .weak, father := none }

theorem unknownArea_wellFormed : unknownArea.memory.WellFormed fun v => [(v.val, unknownRelation)] where
  lists v := ⟨rfl, rfl, trivial⟩
  nodup v := nodup_singleton _
  disjoint v w other := by
    rw [map_singleton, map_singleton, disjoint_singleton, mem_singleton]
    exact fun same => other (Fin.ext same.symm)
  allocated v cell member := by
    rw [map_singleton, mem_singleton] at member
    exact member ▸ v.isLt

/-- A block with a check of an object. -/
def checkedBlock (array : Fin n) : BasicBlock n :=
  { previous := none, code := [.notNull array] }

/-- A block that is entered on a comparison and has a bounds check. -/
def comparedBlocks (array index : Fin n) : Dominated n :=
  .cons
    { previous := some { compare := .icompareImm index 7, branch := some .lt, codePath := true }
      code := [.boundsCheck array index] }
    .nil .nil

end MonoRuntime.Abc
