/-
Module: MonoRuntime.Proofs.Inflation
Purpose: When inflation is a substitution: the result as a function of the type, what a context moves, what stays open,
  and the comparison of the two ways to inflate a type twice.
Trusted boundary: none
Main exports: inflationLaws_iff
-/
import MonoRuntime.Metadata.InflationLaws

namespace MonoRuntime.GenericTypes

/-! ### Argument lists by number -/

/-- The arguments `f first`, `f (first + 1)`, ... -/
def tabulate (f : Nat → TypeData) : Nat → Nat → TypeArgs
  | _, 0 => .nil
  | first, n + 1 => .cons false (f first) (tabulate f (first + 1) n)

theorem ownArgs_eq (klass : ClassId) (first n : Nat) :
    ownFrom klass first n = tabulate (fun i => .var ⟨klass, i⟩) first n := by
  induction n generalizing first with
  | zero => rfl
  | succ n ih => rw [ownFrom, tabulate, ih]

theorem tabulate_eq_iff (f g : Nat → TypeData) (first n : Nat) :
    tabulate f first n = tabulate g first n ↔ ∀ i, first ≤ i → i < first + n → f i = g i := by
  induction n generalizing first with
  | zero =>
    constructor
    · intro _ i le lt
      omega
    · intro _
      rfl
  | succ n ih =>
    simp only [tabulate, TypeArgs.cons.injEq, true_and, ih]
    constructor
    · rintro ⟨head, tail⟩ i le lt
      rcases Nat.eq_or_lt_of_le le with same | later
      · rw [← same]
        exact head
      · exact tail i later (by omega)
    · intro all
      exact ⟨all first (Nat.le_refl _) (by omega), fun i le lt => all i (by omega) (by omega)⟩

/-- `all` says of an argument list what `each` says of its arguments. -/
structure Pointwise (all : TypeArgs → Prop) (each : TypeData → Prop) : Prop where
  nil : all .nil
  cons : ∀ byref type rest, all (.cons byref type rest) ↔ each type ∧ all rest

theorem Pointwise.tabulate_iff {all : TypeArgs → Prop} {each : TypeData → Prop} (pointwise : Pointwise all each)
    (f : Nat → TypeData) (first n : Nat) : all (tabulate f first n) ↔ ∀ i, first ≤ i → i < first + n → each (f i) := by
  induction n generalizing first with
  | zero => exact iff_of_true pointwise.nil fun i le lt => by omega
  | succ n ih =>
    rw [tabulate, pointwise.cons, ih]
    constructor
    · rintro ⟨head, tail⟩ i le lt
      rcases Nat.eq_or_lt_of_le le with same | later
      · rw [← same]
        exact head
      · exact tail i later (by omega)
    · intro all
      exact ⟨all first (Nat.le_refl _) (by omega), fun i le lt => all i (by omega) (by omega)⟩

theorem closed_pointwise :
    Pointwise (fun args => isOpen args = false) (fun type => monoClassIsOpenConstructedType type = false) where
  nil := rfl
  cons _ _ _ := Bool.or_eq_false_iff

theorem isOpen_tabulate (f : Nat → TypeData) (first n : Nat) : isOpen (tabulate f first n) = true ↔
      ∃ i, first ≤ i ∧ i < first + n ∧ monoClassIsOpenConstructedType (f i) = true := by
  have closed := closed_pointwise.tabulate_iff f first n
  rw [← Bool.not_eq_false, closed]
  simp

theorem TypeArgs.get?_isSome (args : TypeArgs) (num : Nat) (inside : num < args.length) :
    ∃ type, args.get? num = some type := by
  match args, num with
  | .nil, _ => cases inside
  | .cons _ type _, 0 => exact ⟨type, rfl⟩
  | .cons _ _ rest, num + 1 => exact rest.get?_isSome num (Nat.lt_of_succ_lt_succ inside)

theorem Pointwise.get? {all : TypeArgs → Prop} {each : TypeData → Prop} (pointwise : Pointwise all each)
    {args : TypeArgs} {num : Nat} {type : TypeData} (holds : all args)
    (found : args.get? num = some type) : each type := by
  match args, num with
  | .nil, _ => cases found
  | .cons _ _ _, 0 =>
    cases found
    exact ((pointwise.cons _ _ _).1 holds).1
  | .cons _ _ _, num + 1 => exact pointwise.get? ((pointwise.cons _ _ _).1 holds).2 found

theorem Pointwise.argument {all : TypeArgs → Prop} {each : TypeData → Prop} (pointwise : Pointwise all each)
    {inst : Option TypeArgs} {num : Nat} (self : TypeData) (holds : ∀ args, inst = some args → all args)
    (has : HasArgument inst num) : each (argument inst num self) := by
  obtain ⟨args, rfl, inside⟩ := has
  obtain ⟨type, found⟩ := args.get?_isSome num inside
  have same : GenericTypes.argument (some args) num self = type := by simp [GenericTypes.argument, found]
  rw [same]
  exact pointwise.get? (holds args rfl) found

theorem inflateParam_eq {inst : Option TypeArgs} {num : Nat} (self : TypeData) (covered : HasArgument inst num) :
    inflateParam inst num = .ok (some (argument inst num self)) := by
  obtain ⟨args, rfl, inside⟩ := covered
  obtain ⟨type, found⟩ := args.get?_isSome num inside
  simp [inflateParam, argument, found]

section Laws

variable (u : Definitions)

/-! ### The result of an inflation -/

mutual

/-- The type with the arguments put in wherever inflation looks. -/
def applied (c : MonoGenericContext) : TypeData → TypeData
  | .simple type => .simple type
  | .ptr byref type => .ptr byref type
  | .var param => argument c.classInst param.num (.var param)
  | .mvar param => argument c.methodInst param.num (.mvar param)
  | .array shape eclass => .array shape (monoClassFromMonoType u (applied c eclass))
  | .genericinst container args =>
      if isOpen args then .genericinst container (appliedArgs c args) else .genericinst container args
  | .named klass =>
      match u.typeArgc klass with
      | none => .named klass
      | some n =>
          if tabulate (ownArgument c klass) 0 n = ownArgs klass n then .named klass
          else .genericinst klass (tabulate (ownArgument c klass) 0 n)

def appliedArgs (c : MonoGenericContext) : TypeArgs → TypeArgs
  | .nil => .nil
  | .cons byref type rest => .cons byref (applied c type) (appliedArgs c rest)

end

variable {c : MonoGenericContext} {container klass : ClassId} {param : GenericParam} {n : Nat} {asClass : Bool}
  {inst : Option TypeArgs}

theorem inflateOwn_eq (klass : ClassId) (first n : Nat)
    (covered : ∀ i, first ≤ i → i < first + n → HasArgument c.classInst i) :
    inflateOwn c klass first n = .ok (tabulate (ownArgument c klass) first n) := by
  induction n generalizing first with
  | zero => rfl
  | succ n ih =>
    rw [inflateOwn, inflateParam_eq (.var ⟨klass, first⟩) (covered first (Nat.le_refl _) (by omega))]
    have rest := ih (first + 1) (fun i le lt => covered i (by omega) (by omega))
    simp only [rest]
    rfl

mutual

/-- With a context that covers the type there is no error, and the result is the type with the arguments put in. -/
theorem inflateGenericType_eq {c : MonoGenericContext} : (d : TypeData) → Covers u c d → Canonical u d →
    ∃ r, inflateGenericType u c d = .ok r ∧ r.getD d = applied u c d
  | .simple _, _, _ | .ptr _ _, _, _ => ⟨none, rfl, rfl⟩
  | .var param, covered, _ => by
      rw [inflateGenericType, inflateParam_eq (.var param) covered]
      exact ⟨_, rfl, rfl⟩
  | .mvar param, covered, _ => by
      rw [inflateGenericType, inflateParam_eq (.mvar param) covered]
      exact ⟨_, rfl, rfl⟩
  | .array shape eclass, covered, canonical => by
      obtain ⟨r, done, result⟩ := inflateGenericType_eq eclass covered canonical.2
      rw [inflateGenericType, done]
      cases r with
      | none =>
        refine ⟨none, rfl, ?_⟩
        have same : eclass = applied u c eclass := result
        rw [applied, ← same, canonical.1]
        rfl
      | some inflated =>
        refine ⟨_, rfl, ?_⟩
        have same : inflated = applied u c eclass := result
        rw [applied, ← same]
        rfl
  | .genericinst container args, covered, canonical => by
      rw [inflateGenericType, applied]
      by_cases open_ : isOpen args = true
      · rw [if_pos open_, if_pos open_, inflateArgs_eq args (covered open_) canonical]
        by_cases same : appliedArgs u c args = args
        · refine ⟨none, by simp [same], ?_⟩
          rw [same]
          rfl
        · exact ⟨some _, by simp [same], rfl⟩
      · rw [if_neg open_, if_neg open_]
        exact ⟨none, rfl, rfl⟩
  | .named klass, covered, _ => by
      rw [inflateGenericType, applied]
      cases count : u.typeArgc klass with
      | none => exact ⟨none, rfl, rfl⟩
      | some n =>
        have params := inflateOwn_eq klass 0 n (fun i _ lt => covered n count i (by omega))
        simp only [params]
        split
        · exact ⟨none, rfl, rfl⟩
        · exact ⟨_, rfl, rfl⟩

theorem inflateArgs_eq {c : MonoGenericContext} : (args : TypeArgs) → CoversArgs u c args → CanonicalArgs u args →
    inflateArgs u c args = .ok (appliedArgs u c args)
  | .nil, _, _ => rfl
  | .cons byref type rest, covered, canonical => by
      obtain ⟨r, done, result⟩ := inflateGenericType_eq type covered.1 canonical.1
      rw [inflateArgs, done, inflateArgs_eq rest covered.2 canonical.2, appliedArgs]
      simp only [result]

end

/-! ### Classes of types -/

theorem isDefinition_iff {args : TypeArgs} : isDefinition u container args = true ↔
      ∃ n, u.typeArgc container = some n ∧ args = ownArgs container n ∧ u.isTbOpen container = false := by
  unfold isDefinition
  cases count : u.typeArgc container with
  | none | some n => simp

/-- Instances of one definition have the same class only when they are the same. -/
theorem class_genericinst {args args' : TypeArgs} (same : monoClassFromMonoType u (.genericinst container args) =
      monoClassFromMonoType u (.genericinst container args')) : args = args' := by
  simp only [monoClassFromMonoType] at same
  split at same
  · next first =>
    split at same
    · next second =>
      obtain ⟨n, count, own, _⟩ := (isDefinition_iff u).1 first
      obtain ⟨n', count', own', _⟩ := (isDefinition_iff u).1 second
      rw [count] at count'
      cases count'
      rw [own, own']
    · cases same
  · split at same
    · cases same
    · cases same
      rfl

theorem class_idempotent (d : TypeData) :
    monoClassFromMonoType u (monoClassFromMonoType u d) = monoClassFromMonoType u d := by
  match d with
  | .simple _ | .named _ | .array _ _ | .var _ | .mvar _ => rfl
  | .ptr _ type =>
    simp only [monoClassFromMonoType, class_idempotent type]
  | .genericinst container args =>
    simp only [monoClassFromMonoType]
    split
    · rfl
    · next other => simp only [monoClassFromMonoType, if_neg other]

/-- Only a parameter has the class of a parameter. -/
theorem eq_of_class {d e : TypeData} (isParam : e = .var param ∨ e = .mvar param)
    (same : monoClassFromMonoType u d = e) : d = e := by
  cases d with
  | var | mvar => exact same
  | genericinst container args =>
    simp only [monoClassFromMonoType] at same
    split at same <;> subst same <;> rcases isParam with absurd | absurd <;> cases absurd
  | _ =>
    subst same
    rcases isParam with absurd | absurd <;> cases absurd

theorem class_of_not_own {args : TypeArgs} (count : u.typeArgc container = some n) (other : args ≠ ownArgs container n) :
    monoClassFromMonoType u (.genericinst container args) = .genericinst container args := by
  simp only [monoClassFromMonoType]
  rw [if_neg]
  intro definition
  obtain ⟨n', count', own, _⟩ := (isDefinition_iff u).1 definition
  rw [count] at count'
  cases count'
  exact other own

theorem class_applied_iff (d : TypeData) :
    monoClassFromMonoType u (applied u c d) = monoClassFromMonoType u d ↔ applied u c d = d := by
  constructor
  · intro same
    cases d with
    | simple type | ptr byref type => rfl
    | var param => exact eq_of_class u (.inl rfl) same
    | mvar param => exact eq_of_class u (.inr rfl) same
    | array shape eclass => exact same
    | genericinst container args =>
      rw [applied] at same ⊢
      split
      · next open_ =>
        rw [if_pos open_] at same
        rw [class_genericinst u same]
      · rfl
    | named klass =>
      rw [applied] at same ⊢
      cases count : u.typeArgc klass with
      | none => rfl
      | some n =>
        rw [count] at same
        simp only at same ⊢
        split
        · rfl
        · next other =>
          rw [if_neg other, class_of_not_own u count other] at same
          cases same
  · intro same
    rw [same]

/-! ### What a context moves -/

theorem tabulate_own_iff : tabulate (ownArgument c klass) 0 n = ownArgs klass n ↔
      ∀ i, i < n → ownArgument c klass i = .var ⟨klass, i⟩ := by
  rw [ownArgs, ownArgs_eq, tabulate_eq_iff]
  constructor
  · intro all i lt
    exact all i (Nat.zero_le i) (by omega)
  · intro all i _ lt
    exact all i (by omega)

mutual

theorem applied_eq_iff {c : MonoGenericContext} : (d : TypeData) → Canonical u d → (applied u c d = d ↔ ¬ Moves u c d)
  | .simple _, _ | .ptr _ _, _ | .var _, _ | .mvar _, _ => by simp [applied, Moves]
  | .array shape eclass, canonical => by
      have element := class_applied_iff u (c := c) eclass
      rw [canonical.1] at element
      rw [applied, Moves, TypeData.array.injEq, ← applied_eq_iff eclass canonical.2, ← element]
      simp
  | .genericinst container args, canonical => by
      rw [applied, Moves]
      by_cases open_ : isOpen args = true
      · rw [if_pos open_, TypeData.genericinst.injEq, appliedArgs_eq_iff args canonical]
        simp [open_]
      · rw [if_neg open_]
        simp [open_]
  | .named klass, _ => by
      rw [applied, Moves]
      cases count : u.typeArgc klass with
      | none => simp
      | some n =>
        simp only [tabulate_own_iff, Option.some.injEq]
        split
        · next all =>
          simp only [true_iff]
          rintro ⟨n', rfl, i, lt, different⟩
          exact different (all i lt)
        · next some_ =>
          simp only [reduceCtorEq, false_iff, not_not]
          simp only [not_forall] at some_
          obtain ⟨i, lt, different⟩ := some_
          exact ⟨n, rfl, i, lt, different⟩

theorem appliedArgs_eq_iff {c : MonoGenericContext} : (args : TypeArgs) → CanonicalArgs u args →
    (appliedArgs u c args = args ↔ ¬ MovesArgs u c args)
  | .nil, _ => by simp [appliedArgs, MovesArgs]
  | .cons byref type rest, canonical => by
      rw [appliedArgs, MovesArgs, TypeArgs.cons.injEq, applied_eq_iff type canonical.1,
        appliedArgs_eq_iff rest canonical.2]
      simp

end

/-! ### What stays open -/

theorem applied_eq_var_iff (d : TypeData) : applied u c d = .var param ↔ Becomes c param d := by
  cases d with
  | simple type | ptr byref type | var q | mvar q | array shape eclass => simp [applied, Becomes]
  | genericinst container args =>
    show _ ↔ False
    rw [applied]
    split <;> simp
  | named klass =>
    show _ ↔ False
    rw [applied]
    cases u.typeArgc klass with
    | none => simp
    | some n =>
      simp only
      split <;> simp

theorem appliedArgs_own_iff (first : Nat) (args : TypeArgs) :
    appliedArgs u c args = ownFrom klass first args.length ↔ BecomeOwn c klass first args := by
  match args with
  | .nil => simp [appliedArgs, ownFrom, BecomeOwn, TypeArgs.length]
  | .cons byref type rest =>
    rw [appliedArgs, TypeArgs.length, ownFrom, BecomeOwn, TypeArgs.cons.injEq, applied_eq_var_iff,
      appliedArgs_own_iff (first + 1) rest]

theorem length_appliedArgs (args : TypeArgs) : (appliedArgs u c args).length = args.length := by
  match args with
  | .nil => rfl
  | .cons byref type rest => rw [appliedArgs, TypeArgs.length, TypeArgs.length, length_appliedArgs rest]

theorem length_ownFrom (klass : ClassId) (first n : Nat) : (ownFrom klass first n).length = n := by
  induction n generalizing first with
  | zero => rfl
  | succ n ih => rw [ownFrom, TypeArgs.length, ih]

theorem isDefinition_applied_iff {args : TypeArgs} : isDefinition u container (appliedArgs u c args) = true ↔
      u.typeArgc container = some args.length ∧ u.isTbOpen container = false ∧ BecomeOwn c container 0 args := by
  rw [isDefinition_iff]
  constructor
  · rintro ⟨n, count, own, plain⟩
    have same : n = args.length := by
      rw [← length_appliedArgs u args, own, ownArgs, length_ownFrom]
    subst same
    exact ⟨count, plain, (appliedArgs_own_iff u 0 args).1 own⟩
  · rintro ⟨count, plain, own⟩
    exact ⟨args.length, count, (appliedArgs_own_iff u 0 args).2 own, plain⟩

theorem not_openAs_named (asClass : Bool) (klass : ClassId) : ¬ OpenAs u asClass (.named klass) := by
  cases asClass with
  | false | true => exact Bool.false_ne_true

theorem openAs_genericinst (asClass : Bool) {args : TypeArgs}
    (isClass : monoClassFromMonoType u (.genericinst container args) = .genericinst container args) :
    OpenAs u asClass (.genericinst container args) ↔ isOpen args = true := by
  unfold OpenAs
  cases asClass with
  | false => rfl
  | true =>
    rw [if_pos rfl, isClass]
    rfl

theorem openAs_genericinst_iff (asClass : Bool) (container : ClassId) (args : TypeArgs) :
    OpenAs u asClass (.genericinst container args) ↔
      isOpen args = true ∧ (asClass = true → isDefinition u container args = false) := by
  cases asClass with
  | false => simp [OpenAs, monoClassIsOpenConstructedType]
  | true =>
    unfold OpenAs
    rw [if_pos rfl, monoClassFromMonoType]
    split
    · next definition => simp [definition, monoClassIsOpenConstructedType]
    · next other =>
      have apart : isDefinition u container args = false := by simpa using other
      simp [apart, monoClassIsOpenConstructedType]

mutual

/-- A type counts as open after the arguments are put in exactly when it stays open. -/
theorem openAs_applied {c : MonoGenericContext} : (asClass : Bool) → (d : TypeData) → Canonical u d →
    (asClass = true → monoClassFromMonoType u d = d) → (OpenAs u asClass (applied u c d) ↔ StaysOpen u c asClass d)
  | asClass, .simple _, _, _ => by cases asClass <;> simp [OpenAs, applied, StaysOpen, monoClassFromMonoType,
      monoClassIsOpenConstructedType]
  | asClass, .ptr byref type, _, isClass => by
      rw [applied, StaysOpen, OpenAs]
      cases asClass with
      | false => rfl
      | true =>
        rw [if_pos rfl, isClass rfl]
        rfl
  | _, .var _, _, _ | _, .mvar _, _, _ => Iff.rfl
  | asClass, .array shape eclass, canonical, _ => by
      rw [StaysOpen, ← openAs_applied true eclass canonical.2 (fun _ => canonical.1)]
      cases asClass with
      | false | true => rfl
  | asClass, .genericinst container args, canonical, _ => by
      rw [applied, StaysOpen, ← isOpen_appliedArgs args canonical]
      by_cases open_ : isOpen args = true
      · rw [if_pos open_, openAs_genericinst_iff, ← Bool.not_eq_true, isDefinition_applied_iff]
        simp only [open_, true_and, not_and]
      · have closed : isOpen args = false := by simpa using open_
        rw [if_neg open_, openAs_genericinst_iff]
        simp [closed]
  | asClass, .named klass, _, _ => by
      rw [applied, StaysOpen]
      cases count : u.typeArgc klass with
      | none => simp [not_openAs_named]
      | some n =>
        simp only [Option.some.injEq]
        split
        · next same =>
          have unmoved := tabulate_own_iff.1 same
          simp only [not_openAs_named, false_iff, not_exists, not_and]
          rintro n' rfl ⟨i, lt, different⟩
          exact absurd (unmoved i lt) different
        · next other =>
          rw [openAs_genericinst u asClass (class_of_not_own u count other), isOpen_tabulate]
          rw [tabulate_own_iff, not_forall] at other
          simp only [Nat.zero_le, true_and, Nat.zero_add, exists_eq_left']
          constructor
          · intro still
            obtain ⟨i, moved⟩ := other
            exact ⟨⟨i, by simpa using moved⟩, still⟩
          · exact fun still => still.2

theorem isOpen_appliedArgs {c : MonoGenericContext} : (args : TypeArgs) → CanonicalArgs u args →
    (isOpen (appliedArgs u c args) = true ↔ StayOpenArgs u c args)
  | .nil, _ => by simp [appliedArgs, isOpen, StayOpenArgs]
  | .cons byref type rest, canonical => by
      have head := openAs_applied (c := c) false type canonical.1 (fun absurd => nomatch absurd)
      rw [appliedArgs, isOpen, StayOpenArgs, ← head, ← isOpen_appliedArgs rest canonical.2, Bool.or_eq_true]
      rfl

end

/-! ### The two ways -/

/-- The arguments put in, or nothing done. -/
noncomputable def appliedIf (reached : Prop) (c : MonoGenericContext) (d : TypeData) : TypeData :=
  open Classical in if reached then applied u c d else d

noncomputable def appliedArgsIf (reached : Prop) (c : MonoGenericContext) (args : TypeArgs) : TypeArgs :=
  open Classical in if reached then appliedArgs u c args else args

/-- The types are the same, or their classes are. -/
def Same (asClass : Bool) (x y : TypeData) : Prop :=
  if asClass then monoClassFromMonoType u x = monoClassFromMonoType u y else x = y

theorem Same.refl (asClass : Bool) (x : TypeData) : Same u asClass x x := by
  unfold Same
  split <;> rfl

theorem appliedArgsIf_cons (reached : Prop) (c : MonoGenericContext) (byref : Bool) (type : TypeData)
    (rest : TypeArgs) : appliedArgsIf u reached c (.cons byref type rest) =
      .cons byref (appliedIf u reached c type) (appliedArgsIf u reached c rest) := by
  unfold appliedArgsIf appliedIf
  by_cases h : reached
  · simp only [if_pos h, appliedArgs]
  · simp only [if_neg h]

theorem appliedIf_genericinst (reached : Prop) (c : MonoGenericContext) (container : ClassId) (args : TypeArgs) :
    appliedIf u reached c (.genericinst container args) =
      .genericinst container (appliedArgsIf u (reached ∧ isOpen args = true) c args) := by
  unfold appliedIf appliedArgsIf
  by_cases h : reached
  · rw [if_pos h, applied]
    by_cases open_ : isOpen args = true
    · rw [if_pos open_, if_pos ⟨h, open_⟩]
    · rw [if_neg open_, if_neg (fun both => open_ both.2)]
  · rw [if_neg h, if_neg (fun both => h both.1)]

theorem same_genericinst {args args' : TypeArgs} :
    Same u asClass (.genericinst container args) (.genericinst container args') ↔ args = args' := by
  unfold Same
  cases asClass with
  | false => simp
  | true =>
    constructor
    · exact fun same => class_genericinst u same
    · rintro rfl
      rfl

theorem same_appliedIf_iff {a : TypeData} (first second : Prop) (canonical : Canonical u a) :
    Same u asClass (appliedIf u first c a) (appliedIf u second c a) ↔ (Moves u c a → (first ↔ second)) := by
  have changed : Same u asClass (applied u c a) a ↔ ¬ Moves u c a := by
    rw [← applied_eq_iff u a canonical]
    cases asClass with
    | false => rfl
    | true => exact class_applied_iff u a
  have changed' : Same u asClass a (applied u c a) ↔ ¬ Moves u c a := by
    rw [← changed]
    unfold Same
    split
    · exact eq_comm
    · exact eq_comm
  unfold appliedIf
  by_cases one : first
  · by_cases two : second
    · simp [one, two, Same.refl]
    · simp only [one, two, if_true, if_false, changed]
      simp
  · by_cases two : second
    · simp only [one, two, if_true, if_false, changed']
      simp
    · simp [one, two, Same.refl]

theorem appliedArgs_tabulate (c : MonoGenericContext) (f : Nat → TypeData) (first n : Nat) :
    appliedArgs u c (tabulate f first n) = tabulate (fun i => applied u c (f i)) first n := by
  induction n generalizing first with
  | zero => rfl
  | succ n ih => rw [tabulate, appliedArgs, ih, tabulate]

theorem appliedArgs_own (c : MonoGenericContext) (klass : ClassId) (n : Nat) :
    appliedArgs u c (ownArgs klass n) = tabulate (ownArgument c klass) 0 n := by
  rw [ownArgs, ownArgs_eq, appliedArgs_tabulate]
  rfl

theorem isOpen_own (some_ : 0 < n) : isOpen (ownArgs klass n) = true := by
  rw [ownArgs, ownArgs_eq, isOpen_tabulate]
  exact ⟨0, Nat.le_refl 0, by omega, rfl⟩

theorem class_applied_class (c : MonoGenericContext) (x : TypeData) :
    monoClassFromMonoType u (applied u c (monoClassFromMonoType u x)) = monoClassFromMonoType u (applied u c x) := by
  cases x with
  | simple type | named klass | array shape eclass | var param | mvar param => rfl
  | ptr byref type => exact class_idempotent u (.ptr byref type)
  | genericinst container args =>
    by_cases definition : isDefinition u container args = true
    · obtain ⟨n, count, own, plain⟩ := (isDefinition_iff u).1 definition
      have named : monoClassFromMonoType u (.genericinst container args) = .named container := by
        rw [monoClassFromMonoType, if_pos definition]
      rw [named, applied, applied]
      simp only [count]
      by_cases kept : tabulate (ownArgument c container) 0 n = ownArgs container n
      · rw [if_pos kept, own, appliedArgs_own, kept, ← own, ite_self, named]
        rfl
      · have some_ : 0 < n := by
          by_contra none_
          have zero : n = 0 := by omega
          subst zero
          exact kept rfl
        rw [if_neg kept, own, if_pos (isOpen_own some_), appliedArgs_own]
    · rw [monoClassFromMonoType, if_neg definition]

theorem class_appliedIf_class (reached : Prop) (c : MonoGenericContext) (x : TypeData) :
    monoClassFromMonoType u (appliedIf u reached c (monoClassFromMonoType u x)) =
      monoClassFromMonoType u (appliedIf u reached c x) := by
  unfold appliedIf
  split
  · exact class_applied_class u c x
  · exact class_idempotent u x

theorem appliedIf_array (reached : Prop) (c : MonoGenericContext) (shape : ArrayShape) (x : TypeData) :
    appliedIf u reached c (.array shape (monoClassFromMonoType u x)) =
      .array shape (monoClassFromMonoType u (appliedIf u reached c x)) := by
  rw [← class_appliedIf_class]
  unfold appliedIf
  split
  · rfl
  · rw [class_idempotent]

/-! ### The composed context -/

/-- An argument list of the first context with the second put in. -/
def composedInst (c2 : MonoGenericContext) (inst : Option TypeArgs) : Option TypeArgs :=
  inst.map fun args => if isOpen args then appliedArgs u c2 args else args

/-- `inflate_generic_context` without its errors. -/
def composed (c1 c2 : MonoGenericContext) : MonoGenericContext :=
  ⟨composedInst u c2 c1.classInst, composedInst u c2 c1.methodInst⟩

theorem get?_appliedArgs (c : MonoGenericContext) (args : TypeArgs) (num : Nat) :
    (appliedArgs u c args).get? num = (args.get? num).map (applied u c) := by
  match args, num with
  | .nil, _ | .cons _ _ _, 0 => rfl
  | .cons _ _ rest, num + 1 => exact get?_appliedArgs c rest num

/-- The second context acts on the arguments of the first when their list counts as open. -/
theorem argument_composed {c2 : MonoGenericContext} {num : Nat} (self : TypeData) (covered : HasArgument inst num) :
    argument (composedInst u c2 inst) num self = appliedIf u (InstOpen inst) c2 (argument inst num self) := by
  obtain ⟨args, rfl, inside⟩ := covered
  obtain ⟨type, found⟩ := args.get?_isSome num inside
  have openIff : InstOpen (some args) ↔ isOpen args = true := by
    simp [InstOpen]
  unfold appliedIf
  by_cases open_ : isOpen args = true
  · simp [composedInst, argument, open_, openIff, get?_appliedArgs, found]
  · simp [composedInst, argument, open_, openIff, found]

theorem canonicalArgs_pointwise : Pointwise (CanonicalArgs u) (Canonical u) where
  nil := trivial
  cons _ _ _ := Iff.rfl

theorem param_iff {c2 : MonoGenericContext} {num : Nat} (self : TypeData) (reached : Prop)
    (canonical : ∀ args, inst = some args → CanonicalArgs u args) (covered : HasArgument inst num) :
    Same u asClass (appliedIf u reached c2 (argument inst num self)) (argument (composedInst u c2 inst) num self) ↔
      ParamAgrees u c2 inst num self reached := by
  rw [argument_composed u self covered]
  exact same_appliedIf_iff u reached (InstOpen inst) ((canonicalArgs_pointwise u).argument self canonical covered)

/-! ### Definitions -/

section Definition

variable {c1 c2 : MonoGenericContext} {klass : ClassId} {n : Nat}

theorem moves_named_iff (count : u.typeArgc klass = some n) :
    Moves u c1 (.named klass) ↔ tabulate (ownArgument c1 klass) 0 n ≠ ownArgs klass n := by
  rw [Moves, Ne, tabulate_own_iff]
  simp [count]

theorem applied_named (c : MonoGenericContext) (count : u.typeArgc klass = some n) : applied u c (.named klass) =
      if tabulate (ownArgument c klass) 0 n = ownArgs klass n then .named klass
      else .genericinst klass (tabulate (ownArgument c klass) 0 n) := by
  rw [applied]
  simp only [count]

theorem appliedArgsIf_own (reached : Prop) (c : MonoGenericContext) :
    appliedArgsIf u (reached ∧ isOpen (ownArgs klass n) = true) c (ownArgs klass n) =
      appliedArgsIf u reached c (ownArgs klass n) := by
  cases n with
  | zero =>
    unfold appliedArgsIf
    split <;> split <;> rfl
  | succ n => simp [isOpen_own (Nat.succ_pos n)]

/-- A definition inflated twice is a definition again when its arguments are its parameters both times. -/
theorem appliedIf_named (reached : Prop) (count : u.typeArgc klass = some n) {args args' : TypeArgs}
    (once : args = tabulate (ownArgument c1 klass) 0 n)
    (twice : args' = appliedArgsIf u (reached ∧ isOpen args = true) c2 args) :
    (args = ownArgs klass n ∧ args' = ownArgs klass n ∧
        appliedIf u reached c2 (applied u c1 (.named klass)) = .named klass) ∨
      (¬ (args = ownArgs klass n ∧ args' = ownArgs klass n) ∧
        appliedIf u reached c2 (applied u c1 (.named klass)) = .genericinst klass args') := by
  rw [applied_named u c1 count, ← once]
  by_cases kept : args = ownArgs klass n
  · rw [if_pos kept]
    rw [kept, appliedArgsIf_own] at twice
    by_cases h : reached
    · rw [appliedArgsIf, if_pos h, appliedArgs_own] at twice
      rw [appliedIf, if_pos h, applied_named u c2 count, ← twice]
      by_cases kept' : args' = ownArgs klass n
      · exact .inl ⟨kept, kept', if_pos kept'⟩
      · exact .inr ⟨fun both => kept' both.2, if_neg kept'⟩
    · rw [appliedArgsIf, if_neg h] at twice
      rw [appliedIf, if_neg h]
      exact .inl ⟨kept, twice, rfl⟩
  · rw [if_neg kept, appliedIf_genericinst, ← twice]
    exact .inr ⟨fun both => kept both.1, rfl⟩

theorem Same.symm {asClass : Bool} {x y : TypeData} (same : Same u asClass x y) : Same u asClass y x := by
  unfold Same at same ⊢
  split at same
  · next h =>
    rw [if_pos h]
    exact Eq.symm same
  · next h =>
    rw [if_neg h]
    exact Eq.symm same

/-- A definition and an instance of it are the same only as classes, for the instance over the own parameters. -/
theorem same_named_genericinst (count : u.typeArgc klass = some n) {asClass : Bool} {args : TypeArgs}
    (same : Same u asClass (.named klass) (.genericinst klass args)) :
    args = ownArgs klass n ∧ asClass = true ∧ u.isTbOpen klass = false := by
  unfold Same at same
  cases asClass with
  | false => cases same
  | true =>
    rw [if_pos rfl, monoClassFromMonoType, monoClassFromMonoType] at same
    split at same
    · next definition =>
      obtain ⟨n', count', own, plain⟩ := (isDefinition_iff u).1 definition
      rw [count] at count'
      cases count'
      exact ⟨own, rfl, plain⟩
    · cases same

/-- The two ways agree on a definition when the arguments come out the same, and it does not become itself on the
second way only; as a class it may. -/
theorem same_named_iff {asClass : Bool} (reached : Prop) (count : u.typeArgc klass = some n) (c : MonoGenericContext) :
    Same u asClass (appliedIf u reached c2 (applied u c1 (.named klass))) (applied u c (.named klass)) ↔
      appliedArgsIf u (reached ∧ isOpen (tabulate (ownArgument c1 klass) 0 n) = true) c2
          (tabulate (ownArgument c1 klass) 0 n) = tabulate (ownArgument c klass) 0 n ∧
        (asClass = false ∨ u.isTbOpen klass = true → tabulate (ownArgument c klass) 0 n = ownArgs klass n →
            tabulate (ownArgument c1 klass) 0 n = ownArgs klass n) := by
  obtain ⟨args, once⟩ : ∃ args, args = tabulate (ownArgument c1 klass) 0 n := ⟨_, rfl⟩
  obtain ⟨args', twice⟩ : ∃ args', args' = appliedArgsIf u (reached ∧ isOpen args = true) c2 args := ⟨_, rfl⟩
  have first := appliedIf_named u reached count once twice
  rw [← once, ← twice, applied_named u c count]
  generalize tabulate (ownArgument c klass) 0 n = args2
  rcases first with ⟨kept, kept', left⟩ | ⟨changed, left⟩
  · rw [left, kept, kept']
    by_cases back : args2 = ownArgs klass n
    · rw [if_pos back, back]
      simp [Same.refl]
    · rw [if_neg back]
      constructor
      · intro same
        exact absurd (same_named_genericinst u count same).1 back
      · intro both
        exact absurd both.1.symm back
  · rw [left]
    by_cases back : args2 = ownArgs klass n
    · rw [if_pos back, back]
      constructor
      · intro same
        obtain ⟨own, asClass_, plain⟩ := same_named_genericinst u count same.symm
        refine ⟨own, ?_⟩
        rintro (notClass | tbOpen)
        · rw [notClass] at asClass_
          cases asClass_
        · rw [tbOpen] at plain
          cases plain
      · rintro ⟨own, back'⟩
        have apart : ¬ (asClass = false ∨ u.isTbOpen klass = true) := fun h => changed ⟨back' h rfl, own⟩
        simp only [not_or, Bool.not_eq_false, Bool.not_eq_true] at apart
        have definition : isDefinition u klass args' = true := (isDefinition_iff u).2 ⟨n, count, own, apart.2⟩
        unfold Same
        rw [if_pos apart.1, monoClassFromMonoType, if_pos definition]
        rfl
    · rw [if_neg back, same_genericinst]
      simp [back]

theorem own_arguments_iff (reached : Prop) (canonical : ∀ args, c1.classInst = some args → CanonicalArgs u args)
    (covered : ∀ i, i < n → HasArgument c1.classInst i) :
    appliedArgsIf u reached c2 (tabulate (ownArgument c1 klass) 0 n) =
        tabulate (ownArgument (composed u c1 c2) klass) 0 n ↔
      ∀ i, i < n → ParamAgrees u c2 c1.classInst i (.var ⟨klass, i⟩) reached := by
  have spread : appliedArgsIf u reached c2 (tabulate (ownArgument c1 klass) 0 n) =
      tabulate (fun i => appliedIf u reached c2 (ownArgument c1 klass i)) 0 n := by
    unfold appliedArgsIf appliedIf
    split
    · exact appliedArgs_tabulate u c2 _ 0 n
    · rfl
  have each : ∀ i, i < n → (Same u false (appliedIf u reached c2 (ownArgument c1 klass i))
      (ownArgument (composed u c1 c2) klass i) ↔ ParamAgrees u c2 c1.classInst i (.var ⟨klass, i⟩) reached) :=
    fun i lt => param_iff u (.var ⟨klass, i⟩) reached canonical (covered i lt)
  rw [spread, tabulate_eq_iff]
  constructor
  · intro all i lt
    exact (each i lt).1 (all i (Nat.zero_le i) (by omega))
  · intro all i _ lt
    exact (each i (by omega)).2 (all i (by omega))

/-- The composed context leaves a definition alone when the second takes the arguments back. -/
theorem composed_own_iff (covered : ∀ i, i < n → HasArgument c1.classInst i) :
    tabulate (ownArgument (composed u c1 c2) klass) 0 n = ownArgs klass n ↔ ComesBack c1 c2 klass n := by
  rw [tabulate_own_iff]
  refine forall_congr' fun i => forall_congr' fun lt => ?_
  have same : ownArgument (composed u c1 c2) klass i =
      appliedIf u (InstOpen c1.classInst) c2 (ownArgument c1 klass i) :=
    argument_composed u (.var ⟨klass, i⟩) (covered i lt)
  rw [same]
  unfold appliedIf
  by_cases open_ : InstOpen c1.classInst
  · simp [open_, applied_eq_var_iff]
  · simp [open_]

end Definition

/-! ### Where the two ways agree -/

section Twice

variable {c1 c2 : MonoGenericContext}

mutual

/-- The two ways to inflate a type give the same result exactly when they agree wherever the second context acts. -/
theorem twice_iff (canonical1 : ForInsts c1 (CanonicalArgs u)) : (asClass : Bool) → (reached : Prop) → (d : TypeData) → Covers u c1 d → Canonical u d →
    (Same u asClass (appliedIf u reached c2 (applied u c1 d)) (applied u (composed u c1 c2) d) ↔
      Agrees u c1 c2 asClass reached d)
  | asClass, reached, .simple type, _, _ => by
      have same : appliedIf u reached c2 (applied u c1 (.simple type)) = .simple type := by
        unfold appliedIf
        split <;> rfl
      rw [same, Agrees]
      exact iff_of_true (Same.refl u asClass _) trivial
  | asClass, reached, .ptr byref type, _, _ => by
      have same : appliedIf u reached c2 (applied u c1 (.ptr byref type)) = .ptr byref type := by
        unfold appliedIf
        split <;> rfl
      rw [same, Agrees]
      exact iff_of_true (Same.refl u asClass _) trivial
  | _, reached, .var param, covered, _ => param_iff u (.var param) reached canonical1.1 covered
  | _, reached, .mvar param, covered, _ => param_iff u (.mvar param) reached canonical1.2 covered
  | asClass, reached, .array shape eclass, covered, canonical => by
      rw [Agrees, ← twice_iff canonical1 true reached eclass covered canonical.2, applied, appliedIf_array, applied]
      cases asClass with
      | false => simp [Same]
      | true => simp [Same, monoClassFromMonoType]
  | asClass, reached, .genericinst container args, covered, canonical => by
      rw [Agrees, applied, applied]
      by_cases open_ : isOpen args = true
      · rw [if_pos open_, if_pos open_, appliedIf_genericinst, same_genericinst,
          isOpen_appliedArgs u args canonical, twiceArgs_iff canonical1 _ args (covered open_) canonical]
        simp [open_]
      · have unreached : appliedIf u reached c2 (.genericinst container args) = .genericinst container args := by
          rw [appliedIf_genericinst, appliedArgsIf, if_neg (fun both => open_ both.2)]
        rw [if_neg open_, if_neg open_, unreached]
        exact iff_of_true (Same.refl u asClass _) (fun absurd => (open_ absurd).elim)
  | asClass, reached, .named klass, covered, _ => by
      rw [Agrees]
      cases count : u.typeArgc klass with
      | none =>
        have same : appliedIf u reached c2 (applied u c1 (.named klass)) = .named klass := by
          unfold appliedIf
          split <;> simp [applied, count]
        have same' : applied u (composed u c1 c2) (.named klass) = .named klass := by simp [applied, count]
        rw [same, same']
        exact iff_of_true (Same.refl u asClass _) (fun n absurd => by cases absurd)
      | some n =>
        rw [same_named_iff u reached count, own_arguments_iff u _ canonical1.1 (covered n count),
          composed_own_iff u (covered n count), isOpen_tabulate]
        simp only [Option.some.injEq, forall_eq', moves_named_iff u count, ne_eq, not_not, Nat.zero_le, true_and,
          Nat.zero_add]

theorem twiceArgs_iff (canonical1 : ForInsts c1 (CanonicalArgs u)) : (reached : Prop) → (args : TypeArgs) → CoversArgs u c1 args → CanonicalArgs u args →
    (appliedArgsIf u reached c2 (appliedArgs u c1 args) = appliedArgs u (composed u c1 c2) args ↔
      AgreeArgs u c1 c2 reached args)
  | reached, .nil, _, _ => by
      have same : appliedArgsIf u reached c2 (appliedArgs u c1 .nil) = .nil := by
        unfold appliedArgsIf
        split <;> rfl
      rw [same, AgreeArgs]
      exact iff_of_true rfl trivial
  | reached, .cons byref type rest, covered, canonical => by
      have head := twice_iff canonical1 false reached type covered.1 canonical.1
      rw [appliedArgs, appliedArgsIf_cons, appliedArgs, AgreeArgs, TypeArgs.cons.injEq, ← head,
        ← twiceArgs_iff canonical1 reached rest covered.2 canonical.2]
      simp [Same]

end

end Twice

/-! ### The second inflation -/

section Second

variable {c1 c2 : MonoGenericContext}

theorem coversArgs_pointwise : Pointwise (CoversArgs u c2) (Covers u c2) where
  nil := trivial
  cons _ _ _ := Iff.rfl

theorem covers_class {d : TypeData} (covered : Covers u c2 d) : Covers u c2 (monoClassFromMonoType u d) := by
  cases d with
  | simple type | named klass | array shape eclass | var param | mvar param => exact covered
  | ptr byref type => trivial
  | genericinst container args =>
    rw [monoClassFromMonoType]
    split
    · next definition =>
      obtain ⟨n, count, own, _⟩ := (isDefinition_iff u).1 definition
      intro n' count' i lt
      rw [count] at count'
      cases count'
      have some_ : 0 < n := by omega
      rw [own] at covered
      have params := covered (isOpen_own some_)
      rw [ownArgs, ownArgs_eq, (coversArgs_pointwise u).tabulate_iff] at params
      exact params i (Nat.zero_le i) (by omega)
    · exact covered

mutual

/-- The second context covers the first result when it covers the arguments of the first context. -/
theorem covers_applied (covered2 : ForInsts c1 (CoversArgs u c2)) : (d : TypeData) → Covers u c1 d →
    Covers u c2 (applied u c1 d)
  | .simple _, _ | .ptr _ _, _ => trivial
  | .var param, covered => (coversArgs_pointwise u).argument (.var param) covered2.1 covered
  | .mvar param, covered => (coversArgs_pointwise u).argument (.mvar param) covered2.2 covered
  | .array _ eclass, covered => covers_class u (covers_applied covered2 eclass covered)
  | .genericinst container args, covered => by
      rw [applied]
      by_cases open_ : isOpen args = true
      · rw [if_pos open_]
        exact fun _ => coversArgs_applied covered2 args (covered open_)
      · rw [if_neg open_]
        exact fun absurd => (open_ absurd).elim
  | .named klass, covered => by
      cases count : u.typeArgc klass with
      | none =>
        rw [applied]
        simp only [count]
        intro n absurd
        rw [count] at absurd
        cases absurd
      | some n =>
        have each : ∀ i, i < n → Covers u c2 (ownArgument c1 klass i) := fun i lt =>
          (coversArgs_pointwise u).argument (.var ⟨klass, i⟩) covered2.1 (covered n count i lt)
        rw [applied_named u c1 count]
        split
        · next kept =>
          intro n' count' i lt
          rw [count] at count'
          cases count'
          have param := each i lt
          rwa [tabulate_own_iff.1 kept i lt] at param
        · intro _
          rw [(coversArgs_pointwise u).tabulate_iff]
          exact fun i _ lt => each i (by omega)

theorem coversArgs_applied (covered2 : ForInsts c1 (CoversArgs u c2)) : (args : TypeArgs) → CoversArgs u c1 args →
    CoversArgs u c2 (appliedArgs u c1 args)
  | .nil, _ => trivial
  | .cons _ type rest, covered => ⟨covers_applied covered2 type covered.1, coversArgs_applied covered2 rest covered.2⟩

end

theorem canonical_class : (d : TypeData) → Canonical u d → Canonical u (monoClassFromMonoType u d)
  | .simple _, canonical | .named _, canonical | .array _ _, canonical | .var _, canonical | .mvar _, canonical =>
    canonical
  | .ptr _ type, canonical => canonical_class type canonical
  | .genericinst container args, canonical => by
      rw [monoClassFromMonoType]
      split
      · trivial
      · exact canonical

mutual

theorem canonical_applied (canonical1 : ForInsts c1 (CanonicalArgs u)) : (d : TypeData) → Covers u c1 d →
    Canonical u d → Canonical u (applied u c1 d)
  | .simple _, _, _ => trivial
  | .ptr _ _, _, canonical => canonical
  | .var param, covered, _ => (canonicalArgs_pointwise u).argument (.var param) canonical1.1 covered
  | .mvar param, covered, _ => (canonicalArgs_pointwise u).argument (.mvar param) canonical1.2 covered
  | .array _ eclass, covered, canonical =>
    ⟨class_idempotent u _, canonical_class u _ (canonical_applied canonical1 eclass covered canonical.2)⟩
  | .genericinst container args, covered, canonical => by
      rw [applied]
      by_cases open_ : isOpen args = true
      · rw [if_pos open_]
        exact canonicalArgs_applied canonical1 args (covered open_) canonical
      · rw [if_neg open_]
        exact canonical
  | .named klass, covered, _ => by
      rw [applied]
      cases count : u.typeArgc klass with
      | none => trivial
      | some n =>
        simp only
        split
        · trivial
        · exact ((canonicalArgs_pointwise u).tabulate_iff _ 0 n).2 fun i _ lt =>
            (canonicalArgs_pointwise u).argument (.var ⟨klass, i⟩) canonical1.1 (covered n count i (by omega))

theorem canonicalArgs_applied (canonical1 : ForInsts c1 (CanonicalArgs u)) : (args : TypeArgs) →
    CoversArgs u c1 args → CanonicalArgs u args → CanonicalArgs u (appliedArgs u c1 args)
  | .nil, _, _ => trivial
  | .cons _ type rest, covered, canonical =>
    ⟨canonical_applied canonical1 type covered.1 canonical.1,
      canonicalArgs_applied canonical1 rest covered.2 canonical.2⟩

end

theorem inflateInst_eq {inst : Option TypeArgs} (canonical : ∀ args, inst = some args → CanonicalArgs u args)
    (covered : ∀ args, inst = some args → CoversArgs u c2 args) :
    inflateInst u inst c2 = .ok (composedInst u c2 inst) := by
  cases inst with
  | none => rfl
  | some args =>
    unfold inflateInst monoMetadataInflateGenericInst composedInst
    by_cases open_ : isOpen args = true
    · simp [open_, inflateArgs_eq u args (covered args rfl) (canonical args rfl)]
    · simp [open_]

/-- Without errors the composed context is what `inflate_generic_context` returns. -/
theorem inflateGenericContext_eq (canonical1 : ForInsts c1 (CanonicalArgs u))
    (covered2 : ForInsts c1 (CoversArgs u c2)) : inflateGenericContext u c1 c2 = .ok (composed u c1 c2) := by
  unfold inflateGenericContext
  rw [inflateInst_eq u canonical1.1 covered2.1, inflateInst_eq u canonical1.2 covered2.2]
  rfl

theorem hasArgument_composed {inst : Option TypeArgs} {num : Nat} (has : HasArgument inst num) :
    HasArgument (composedInst u c2 inst) num := by
  obtain ⟨args, rfl, inside⟩ := has
  refine ⟨if isOpen args then appliedArgs u c2 args else args, rfl, ?_⟩
  split
  · rwa [length_appliedArgs]
  · exact inside

mutual

theorem covers_composed : (d : TypeData) → Covers u c1 d → Covers u (composed u c1 c2) d
  | .simple _, _ | .ptr _ _, _ => trivial
  | .var _, covered | .mvar _, covered => hasArgument_composed u covered
  | .array _ eclass, covered => covers_composed eclass covered
  | .genericinst _ args, covered => fun open_ => coversArgs_composed args (covered open_)
  | .named _, covered => fun n count i lt => hasArgument_composed u (covered n count i lt)

theorem coversArgs_composed : (args : TypeArgs) → CoversArgs u c1 args → CoversArgs u (composed u c1 c2) args
  | .nil, _ => trivial
  | .cons _ type rest, covered => ⟨covers_composed type covered.1, coversArgs_composed rest covered.2⟩

end

end Second

/-! ### Closed contexts -/

section Closed

variable {c : MonoGenericContext}

theorem open_of_class : (d : TypeData) →
    monoClassIsOpenConstructedType (monoClassFromMonoType u d) = true → monoClassIsOpenConstructedType d = true
  | .simple _, open_ | .named _, open_ | .array _ _, open_ | .var _, open_ | .mvar _, open_ => open_
  | .ptr _ type, open_ => open_of_class type open_
  | .genericinst container args, open_ => by
      rw [monoClassFromMonoType] at open_
      split at open_
      · cases open_
      · exact open_

mutual

theorem PointsToOpen.isOpen : (d : TypeData) → PointsToOpen d → monoClassIsOpenConstructedType d = true
  | .ptr _ _, points => points
  | .array _ eclass, points => PointsToOpen.isOpen eclass points
  | .genericinst _ args, points => ArgsPointToOpen.isOpen args points

theorem ArgsPointToOpen.isOpen : (args : TypeArgs) → ArgsPointToOpen args → GenericTypes.isOpen args = true
  | .cons _ type rest, points => by
      rw [GenericTypes.isOpen, Bool.or_eq_true]
      rcases points with head | tail
      · exact .inl (PointsToOpen.isOpen type head)
      · exact .inr (ArgsPointToOpen.isOpen rest tail)

end

theorem not_becomes {param : GenericParam} {d : TypeData} (closed : ForInsts c (fun args => isOpen args = false))
    (covered : Covers u c d) : ¬ Becomes c param d := by
  intro becomes
  cases d with
  | var q =>
    have := closed_pointwise.argument (.var q) closed.1 covered
    rw [becomes] at this
    cases this
  | mvar q =>
    have := closed_pointwise.argument (.mvar q) closed.2 covered
    rw [becomes] at this
    cases this
  | simple type | named klass | array shape eclass | ptr byref type | genericinst container args => exact becomes

theorem not_openAs_argument {asClass : Bool} {inst : Option TypeArgs} {num : Nat} (self : TypeData)
    (closed : ∀ args, inst = some args → isOpen args = false)
    (has : HasArgument inst num) : ¬ OpenAs u asClass (argument inst num self) := by
  intro open_
  have closedArgument := closed_pointwise.argument self closed has
  unfold OpenAs at open_
  split at open_
  · rw [open_of_class u _ open_] at closedArgument
    cases closedArgument
  · rw [open_] at closedArgument
    cases closedArgument

mutual

theorem staysOpen_iff (closed : ForInsts c (fun args => isOpen args = false)) : (asClass : Bool) → (d : TypeData) →
    Covers u c d → (StaysOpen u c asClass d ↔ PointsToOpen d)
  | _, .simple _, _ | _, .ptr _ _, _ => Iff.rfl
  | _, .var param, covered => iff_of_false (not_openAs_argument u (.var param) closed.1 covered) id
  | _, .mvar param, covered => iff_of_false (not_openAs_argument u (.mvar param) closed.2 covered) id
  | _, .array _ eclass, covered => staysOpen_iff closed true eclass covered
  | asClass, .genericinst container args, covered => by
      constructor
      · rintro ⟨open_, stay, _⟩
        exact (stayOpenArgs_iff closed args (covered open_)).1 stay
      · intro points
        have open_ := ArgsPointToOpen.isOpen args points
        refine ⟨open_, (stayOpenArgs_iff closed args (covered open_)).2 points, ?_⟩
        intro _ _ _ own
        cases args with
        | nil => cases open_
        | cons byref type rest => exact not_becomes u closed (covered open_).1 own.2.1
  | _, .named klass, covered => by
      refine iff_of_false ?_ id
      rintro ⟨n, count, _, i, lt, open_⟩
      have closedArgument := closed_pointwise.argument (.var ⟨klass, i⟩) closed.1 (covered n count i lt)
      rw [ownArgument, closedArgument] at open_
      cases open_

theorem stayOpenArgs_iff (closed : ForInsts c (fun args => isOpen args = false)) : (args : TypeArgs) →
    CoversArgs u c args → (StayOpenArgs u c args ↔ ArgsPointToOpen args)
  | .nil, _ => Iff.rfl
  | .cons _ type rest, covered =>
    or_congr (staysOpen_iff closed false type covered.1) (stayOpenArgs_iff closed rest covered.2)

end

end Closed

/-! ### The laws -/

mutual

theorem dataEqual_iff : (d1 d2 : TypeData) → (dataEqual d1 d2 = true ↔ d1 = d2)
  | .simple t1, d2 | .named k1, d2 | .array shape eclass, d2 => by cases d2 <;> simp [dataEqual]
  | .ptr byref type, d2 => by cases d2 <;> simp [dataEqual, dataEqual_iff type]
  | .genericinst container args, d2 => by cases d2 <;> simp [dataEqual, instEqual_iff args]
  | .var ⟨owner, num⟩, d2 => by
      cases d2 with
      | var p2 =>
        obtain ⟨owner2, num2⟩ := p2
        simp [dataEqual, and_comm]
      | _ => simp [dataEqual]
  | .mvar ⟨owner, num⟩, d2 => by
      cases d2 with
      | mvar p2 =>
        obtain ⟨owner2, num2⟩ := p2
        simp [dataEqual, and_comm]
      | _ => simp [dataEqual]

theorem instEqual_iff : (args1 args2 : TypeArgs) → (instEqual args1 args2 = true ↔ args1 = args2)
  | .nil, args2 => by cases args2 <;> simp [instEqual]
  | .cons byref type rest, args2 => by
      cases args2 with
      | nil => simp [instEqual]
      | cons byref2 type2 rest2 => simp [instEqual, dataEqual_iff type, instEqual_iff rest, and_assoc]

end

theorem monoMetadataTypeEqual_iff (t1 t2 : MonoType) :
    monoMetadataTypeEqual t1 t2 = true ↔ t1.byref = t2.byref ∧ t1.data = t2.data := by
  simp [monoMetadataTypeEqual, dataEqual_iff]

theorem monoClassInflateGenericTypeChecked_eq (t : MonoType) (covered : Covers u c t.data)
    (canonical : Canonical u t.data) :
    monoClassInflateGenericTypeChecked u t (some c) = .ok { t with data := applied u c t.data } := by
  obtain ⟨r, done, result⟩ := inflateGenericType_eq u t.data covered canonical
  simp only [monoClassInflateGenericTypeChecked, done]
  cases r with
  | none =>
    have same : t.data = applied u c t.data := result
    rw [← same]
  | some inflated =>
    have same : inflated = applied u c t.data := result
    rw [same]

/-- Inflation is a substitution for a type and two contexts exactly when the two ways agree wherever the second context
acts, no pointer keeps the type open under closed arguments, and nothing is moved in a type that counts as closed. -/
theorem inflationLaws_iff (t : MonoType) (c1 c2 : MonoGenericContext)
    (canonical : Canonical u t.data)
    (canonical1 : ForInsts c1 (CanonicalArgs u))
    (covered1 : Covers u c1 t.data)
    (covered2 : ForInsts c1 (CoversArgs u c2)) :
    InflationLaws u t c1 c2 ↔ KeepsLaws u t.data c1 c2 := by
  have first := monoClassInflateGenericTypeChecked_eq u t covered1 canonical
  have second := monoClassInflateGenericTypeChecked_eq u { t with data := applied u c1 t.data }
    (covers_applied u covered2 t.data covered1) (canonical_applied u canonical1 t.data covered1 canonical)
  have context := inflateGenericContext_eq u canonical1 covered2
  have coversBoth : Covers u (composed u c1 c2) t.data := covers_composed u t.data covered1
  have both := monoClassInflateGenericTypeChecked_eq u t coversBoth canonical
  have ways : Same u false (appliedIf u True c2 (applied u c1 t.data)) (applied u (composed u c1 c2) t.data) ↔
      Agrees u c1 c2 false True t.data := twice_iff u canonical1 false True t.data covered1 canonical
  have agree : applied u c2 (applied u c1 t.data) = applied u (composed u c1 c2) t.data ↔
      Agrees u c1 c2 false True t.data := by
    rw [← ways]
    simp [Same, appliedIf]
  have openIff : monoClassIsOpenConstructedType (applied u c1 t.data) = true ↔ StaysOpen u c1 false t.data :=
    openAs_applied u false t.data canonical (fun absurd => nomatch absurd)
  have moved := applied_eq_iff u (c := c1) t.data canonical
  constructor
  · intro laws
    refine ⟨?_, ?_, ?_⟩
    · obtain ⟨t1, t2, c, t', h1, h2, h3, h4, equal⟩ := laws.composes
      rw [first] at h1
      cases h1
      rw [second] at h2
      cases h2
      rw [context] at h3
      cases h3
      rw [both] at h4
      cases h4
      exact agree.1 ((monoMetadataTypeEqual_iff _ _).1 equal).2
    · intro closed points
      obtain ⟨t1, h1, closedResult⟩ := laws.closes closed
      rw [first] at h1
      cases h1
      have stays := openIff.2 ((staysOpen_iff u closed false t.data covered1).2 points)
      rw [stays] at closedResult
      cases closedResult
    · intro closedType
      obtain ⟨t1, h1, equal⟩ := laws.closed closedType
      rw [first] at h1
      cases h1
      exact moved.1 ((monoMetadataTypeEqual_iff _ _).1 equal).2
  · intro keeps
    refine ⟨?_, ?_, ?_, ?_⟩
    · exact ⟨_, _, _, _, first, second, context, both,
        (monoMetadataTypeEqual_iff _ _).2 ⟨rfl, agree.2 keeps.agrees⟩⟩
    · intro closed
      refine ⟨_, first, ?_⟩
      have staysClosed := (not_congr (openIff.trans (staysOpen_iff u closed false t.data covered1))).2
        (keeps.noPointer closed)
      simpa using staysClosed
    · intro closedType
      exact ⟨_, first, (monoMetadataTypeEqual_iff _ _).2 ⟨rfl, moved.2 (keeps.unmoved closedType)⟩⟩
    · exact ⟨_, first, rfl, rfl⟩

end Laws

/-! ### Two generic classes -/

section Sample

/-- The definitions 1 and 2 have one parameter each. -/
def sampleDefinitions : Definitions :=
  ⟨fun klass => if klass = 1 ∨ klass = 2 then some 1 else none, fun _ => false⟩

/-- A class context with one argument. -/
def oneArgument (type : TypeData) : MonoGenericContext :=
  ⟨some (.cons false type .nil), none⟩

/-- The definition 1 over arrays of its parameter. -/
def sampleType : MonoType :=
  ⟨false, 0, .genericinst 1 (.cons false (.array .szarray (.var ⟨1, 0⟩)) .nil)⟩

theorem forInsts_oneArgument {type : TypeData} {p : TypeArgs → Prop} (holds : p (.cons false type .nil)) :
    ForInsts (oneArgument type) p := by
  constructor
  · intro args same
    cases same
    exact holds
  · intro args absurd
    cases absurd

/-- A class with a parameter of another definition, and then an integer for it. -/
theorem inflationLaws_iff_sample :
    InflationLaws sampleDefinitions sampleType (oneArgument (.genericinst 1 (.cons false (.var ⟨2, 0⟩) .nil)))
      (oneArgument (.simple .i4)) := by
  have hasArgument : ∀ type, HasArgument (oneArgument type).classInst 0 := fun type => ⟨_, rfl, Nat.zero_lt_one⟩
  have canonicalArgument : CanonicalArgs sampleDefinitions
      (.cons false (.genericinst 1 (.cons false (.var ⟨2, 0⟩) .nil)) .nil) := ⟨⟨trivial, trivial⟩, trivial⟩
  have coversArgument : CoversArgs sampleDefinitions (oneArgument (.simple .i4))
      (.cons false (.genericinst 1 (.cons false (.var ⟨2, 0⟩) .nil)) .nil) :=
    ⟨fun _ => ⟨hasArgument _, trivial⟩, trivial⟩
  refine (inflationLaws_iff sampleDefinitions sampleType _ _ ⟨⟨rfl, trivial⟩, trivial⟩
    (forInsts_oneArgument canonicalArgument) (fun _ => ⟨hasArgument _, trivial⟩)
    (forInsts_oneArgument coversArgument)).2 ⟨?_, ?_, ?_⟩
  · intro _
    refine ⟨fun _ => ?_, trivial⟩
    exact iff_of_true ⟨trivial, .inl rfl⟩ ⟨_, rfl, rfl⟩
  · intro _ points
    rcases points with absurd | absurd
    · exact absurd
    · exact absurd
  · intro absurd
    cases absurd

/-- A pointer to a parameter stays open. An instance of the definition 2 over its own parameter becomes that definition
as the element of an array, which hides the parameter from the second inflation. -/
theorem inflation_loses_arguments :
    ¬ InflationLaws sampleDefinitions ⟨false, 0, .ptr false (.var ⟨1, 0⟩)⟩ (oneArgument (.simple .i4))
        (oneArgument (.simple .i4)) ∧
      ¬ InflationLaws sampleDefinitions sampleType (oneArgument (.genericinst 2 (.cons false (.var ⟨2, 0⟩) .nil)))
        (oneArgument (.simple .i4)) := by
  constructor
  · intro laws
    obtain ⟨t1, done, closed⟩ := laws.closes (forInsts_oneArgument rfl)
    have result : (Except.ok ⟨false, 0, .ptr false (.var ⟨1, 0⟩)⟩ : Except BadImage MonoType) = .ok t1 := done
    cases result
    cases closed
  · intro laws
    obtain ⟨t1, t2, c, t', h1, h2, h3, h4, equal⟩ := laws.composes
    have r1 : (Except.ok ⟨false, 0, .genericinst 1 (.cons false (.array .szarray (.named 2)) .nil)⟩ :
        Except BadImage MonoType) = .ok t1 := h1
    cases r1
    have r2 : (Except.ok ⟨false, 0, .genericinst 1 (.cons false (.array .szarray (.named 2)) .nil)⟩ :
        Except BadImage MonoType) = .ok t2 := h2
    cases r2
    have r3 : (Except.ok (oneArgument (.genericinst 2 (.cons false (.simple .i4) .nil))) :
        Except BadImage MonoGenericContext) = .ok c := h3
    cases r3
    have r4 : (Except.ok ⟨false, 0, .genericinst 1
        (.cons false (.array .szarray (.genericinst 2 (.cons false (.simple .i4) .nil))) .nil)⟩ :
        Except BadImage MonoType) = .ok t' := h4
    cases r4
    cases equal

end Sample

end MonoRuntime.GenericTypes
