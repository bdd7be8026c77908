/-
Module: MonoRuntime.Metadata.InflationLaws
Purpose: What inflation should do as a substitution, and the inputs on which it does: contexts that cover a type, where
  an argument is moved by a second context, and whether the openness test follows it there.
Trusted boundary: human-reviewed statement of the laws
Main exports: Covers
-/
import MonoRuntime.Metadata.GenericTypes

namespace MonoRuntime.GenericTypes

section Inputs

variable (u : Definitions)

/-! ### Types and contexts -/

/-- An instance has an argument for the parameter. -/
def HasArgument (inst : Option TypeArgs) (num : Nat) : Prop :=
  ∃ args, inst = some args ∧ num < args.length

mutual

/-- The context has an argument for every parameter that inflation comes to, those of a definition included. -/
def Covers (c : MonoGenericContext) : TypeData → Prop
  | .simple _ => True
  | .named klass => ∀ n, u.typeArgc klass = some n → ∀ i, i < n → HasArgument c.classInst i
  | .array _ eclass => Covers c eclass
  | .ptr _ _ => True
  | .genericinst _ args => isOpen args = true → CoversArgs c args
  | .var param => HasArgument c.classInst param.num
  | .mvar param => HasArgument c.methodInst param.num

def CoversArgs (c : MonoGenericContext) : TypeArgs → Prop
  | .nil => True
  | .cons _ type rest => Covers c type ∧ CoversArgs c rest

end

mutual

/-- The elements of arrays are classes. -/
def Canonical : TypeData → Prop
  | .array _ eclass => monoClassFromMonoType u eclass = eclass ∧ Canonical eclass
  | .ptr _ type => Canonical type
  | .genericinst _ args => CanonicalArgs args
  | .simple _ => True
  | .named _ => True
  | .var _ => True
  | .mvar _ => True

def CanonicalArgs : TypeArgs → Prop
  | .nil => True
  | .cons _ type rest => Canonical type ∧ CanonicalArgs rest

end

/-- A property of the argument lists that a context has. -/
def ForInsts (c : MonoGenericContext) (p : TypeArgs → Prop) : Prop :=
  (∀ args, c.classInst = some args → p args) ∧ ∀ args, c.methodInst = some args → p args

/-! ### The laws -/

/-- Inflation as a substitution, for a type and two contexts. -/
structure InflationLaws (t : MonoType) (c1 c2 : MonoGenericContext) : Prop where
  composes : ∃ t1 t2 c t', monoClassInflateGenericTypeChecked u t (some c1) = .ok t1 ∧
    monoClassInflateGenericTypeChecked u t1 (some c2) = .ok t2 ∧
    inflateGenericContext u c1 c2 = .ok c ∧
    monoClassInflateGenericTypeChecked u t (some c) = .ok t' ∧
    monoMetadataTypeEqual t2 t' = true
  closes : ForInsts c1 (fun args => isOpen args = false) →
    ∃ t1, monoClassInflateGenericTypeChecked u t (some c1) = .ok t1 ∧
      monoClassIsOpenConstructedType t1.data = false
  closed : monoClassIsOpenConstructedType t.data = false →
    ∃ t1, monoClassInflateGenericTypeChecked u t (some c1) = .ok t1 ∧ monoMetadataTypeEqual t1 t = true
  topLevel : ∃ t1, monoClassInflateGenericTypeChecked u t (some c1) = .ok t1 ∧ t1.byref = t.byref ∧ t1.attrs = t.attrs

/-! ### Where a context acts -/

/-- The argument for a parameter, which is `self` where there is none. -/
def argument (inst : Option TypeArgs) (num : Nat) (self : TypeData) : TypeData :=
  match inst with
  | none => self
  | some args => (args.get? num).getD self

/-- The argument for a parameter of a definition. -/
def ownArgument (c : MonoGenericContext) (klass : ClassId) (i : Nat) : TypeData :=
  argument c.classInst i (.var ⟨klass, i⟩)

mutual

/-- The context replaces something in the type that inflation reaches: it does not look behind pointers, nor into
instances that do not count as open. -/
def Moves (c : MonoGenericContext) : TypeData → Prop
  | .simple _ => False
  | .ptr _ _ => False
  | .var param => argument c.classInst param.num (.var param) ≠ .var param
  | .mvar param => argument c.methodInst param.num (.mvar param) ≠ .mvar param
  | .array _ eclass => Moves c eclass
  | .genericinst _ args => isOpen args = true ∧ MovesArgs c args
  | .named klass => ∃ n, u.typeArgc klass = some n ∧ ∃ i, i < n ∧ ownArgument c klass i ≠ .var ⟨klass, i⟩

def MovesArgs (c : MonoGenericContext) : TypeArgs → Prop
  | .nil => False
  | .cons _ type rest => Moves c type ∨ MovesArgs c rest

end

/-- A parameter whose argument is the parameter `param` of a class. -/
def Becomes (c : MonoGenericContext) (param : GenericParam) : TypeData → Prop
  | .var q => argument c.classInst q.num (.var q) = .var param
  | .mvar q => argument c.methodInst q.num (.mvar q) = .var param
  | _ => False

/-- Arguments that become the parameters of the definition from `first` on. -/
def BecomeOwn (c : MonoGenericContext) (klass : ClassId) : Nat → TypeArgs → Prop
  | _, .nil => True
  | first, .cons byref type rest =>
      byref = false ∧ Becomes c ⟨klass, first⟩ type ∧ BecomeOwn c klass (first + 1) rest

/-- The type counts as open, or its class does. -/
def OpenAs (asClass : Bool) (type : TypeData) : Prop :=
  monoClassIsOpenConstructedType (if asClass then monoClassFromMonoType u type else type) = true

mutual

/-- The type still counts as open when the context is put in; `asClass` is for the element of an array, where an
instance over the own parameters is the definition, which does not count as open. -/
def StaysOpen (c : MonoGenericContext) : Bool → TypeData → Prop
  | _, .simple _ => False
  | _, .ptr _ type => monoClassIsOpenConstructedType type = true
  | asClass, .var param => OpenAs u asClass (argument c.classInst param.num (.var param))
  | asClass, .mvar param => OpenAs u asClass (argument c.methodInst param.num (.mvar param))
  | _, .array _ eclass => StaysOpen c true eclass
  | asClass, .genericinst container args =>
      isOpen args = true ∧ StayOpenArgs c args ∧
        (asClass = true → u.typeArgc container = some args.length → u.isTbOpen container = false →
          ¬ BecomeOwn c container 0 args)
  | _, .named klass => ∃ n, u.typeArgc klass = some n ∧
      (∃ i, i < n ∧ ownArgument c klass i ≠ .var ⟨klass, i⟩) ∧
      ∃ i, i < n ∧ monoClassIsOpenConstructedType (ownArgument c klass i) = true

def StayOpenArgs (c : MonoGenericContext) : TypeArgs → Prop
  | .nil => False
  | .cons _ type rest => StaysOpen c false type ∨ StayOpenArgs c rest

end

/-! ### Where the two ways agree -/

/-- An argument list that is there and counts as open. -/
def InstOpen (inst : Option TypeArgs) : Prop :=
  ∃ args, inst = some args ∧ isOpen args = true

/-- The second context reaches the argument of a parameter within the first result if and only if it reaches it within
the first context, unless it does nothing to it. `reached` says that every instance around it stays open. -/
def ParamAgrees (c2 : MonoGenericContext) (inst : Option TypeArgs) (num : Nat) (self : TypeData) (reached : Prop) :
    Prop :=
  Moves u c2 (argument inst num self) → (reached ↔ InstOpen inst)

/-- The second context takes the arguments of a definition back to its parameters. -/
def ComesBack (c1 c2 : MonoGenericContext) (klass : ClassId) (n : Nat) : Prop :=
  ∀ i, i < n →
    (InstOpen c1.classInst → Becomes c2 ⟨klass, i⟩ (ownArgument c1 klass i)) ∧
    (¬ InstOpen c1.classInst → ownArgument c1 klass i = .var ⟨klass, i⟩)

mutual

/-- The two ways to inflate a type agree. `asClass` is for the elements of arrays, where an instance over the own
parameters and the definition are one class. -/
def Agrees (c1 c2 : MonoGenericContext) : Bool → Prop → TypeData → Prop
  | _, _, .simple _ => True
  | _, _, .ptr _ _ => True
  | _, reached, .var param => ParamAgrees u c2 c1.classInst param.num (.var param) reached
  | _, reached, .mvar param => ParamAgrees u c2 c1.methodInst param.num (.mvar param) reached
  | _, reached, .array _ eclass => Agrees c1 c2 true reached eclass
  | _, reached, .genericinst _ args =>
      isOpen args = true → AgreeArgs c1 c2 (reached ∧ StayOpenArgs u c1 args) args
  | asClass, reached, .named klass => ∀ n, u.typeArgc klass = some n →
      (∀ i, i < n → ParamAgrees u c2 c1.classInst i (.var ⟨klass, i⟩)
        (reached ∧ ∃ j, j < n ∧ monoClassIsOpenConstructedType (ownArgument c1 klass j) = true)) ∧
      (asClass = false ∨ u.isTbOpen klass = true → ComesBack c1 c2 klass n → ¬ Moves u c1 (.named klass))

def AgreeArgs (c1 c2 : MonoGenericContext) (reached : Prop) : TypeArgs → Prop
  | .nil => True
  | .cons _ type rest => Agrees c1 c2 false reached type ∧ AgreeArgs c1 c2 reached rest

end

mutual

/-- A pointer to an open type stands in the type, where inflation would have to replace something. -/
def PointsToOpen : TypeData → Prop
  | .ptr _ type => monoClassIsOpenConstructedType type = true
  | .array _ eclass => PointsToOpen eclass
  | .genericinst _ args => ArgsPointToOpen args
  | .simple _ => False
  | .named _ => False
  | .var _ => False
  | .mvar _ => False

def ArgsPointToOpen : TypeArgs → Prop
  | .nil => False
  | .cons _ type rest => PointsToOpen type ∨ ArgsPointToOpen rest

end

/-- When inflation is a substitution for the type and the contexts: the two ways agree wherever the second context acts,
closed arguments meet no pointer to an open type, and the first context moves nothing in a type that counts as closed. -/
structure KeepsLaws (t : TypeData) (c1 c2 : MonoGenericContext) : Prop where
  agrees : Agrees u c1 c2 false True t
  noPointer : ForInsts c1 (fun args => isOpen args = false) → ¬ PointsToOpen t
  unmoved : monoClassIsOpenConstructedType t = false → ¬ Moves u c1 t

end Inputs

end MonoRuntime.GenericTypes
