/-
Module: MonoRuntime.Metadata.SignatureTypes
Purpose: The types of method signatures and the comparison of two signatures in `metadata/metadata.c`. Classes, generic
  instances and generic classes are unique: the caches of the runtime give one pointer to what is equal, so that the
  pointers are modelled by what they point to, and a class by the type in its `byval_arg`. A parameter without an owner
  is told apart by its image and number, as the cache of the instances does. Below the top of a type only `byref` is
  modelled, nothing reads `attrs`, `pinned` or modifiers there; the sizes and lower bounds of an array are dropped, for
  nothing compares them. Function pointers are left out.
Trusted boundary: human-reviewed translation of the source
Main exports: TypeData
-/
import MonoRuntime.Metadata.TypeEquality

namespace MonoRuntime.MethodSignature

open TypeEquality (SimpleType)

/-! ### Types -/

abbrev ClassId := Nat
abbrev ContainerId := Nat
abbrev ImageId := Nat

/-- `MonoGenericParam`. -/
structure GenericParam where
  owner : Option ContainerId
  image : Option ImageId
  num : BitVec 16
deriving DecidableEq, Repr

mutual

/-- The tag of a `MonoType` with its data. A class that is not an array, a pointer, a parameter or an instance is
`named`, and its tag says whether it is a value type; the element of an array is a class. -/
inductive TypeData where
  | simple (type : SimpleType)
  | named (klass : ClassId)
  | szarray (eclass : TypeData)
  | array (rank : BitVec 8) (eclass : TypeData)
  | ptr (byref : Bool) (type : TypeData)
  | genericinst (isDynamic : Bool) (container : ClassId) (args : TypeArgs)
  | var (param : GenericParam)
  | mvar (param : GenericParam)
deriving DecidableEq, Repr

/-- `type_argv` of a `MonoGenericInst`: `byref` and the data of each argument. -/
inductive TypeArgs where
  | nil
  | cons (byref : Bool) (type : TypeData) (rest : TypeArgs)
deriving DecidableEq, Repr

end

/-- `type_argc`. -/
def TypeArgs.length : TypeArgs → Nat
  | .nil => 0
  | .cons _ _ rest => rest.length + 1

/-- `MonoCustomMod`. -/
structure MonoCustomMod where
  required : Bool
  token : BitVec 32
deriving DecidableEq, Repr

/-- `MonoType`. -/
structure MonoType where
  attrs : BitVec 16
  pinned : Bool
  byref : Bool
  modifiers : List MonoCustomMod
  data : TypeData
deriving DecidableEq, Repr

/-- `MonoMethodSignature`; `param_count`, a `guint16`, is the length of the parameters. The result is missing in the
signature of a generic method instance. -/
structure MonoMethodSignature where
  hasthis : Bool
  explicitThis : Bool
  callConvention : BitVec 6
  sentinelpos : BitVec 16
  genericParamCount : BitVec 30
  hasTypeParameters : Bool
  ret : Option MonoType
  params : List MonoType
deriving DecidableEq, Repr

/-! ### Classes -/

/-- `MonoGenericContainer`; the parent is that of the class around a generic method. The parameter at an index has the
index as its number. -/
structure MonoGenericContainer where
  id : ContainerId
  isMethod : Bool
  typeArgc : Nat
  parent : Option MonoGenericContainer

/-- `mono_generic_container_get_param`. -/
def MonoGenericContainer.getParam (container : MonoGenericContainer) (index : Nat) : GenericParam :=
  ⟨some container.id, none, BitVec.ofNat 16 index⟩

/-- What the runtime knows of the named classes. -/
structure Classes where
  genericContainer : ClassId → Option MonoGenericContainer
  valuetype : ClassId → Bool
  wastypebuilder : ClassId → Bool

/-- The `count` parameters of a generic class from `first` on, as arguments. -/
def ownFrom (container : MonoGenericContainer) : Nat → Nat → TypeArgs
  | _, 0 => .nil
  | first, count + 1 => .cons false (.var (container.getParam first)) (ownFrom container (first + 1) count)

/-- `context.class_inst` of the container of a generic class, from `mono_get_shared_generic_inst`. -/
def MonoGenericContainer.classInst (container : MonoGenericContainer) : TypeArgs :=
  ownFrom container 0 container.typeArgc

section Code

variable (classes : Classes)

/-- `mono_metadata_is_type_builder_generic_type_definition`, the `is_tb_open` of a generic class. -/
def isTbOpen (isDynamic : Bool) (klass : ClassId) (args : TypeArgs) : Bool :=
  match classes.genericContainer klass with
  | none => false
  | some container => isDynamic && !classes.wastypebuilder klass && decide (args = container.classInst)

/-- Whether `mono_metadata_lookup_generic_class` makes the definition the class of the instance. -/
def isDefinition (isDynamic : Bool) (klass : ClassId) (args : TypeArgs) : Bool :=
  match classes.genericContainer klass with
  | none => false
  | some container => decide (args = container.classInst) && !isTbOpen classes isDynamic klass args

/-- `mono_class_from_mono_type`: the class of a type, by its `byval_arg`. -/
def monoClassFromMonoType : TypeData → TypeData
  | .genericinst isDynamic klass args =>
      if isDefinition classes isDynamic klass args then .named klass else .genericinst isDynamic klass args
  | .ptr _ type => .ptr false (monoClassFromMonoType type)
  | .simple type => .simple type
  | .named klass => .named klass
  | .szarray eclass => .szarray eclass
  | .array rank eclass => .array rank eclass
  | .var param => .var param
  | .mvar param => .mvar param

mutual

/-- `mono_class_is_open_constructed_type`. -/
def monoClassIsOpenConstructedType : TypeData → Bool
  | .var _ => true
  | .mvar _ => true
  | .szarray eclass => monoClassIsOpenConstructedType eclass
  | .array _ eclass => monoClassIsOpenConstructedType eclass
  | .ptr _ type => monoClassIsOpenConstructedType type
  | .genericinst _ _ args => isOpen args
  | .simple _ => false
  | .named _ => false

/-- `is_open` of a `MonoGenericInst`, from `mono_metadata_get_generic_inst`. -/
def isOpen : TypeArgs → Bool
  | .nil => false
  | .cons _ type rest => monoClassIsOpenConstructedType type || isOpen rest

end

/-! ### Equality

The comparison as `mono_metadata_signature_equal` calls it, with `signature_only` set. -/

/-- `mono_metadata_generic_param_equal`: the owners do not matter. -/
def genericParamEqual (p1 p2 : GenericParam) : Bool :=
  p1.num == p2.num

/-- `mono_generic_inst_equal_full` with the instance over the own parameters of a container: an argument is equal to a
parameter where it is one of the same number. -/
def overParams (container : MonoGenericContainer) : Nat → Nat → TypeArgs → Bool
  | _, 0, .nil => true
  | first, count + 1, .cons byref type rest =>
      (match type with
        | .var param => !byref && genericParamEqual param (container.getParam first)
        | _ => false) && overParams container (first + 1) count rest
  | _, _, _ => false

/-- `_mono_metadata_generic_class_container_equal` for a generic class and a class, when that is a definition. -/
def containerEqual (isDynamic : Bool) (klass : ClassId) (args : TypeArgs) (c2 : ClassId) : Bool :=
  match classes.genericContainer c2 with
  | none => false
  | some container =>
      klass == c2 && overParams container 0 container.typeArgc args && !isTbOpen classes isDynamic klass args

/-- `mono_generic_inst_equal_full`, where `equal` is the result of the loop over the arguments; two instances of one id
are the same. -/
def instEqual (args1 args2 : TypeArgs) (equal : Bool) : Bool :=
  decide (args1 = args2) || isOpen args1 == isOpen args2 && equal

/-- `_mono_metadata_generic_class_equal`, where `equal` is the result for the instances. -/
def genericClassEqual (d1 : Bool) (k1 : ClassId) (args1 : TypeArgs) (d2 : Bool) (k2 : ClassId) (args2 : TypeArgs)
    (equal : Bool) : Bool :=
  d1 == d2 && k1 == k2 && equal && isTbOpen classes d1 k1 args1 == isTbOpen classes d2 k2 args2

mutual

/-- The comparison of the data in `do_mono_metadata_type_equal`. -/
def dataEqual : TypeData → TypeData → Bool
  | .simple t1, .simple t2 => t1 == t2
  | .named k1, .named k2 => k1 == k2
  | .szarray e1, .szarray e2 => classEqual e1 e2
  | .array rank1 e1, .array rank2 e2 => rank1 == rank2 && classEqual e1 e2
  | .ptr byref1 t1, .ptr byref2 t2 => byref1 == byref2 && dataEqual t1 t2
  | .genericinst d1 k1 args1, .genericinst d2 k2 args2 =>
      genericClassEqual classes d1 k1 args1 d2 k2 args2 (instEqual args1 args2 (argsEqual args1 args2))
  | .var p1, .var p2 => genericParamEqual p1 p2
  | .mvar p1, .mvar p2 => genericParamEqual p1 p2
  | _, _ => false

/-- `mono_metadata_class_equal`. -/
def classEqual (c1 c2 : TypeData) : Bool :=
  decide (c1 = c2) ||
    match c1, c2 with
    | .genericinst d1 k1 args1, .genericinst d2 k2 args2 =>
        genericClassEqual classes d1 k1 args1 d2 k2 args2 (instEqual args1 args2 (argsEqual args1 args2))
    | .genericinst d1 k1 args1, .named k2 => containerEqual classes d1 k1 args1 k2
    | .named k1, .genericinst d2 k2 args2 => containerEqual classes d2 k2 args2 k1
    | .var p1, .var p2 => genericParamEqual p1 p2
    | .mvar p1, .mvar p2 => genericParamEqual p1 p2
    | .szarray e1, .szarray e2 => classEqual e1 e2
    | _, _ => false

/-- The counts and the arguments of two instances. -/
def argsEqual : TypeArgs → TypeArgs → Bool
  | .nil, .nil => true
  | .cons byref1 t1 rest1, .cons byref2 t2 rest2 => byref1 == byref2 && dataEqual t1 t2 && argsEqual rest1 rest2
  | _, _ => false

end

/-- `do_mono_metadata_type_equal`. -/
def doMonoMetadataTypeEqual (t1 t2 : MonoType) : Bool :=
  t1.byref == t2.byref && dataEqual classes t1.data t2.data

/-- The loop over the parameters. -/
def paramsEqual : List MonoType → List MonoType → Bool
  | [], [] => true
  | p1 :: params1, p2 :: params2 => doMonoMetadataTypeEqual classes p1 p2 && paramsEqual params1 params2
  | _, _ => false

/-- `mono_metadata_signature_equal`; both signatures have a result. -/
def monoMetadataSignatureEqual (sig1 sig2 : MonoMethodSignature) : Bool :=
  sig1.hasthis == sig2.hasthis && sig1.params.length == sig2.params.length &&
    sig1.genericParamCount == sig2.genericParamCount && paramsEqual classes sig1.params sig2.params &&
    match sig1.ret, sig2.ret with
    | some ret1, some ret2 => doMonoMetadataTypeEqual classes ret1 ret2
    | _, _ => false

end Code

end MonoRuntime.MethodSignature
