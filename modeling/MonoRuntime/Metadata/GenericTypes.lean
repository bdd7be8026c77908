/-
Module: MonoRuntime.Metadata.GenericTypes
Purpose: Types over generic parameters and their inflation in `metadata/class.c` and `metadata/metadata.c`. Classes,
  generic instances and generic classes are unique: the caches of the runtime give one pointer to what is equal, so
  that the pointers are modelled by what they point to. A class stands for the type of its `byval_arg`. Below the top
  of a type `attrs` is not modelled: nothing reads it there.
Trusted boundary: human-reviewed translation of the source
Main exports: TypeData
-/
import MonoRuntime.Metadata.TypeEquality

namespace MonoRuntime.GenericTypes

open TypeEquality (SimpleType)

/-! ### Types -/

abbrev ClassId := Nat

/-- A generic parameter: the generic class or method that declares it, and its number. -/
structure GenericParam where
  owner : Nat
  num : Nat
deriving DecidableEq, Repr

/-- `MONO_TYPE_SZARRAY`, or `MONO_TYPE_ARRAY` with a rank. -/
inductive ArrayShape where
  | szarray
  | array (rank : Nat)
deriving DecidableEq, Repr

mutual

/-- The tag of a `MonoType` with its data. A class that is not an array, a pointer, a parameter or an instance is
`named`; the element of an array is a class. -/
inductive TypeData where
  | simple (type : SimpleType)
  | named (klass : ClassId)
  | array (shape : ArrayShape) (eclass : TypeData)
  | ptr (byref : Bool) (type : TypeData)
  | genericinst (container : ClassId) (args : TypeArgs)
  | var (param : GenericParam)
  | mvar (param : GenericParam)
deriving DecidableEq, Repr

/-- `type_argv` of a `MonoGenericInst`: `byref` and the data of each argument. -/
inductive TypeArgs where
  | nil
  | cons (byref : Bool) (type : TypeData) (rest : TypeArgs)
deriving DecidableEq, Repr

end

/-- `MonoType`. -/
structure MonoType where
  byref : Bool
  attrs : Nat
  data : TypeData
deriving DecidableEq, Repr

/-- `type_argc`. -/
def TypeArgs.length : TypeArgs → Nat
  | .nil => 0
  | .cons _ _ rest => rest.length + 1

/-- `type_argv [num]`. -/
def TypeArgs.get? : TypeArgs → Nat → Option TypeData
  | .nil, _ => none
  | .cons _ type _, 0 => some type
  | .cons _ _ rest, num + 1 => rest.get? num

/-- `MonoGenericContext`: each `MonoGenericInst` may be missing. -/
structure MonoGenericContext where
  classInst : Option TypeArgs
  methodInst : Option TypeArgs
deriving DecidableEq, Repr

/-- The generic definitions: `generic_container->type_argc`, and whether the instance over the own parameters is a
class apart from the definition, as `mono_metadata_is_type_builder_generic_type_definition` says of type builders. -/
structure Definitions where
  typeArgc : ClassId → Option Nat
  isTbOpen : ClassId → Bool

/-- The parameters of a definition from `first` on. -/
def ownFrom (klass : ClassId) : Nat → Nat → TypeArgs
  | _, 0 => .nil
  | first, n + 1 => .cons false (.var ⟨klass, first⟩) (ownFrom klass (first + 1) n)

/-- `container->context.class_inst`: a definition with its own parameters as arguments. -/
def ownArgs (klass : ClassId) (n : Nat) : TypeArgs :=
  ownFrom klass 0 n

section Code

variable (u : Definitions)

/-! ### Open types and classes -/

mutual

/-- `mono_class_is_open_constructed_type`. -/
def monoClassIsOpenConstructedType : TypeData → Bool
  | .var _ => true
  | .mvar _ => true
  | .array _ eclass => monoClassIsOpenConstructedType eclass
  | .ptr _ type => monoClassIsOpenConstructedType type
  | .genericinst _ args => isOpen args
  | .simple _ => false
  | .named _ => false

/-- `is_open` of a `MonoGenericInst`, from `mono_metadata_get_generic_inst`. -/
def isOpen : TypeArgs → Bool
  | .nil => false
  | .cons _ type rest => monoClassIsOpenConstructedType type || isOpen rest

end

/-- Whether the class of an instance is the definition itself, `gclass->cached_class = container_class`. -/
def isDefinition (container : ClassId) (args : TypeArgs) : Bool :=
  match u.typeArgc container with
  | none => false
  | some n => args == ownArgs container n && !u.isTbOpen container

/-- `mono_class_from_mono_type`: the class of a type, by its `byval_arg`. -/
def monoClassFromMonoType : TypeData → TypeData
  | .genericinst container args => if isDefinition u container args then .named container else .genericinst container args
  | .ptr _ type => .ptr false (monoClassFromMonoType type)
  | .array shape eclass => .array shape eclass
  | .simple type => .simple type
  | .named klass => .named klass
  | .var param => .var param
  | .mvar param => .mvar param

/-! ### Equality -/

mutual

/-- The comparison of the data in `do_mono_metadata_type_equal`; the classes of elements are compared as pointers. -/
def dataEqual : TypeData → TypeData → Bool
  | .simple t1, .simple t2 => t1 == t2
  | .named k1, .named k2 => k1 == k2
  | .ptr byref1 t1, .ptr byref2 t2 => byref1 == byref2 && dataEqual t1 t2
  | .array shape1 e1, .array shape2 e2 => shape1 == shape2 && decide (e1 = e2)
  | .genericinst k1 args1, .genericinst k2 args2 => k1 == k2 && instEqual args1 args2
  | .var p1, .var p2 => p1.num == p2.num && p1.owner == p2.owner
  | .mvar p1, .mvar p2 => p1.num == p2.num && p1.owner == p2.owner
  | _, _ => false

/-- `mono_generic_inst_equal_full`. -/
def instEqual : TypeArgs → TypeArgs → Bool
  | .nil, .nil => true
  | .cons byref1 t1 rest1, .cons byref2 t2 rest2 => byref1 == byref2 && dataEqual t1 t2 && instEqual rest1 rest2
  | _, _ => false

end

/-- `mono_metadata_type_equal`. -/
def monoMetadataTypeEqual (t1 t2 : MonoType) : Bool :=
  t1.byref == t2.byref && dataEqual t1.data t2.data

/-! ### Inflation -/

/-- The error for a parameter that the context has no argument for. -/
inductive BadImage where
  | cannotBeExpanded
deriving DecidableEq, Repr

/-- The cases `MONO_TYPE_VAR` and `MONO_TYPE_MVAR`; `none` is the result `NULL`. -/
def inflateParam (inst : Option TypeArgs) (num : Nat) : Except BadImage (Option TypeData) :=
  match inst with
  | none => .ok none
  | some args =>
      match args.get? num with
      | none => .error .cannotBeExpanded
      | some type => .ok (some type)

/-- `mono_metadata_inflate_generic_inst` for the parameters of a definition from `first` on. -/
def inflateOwn (context : MonoGenericContext) (klass : ClassId) : Nat → Nat → Except BadImage TypeArgs
  | _, 0 => .ok .nil
  | first, n + 1 =>
      match inflateParam context.classInst first with
      | .error e => .error e
      | .ok inflated =>
          match inflateOwn context klass (first + 1) n with
          | .error e => .error e
          | .ok rest => .ok (.cons false (inflated.getD (.var ⟨klass, first⟩)) rest)

mutual

/-- The data of the result of `inflate_generic_type`, where `none` is the result `NULL`: nothing changes. -/
def inflateGenericType (context : MonoGenericContext) : TypeData → Except BadImage (Option TypeData)
  | .mvar param => inflateParam context.methodInst param.num
  | .var param => inflateParam context.classInst param.num
  | .array shape eclass =>
      match inflateGenericType context eclass with
      | .error e => .error e
      | .ok none => .ok none
      | .ok (some inflated) => .ok (some (.array shape (monoClassFromMonoType u inflated)))
  | .genericinst container args =>
      if isOpen args then
        match inflateArgs context args with
        | .error e => .error e
        | .ok args' => if args' = args then .ok none else .ok (some (.genericinst container args'))
      else .ok none
  | .named klass =>
      match u.typeArgc klass with
      | none => .ok none
      | some n =>
          match inflateOwn context klass 0 n with
          | .error e => .error e
          | .ok args => if args = ownArgs klass n then .ok none else .ok (some (.genericinst klass args))
  | .simple _ => .ok none
  | .ptr _ _ => .ok none

/-- The loop of `mono_metadata_inflate_generic_inst`. -/
def inflateArgs (context : MonoGenericContext) : TypeArgs → Except BadImage TypeArgs
  | .nil => .ok .nil
  | .cons byref type rest =>
      match inflateGenericType context type with
      | .error e => .error e
      | .ok inflated =>
          match inflateArgs context rest with
          | .error e => .error e
          | .ok rest' => .ok (.cons byref (inflated.getD type) rest')

end

/-- `mono_class_inflate_generic_type_checked`. The result is a copy of the type or of an argument, with `byref` and
`attrs` of the type. -/
def monoClassInflateGenericTypeChecked (t : MonoType) (context : Option MonoGenericContext) :
    Except BadImage MonoType :=
  match context with
  | none => .ok t
  | some context =>
      match inflateGenericType u context t.data with
      | .error e => .error e
      | .ok none => .ok t
      | .ok (some inflated) => .ok { t with data := inflated }

/-- `mono_metadata_inflate_generic_inst`. -/
def monoMetadataInflateGenericInst (ginst : TypeArgs) (context : MonoGenericContext) : Except BadImage TypeArgs :=
  if isOpen ginst then inflateArgs u context ginst else .ok ginst

/-- A `MonoGenericInst` of a context, when it is there. -/
def inflateInst (inst : Option TypeArgs) (inflateWith : MonoGenericContext) : Except BadImage (Option TypeArgs) :=
  match inst with
  | none => .ok none
  | some ginst =>
      match monoMetadataInflateGenericInst u ginst inflateWith with
      | .error e => .error e
      | .ok inflated => .ok (some inflated)

/-- `inflate_generic_context`. -/
def inflateGenericContext (context inflateWith : MonoGenericContext) : Except BadImage MonoGenericContext :=
  match inflateInst u context.classInst inflateWith with
  | .error e => .error e
  | .ok classInst =>
      match inflateInst u context.methodInst inflateWith with
      | .error e => .error e
      | .ok methodInst => .ok ⟨classInst, methodInst⟩

end Code

end MonoRuntime.GenericTypes
