/-
Module: MonoRuntime.Metadata.TypeEquality
Purpose: The equality and the hash of types in `metadata/metadata.c`. A type is a tree whose leaves refer to
  classes, generic classes, generic parameters and signatures on a heap, where a reference is compared as the
  pointer is; a recursion that runs along references takes fuel.
Trusted boundary: human-reviewed translation of the source
Main exports: MonoType
-/
import Mathlib.Algebra.Order.Ring.Int

namespace MonoRuntime.TypeEquality

/-! ### Types -/

abbrev ClassRef := Nat
abbrev GenericClassRef := Nat
abbrev GenericInstRef := Nat
abbrev GenericParamRef := Nat
abbrev SignatureRef := Nat
abbrev ContainerRef := Nat
abbrev ImageRef := Nat

/-- The types without data. -/
inductive SimpleType where
  | void
  | boolean
  | char
  | i1
  | u1
  | i2
  | u2
  | i4
  | u4
  | i8
  | u8
  | r4
  | r8
  | string
  | typedbyref
  | i
  | u
  | object
deriving DecidableEq, Repr

/-- `MonoType`: the flag `byref` and the union for each value of `type`. -/
inductive MonoType where
  | simple (byref : Bool) (type : SimpleType)
  | valuetype (byref : Bool) (klass : ClassRef)
  | klass (byref : Bool) (klass : ClassRef)
  | szarray (byref : Bool) (klass : ClassRef)
  | ptr (byref : Bool) (type : MonoType)
  | array (byref : Bool) (eklass : ClassRef) (rank : Nat)
  | genericinst (byref : Bool) (genericClass : GenericClassRef)
  | var (byref : Bool) (param : GenericParamRef)
  | mvar (byref : Bool) (param : GenericParamRef)
  | fnptr (byref : Bool) (method : SignatureRef)
deriving DecidableEq, Repr

/-- The codes of the types without data. -/
def SimpleType.code : SimpleType → BitVec 32
  | .void => 0x01
  | .boolean => 0x02
  | .char => 0x03
  | .i1 => 0x04
  | .u1 => 0x05
  | .i2 => 0x06
  | .u2 => 0x07
  | .i4 => 0x08
  | .u4 => 0x09
  | .i8 => 0x0a
  | .u8 => 0x0b
  | .r4 => 0x0c
  | .r8 => 0x0d
  | .string => 0x0e
  | .typedbyref => 0x16
  | .i => 0x18
  | .u => 0x19
  | .object => 0x1c

/-- The field `type`. -/
def MonoType.code : MonoType → BitVec 32
  | .simple _ type => type.code
  | .ptr _ _ => 0x0f
  | .valuetype _ _ => 0x11
  | .klass _ _ => 0x12
  | .var _ _ => 0x13
  | .array _ _ _ => 0x14
  | .genericinst _ _ => 0x15
  | .fnptr _ _ => 0x1b
  | .szarray _ _ => 0x1d
  | .mvar _ _ => 0x1e

/-- The field `byref`. -/
def MonoType.byref : MonoType → Bool
  | .simple byref _ | .valuetype byref _ | .klass byref _ | .szarray byref _ | .ptr byref _
  | .array byref _ _ | .genericinst byref _ | .var byref _ | .mvar byref _ | .fnptr byref _ => byref

/-! ### The heap -/

/-- What a class is: a class of its own, with the simple type or the code that its type has; the definition of a
generic type, with the instantiation over its own parameters; an instance of a generic type; the class of
a generic parameter; or that of an array, a pointer or a function pointer. -/
inductive ClassKind where
  | primitive (type : SimpleType)
  | plain (valuetype : Bool)
  | container (valuetype : Bool) (classInst : GenericInstRef)
  | inflated (genericClass : GenericClassRef)
  | var (param : GenericParamRef)
  | mvar (param : GenericParamRef)
  | szarray (elementClass : ClassRef)
  | array (elementClass : ClassRef) (rank : Nat)
  | ptr (type : MonoType)
  | fnptr (method : SignatureRef)
deriving DecidableEq, Repr

/-- `MonoClass`. -/
structure MonoClass where
  name : List (BitVec 8)
  kind : ClassKind
deriving DecidableEq, Repr

/-- `MonoGenericInst`. -/
structure MonoGenericInst where
  id : Nat
  isOpen : Bool
  typeArgv : List MonoType
deriving DecidableEq, Repr

/-- `MonoGenericContext`. -/
structure MonoGenericContext where
  classInst : GenericInstRef
  methodInst : Option GenericInstRef
deriving DecidableEq, Repr

/-- `MonoGenericClass`. -/
structure MonoGenericClass where
  containerClass : ClassRef
  context : MonoGenericContext
  isDynamic : Bool
  isTbOpen : Bool
deriving DecidableEq, Repr

/-- `MonoGenericParam`. -/
structure MonoGenericParam where
  owner : Option ContainerRef
  image : Option ImageRef
  num : Nat
deriving DecidableEq, Repr

/-- `MonoMethodSignature`; `param_count` is the length of the parameters. -/
structure MonoMethodSignature where
  callConvention : Nat
  sentinelpos : Int
  hasthis : Bool
  explicitThis : Bool
  ret : MonoType
  params : List MonoType
deriving DecidableEq, Repr

/-- The objects behind the references. -/
structure Objects where
  klass : ClassRef → MonoClass
  genericClass : GenericClassRef → MonoGenericClass
  inst : GenericInstRef → MonoGenericInst
  param : GenericParamRef → MonoGenericParam
  signature : SignatureRef → MonoMethodSignature

/-- The field `byval_arg` of a class. -/
def Objects.byvalArg (h : Objects) (c : ClassRef) : MonoType :=
  match (h.klass c).kind with
  | .primitive type => .simple false type
  | .plain true | .container true _ => .valuetype false c
  | .plain false | .container false _ => .klass false c
  | .inflated genericClass => .genericinst false genericClass
  | .var param => .var false param
  | .mvar param => .mvar false param
  | .szarray elementClass => .szarray false elementClass
  | .array elementClass rank => .array false elementClass rank
  | .ptr type => .ptr false type
  | .fnptr method => .fnptr false method

/-- The field `generic_class` of a class. -/
def Objects.genericClassOf (h : Objects) (c : ClassRef) : Option GenericClassRef :=
  match (h.klass c).kind with
  | .inflated genericClass => some genericClass
  | _ => none

/-- The instantiation in the field `generic_container` of a class. -/
def Objects.genericContainerOf (h : Objects) (c : ClassRef) : Option GenericInstRef :=
  match (h.klass c).kind with
  | .container _ classInst => some classInst
  | _ => none

/-! ### Equality -/

/-- `mono_metadata_generic_param_equal`. -/
def monoMetadataGenericParamEqual (h : Objects) (signatureOnly : Bool) (p1 p2 : GenericParamRef) : Bool :=
  if p1 = p2 then true
  else if (h.param p1).num ≠ (h.param p2).num then false
  else if (h.param p1).owner = (h.param p2).owner ∧
      ((h.param p1).owner ≠ none ∨ (h.param p1).image = (h.param p2).image) then true
  else signatureOnly

/-- The loops over two arrays of types of one length. -/
def allEqual (equal : MonoType → MonoType → Bool) : List MonoType → List MonoType → Bool
  | [], [] => true
  | a :: as, b :: bs => if equal a b then allEqual equal as bs else false
  | _, _ => false

mutual

/-- `mono_generic_inst_equal_full`. -/
def monoGenericInstEqualFull (h : Objects) (signatureOnly : Bool) :
    Nat → GenericInstRef → GenericInstRef → Bool
  | 0, _, _ => false
  | fuel + 1, a, b =>
      if (h.inst a).id ≠ 0 ∧ (h.inst b).id ≠ 0 ∧ (h.inst a).id = (h.inst b).id then true
      else if (h.inst a).id ≠ 0 ∧ (h.inst b).id ≠ 0 ∧ signatureOnly = false then false
      else if (h.inst a).isOpen ≠ (h.inst b).isOpen ∨
          (h.inst a).typeArgv.length ≠ (h.inst b).typeArgv.length then false
      else allEqual (fun t1 t2 => doTypeEqual h signatureOnly fuel t1 t2) (h.inst a).typeArgv (h.inst b).typeArgv

/-- `_mono_metadata_generic_class_equal`. -/
def monoMetadataGenericClassEqual (h : Objects) (signatureOnly : Bool) :
    Nat → GenericClassRef → GenericClassRef → Bool
  | 0, _, _ => false
  | fuel + 1, g1, g2 =>
      if (h.genericClass g1).isDynamic ≠ (h.genericClass g2).isDynamic then false
      else if ¬ monoMetadataClassEqual h signatureOnly fuel (h.genericClass g1).containerClass
          (h.genericClass g2).containerClass then false
      else if ¬ monoGenericInstEqualFull h signatureOnly fuel (h.genericClass g1).context.classInst
          (h.genericClass g2).context.classInst then false
      else (h.genericClass g1).isTbOpen == (h.genericClass g2).isTbOpen

/-- `_mono_metadata_generic_class_container_equal`; the instantiation of the container is handed over. -/
def monoMetadataGenericClassContainerEqual (h : Objects) (signatureOnly : Bool) :
    Nat → GenericClassRef → ClassRef → GenericInstRef → Bool
  | 0, _, _, _ => false
  | fuel + 1, g1, c2, i2 =>
      if ¬ monoMetadataClassEqual h signatureOnly fuel (h.genericClass g1).containerClass c2 then false
      else if ¬ monoGenericInstEqualFull h signatureOnly fuel (h.genericClass g1).context.classInst i2 then false
      else !(h.genericClass g1).isTbOpen

/-- `mono_metadata_class_equal`. -/
def monoMetadataClassEqual (h : Objects) (signatureOnly : Bool) : Nat → ClassRef → ClassRef → Bool
  | 0, _, _ => false
  | fuel + 1, c1, c2 =>
      if c1 = c2 then true
      else
        match h.genericClassOf c1, h.genericClassOf c2, h.genericContainerOf c1, h.genericContainerOf c2 with
        | some g1, some g2, _, _ => monoMetadataGenericClassEqual h signatureOnly fuel g1 g2
        | some g1, none, _, some i2 => monoMetadataGenericClassContainerEqual h signatureOnly fuel g1 c2 i2
        | none, some g2, some i1, _ => monoMetadataGenericClassContainerEqual h signatureOnly fuel g2 c1 i1
        | _, _, _, _ =>
            match h.byvalArg c1, h.byvalArg c2 with
            | .var _ p1, .var _ p2 => monoMetadataGenericParamEqual h signatureOnly p1 p2
            | .mvar _ p1, .mvar _ p2 => monoMetadataGenericParamEqual h signatureOnly p1 p2
            | .szarray _ k1, .szarray _ k2 =>
                if signatureOnly then monoMetadataClassEqual h signatureOnly fuel k1 k2 else false
            | _, _ => false

/-- `mono_metadata_fnptr_equal`. -/
def monoMetadataFnptrEqual (h : Objects) (signatureOnly : Bool) : Nat → SignatureRef → SignatureRef → Bool
  | 0, _, _ => false
  | fuel + 1, s1, s2 =>
      if s1 = s2 then true
      else if (h.signature s1).callConvention ≠ (h.signature s2).callConvention then false
      else if (h.signature s1).sentinelpos ≠ (h.signature s2).sentinelpos then false
      else if (h.signature s1).hasthis ≠ (h.signature s2).hasthis then false
      else if (h.signature s1).explicitThis ≠ (h.signature s2).explicitThis then false
      else if ¬ doTypeEqual h signatureOnly fuel (h.signature s1).ret (h.signature s2).ret then false
      else if (h.signature s1).params.length ≠ (h.signature s2).params.length then false
      else allEqual (fun t1 t2 => doTypeEqual h signatureOnly fuel t1 t2)
        (h.signature s1).params (h.signature s2).params

/-- `do_mono_metadata_type_equal`. -/
def doTypeEqual (h : Objects) (signatureOnly : Bool) : Nat → MonoType → MonoType → Bool
  | 0, _, _ => false
  | fuel + 1, t1, t2 =>
      if t1.code ≠ t2.code ∨ t1.byref ≠ t2.byref then false
      else
        match t1, t2 with
        | .simple _ _, .simple _ _ => true
        | .valuetype _ k1, .valuetype _ k2 => monoMetadataClassEqual h signatureOnly fuel k1 k2
        | .klass _ k1, .klass _ k2 => monoMetadataClassEqual h signatureOnly fuel k1 k2
        | .szarray _ k1, .szarray _ k2 => monoMetadataClassEqual h signatureOnly fuel k1 k2
        | .ptr _ t1, .ptr _ t2 => doTypeEqual h signatureOnly fuel t1 t2
        | .array _ k1 rank1, .array _ k2 rank2 =>
            if rank1 ≠ rank2 then false else monoMetadataClassEqual h signatureOnly fuel k1 k2
        | .genericinst _ g1, .genericinst _ g2 => monoMetadataGenericClassEqual h signatureOnly fuel g1 g2
        | .var _ p1, .var _ p2 => monoMetadataGenericParamEqual h signatureOnly p1 p2
        | .mvar _ p1, .mvar _ p2 => monoMetadataGenericParamEqual h signatureOnly p1 p2
        | .fnptr _ s1, .fnptr _ s2 => monoMetadataFnptrEqual h signatureOnly fuel s1 s2
        | _, _ => false

end

/-! ### Hashes -/

/-- The loop of `g_str_hash`: the character behind the one that is looked at is added, up to the null. -/
def gStrHashLoop (hash : BitVec 32) : List (BitVec 8) → BitVec 32
  | [] => hash
  | [_] => (hash <<< 5) - (hash + 0)
  | _ :: c :: chars => gStrHashLoop ((hash <<< 5) - (hash + c.signExtend 32)) (c :: chars)

/-- `g_str_hash`. -/
def gStrHash (s : List (BitVec 8)) : BitVec 32 :=
  gStrHashLoop 0 s

/-- The step `(hash << 5) - hash`. -/
def times31 (hash : BitVec 32) : BitVec 32 :=
  (hash <<< 5) - hash

/-- A flag in a sum or at a place of a word. -/
def flag (b : Bool) : BitVec 32 :=
  if b then 1 else 0

/-- `type` and `byref`. -/
def MonoType.tagHash (t : MonoType) : BitVec 32 :=
  t.code ||| flag t.byref <<< 6

/-- `mono_metadata_generic_context_hash`, by the hash of an instantiation. -/
def genericContextHash (instHash : GenericInstRef → BitVec 32) (context : MonoGenericContext) : BitVec 32 :=
  let hash := times31 0xc01dfee7 ^^^ instHash context.classInst
  match context.methodInst with
  | none => hash
  | some methodInst => times31 hash ^^^ instHash methodInst

mutual

/-- `mono_metadata_type_hash`. -/
def typeHash (h : Objects) : Nat → MonoType → BitVec 32
  | 0, _ => 0
  | fuel + 1, t1 =>
      match t1 with
      | .valuetype _ klass | .klass _ klass | .szarray _ klass =>
          times31 t1.tagHash ^^^ gStrHash (h.klass klass).name
      | .ptr _ type => times31 t1.tagHash ^^^ typeHash h fuel type
      | .array _ eklass _ => times31 t1.tagHash ^^^ typeHash h fuel (h.byvalArg eklass)
      | .genericinst _ genericClass => times31 t1.tagHash ^^^ genericClassHash h fuel genericClass
      | _ => t1.tagHash

/-- `mono_metadata_generic_inst_hash`. -/
def genericInstHash (h : Objects) : Nat → GenericInstRef → BitVec 32
  | 0, _ => 0
  | fuel + 1, ginst =>
      (h.inst ginst).typeArgv.foldl (fun hash type => hash * 13 + typeHash h fuel type) 0
        ^^^ flag (h.inst ginst).isOpen <<< 8

/-- `mono_generic_class_hash`. -/
def genericClassHash (h : Objects) : Nat → GenericClassRef → BitVec 32
  | 0, _ => 0
  | fuel + 1, gclass =>
      typeHash h fuel (h.byvalArg (h.genericClass gclass).containerClass) * 13
        + flag (h.genericClass gclass).isTbOpen
        + genericContextHash (fun ginst => genericInstHash h fuel ginst) (h.genericClass gclass).context

end

/-! ### Trees -/

/-- The ranks of the objects: what an object refers to has a smaller one. -/
structure Ranks where
  klass : ClassRef → Nat
  genericClass : GenericClassRef → Nat
  inst : GenericInstRef → Nat
  signature : SignatureRef → Nat

/-- The rank of a type; the element class of an array has a type of its own. -/
def Ranks.type (rank : Ranks) : MonoType → Nat
  | .simple _ _ | .var _ _ | .mvar _ _ => 0
  | .valuetype _ klass | .klass _ klass | .szarray _ klass => rank.klass klass + 1
  | .ptr _ type => rank.type type + 1
  | .array _ eklass _ => rank.klass eklass + 2
  | .genericinst _ genericClass => rank.genericClass genericClass + 1
  | .fnptr _ method => rank.signature method + 1

/-- What a class refers to has a smaller rank. -/
def Ranks.BelowClass (rank : Ranks) (bound : Nat) : ClassKind → Prop
  | .primitive _ | .plain _ | .var _ | .mvar _ => True
  | .container _ classInst => rank.inst classInst + 1 < bound
  | .inflated genericClass => rank.genericClass genericClass < bound
  | .szarray elementClass | .array elementClass _ => rank.klass elementClass < bound
  | .ptr type => rank.type type < bound
  | .fnptr method => rank.signature method < bound

/-- The name of the class of a vector is that of its elements and brackets. -/
def vectorName (name : List (BitVec 8)) : List (BitVec 8) :=
  name ++ [0x5b, 0x5d]

/-- A heap as the runtime builds it: there are no cycles, a generic class is an instance of the definition of
a generic type and has its name, and an id is given to one instantiation only. -/
structure Heap extends Objects where
  rank : Ranks
  class_below : ∀ c, rank.BelowClass (rank.klass c) (klass c).kind
  container_below : ∀ g, rank.klass (genericClass g).containerClass + 1 < rank.genericClass g
  inst_below : ∀ g, rank.inst (genericClass g).context.classInst < rank.genericClass g
  arg_below : ∀ i, ∀ t ∈ (inst i).typeArgv, rank.type t < rank.inst i
  ret_below : ∀ s, rank.type (signature s).ret < rank.signature s
  param_below : ∀ s, ∀ t ∈ (signature s).params, rank.type t < rank.signature s
  isContainer : ∀ g, ∃ valuetype classInst, (klass (genericClass g).containerClass).kind = .container valuetype classInst
  noMethodInst : ∀ g, (genericClass g).context.methodInst = none
  inflatedName : ∀ c g, (klass c).kind = .inflated g → (klass c).name = (klass (genericClass g).containerClass).name
  szarrayName : ∀ c e, (klass c).kind = .szarray e → (klass c).name = vectorName (klass e).name
  sameId : ∀ i j, (inst i).id ≠ 0 → (inst i).id = (inst j).id → i = j

/-- `do_mono_metadata_type_equal`. -/
def doMonoMetadataTypeEqual (h : Heap) (t1 t2 : MonoType) (signatureOnly : Bool) : Bool :=
  doTypeEqual h.toObjects signatureOnly (h.rank.type t1 + h.rank.type t2 + 1) t1 t2

/-- `mono_metadata_generic_inst_equal` for the mode that is compared in. -/
def monoMetadataGenericInstEqual (h : Heap) (a b : GenericInstRef) (signatureOnly : Bool) : Bool :=
  monoGenericInstEqualFull h.toObjects signatureOnly (h.rank.inst a + h.rank.inst b + 1) a b

/-- `mono_generic_class_equal` for the mode that is compared in. -/
def monoGenericClassEqual (h : Heap) (a b : GenericClassRef) (signatureOnly : Bool) : Bool :=
  monoMetadataGenericClassEqual h.toObjects signatureOnly
    (h.rank.genericClass a + h.rank.genericClass b + 1) a b

/-- `mono_metadata_type_hash`. -/
def monoMetadataTypeHash (h : Heap) (t : MonoType) : BitVec 32 :=
  typeHash h.toObjects (h.rank.type t + 1) t

/-- `mono_metadata_generic_inst_hash`. -/
def monoMetadataGenericInstHash (h : Heap) (i : GenericInstRef) : BitVec 32 :=
  genericInstHash h.toObjects (h.rank.inst i + 1) i

/-- `mono_generic_class_hash`. -/
def monoGenericClassHash (h : Heap) (g : GenericClassRef) : BitVec 32 :=
  genericClassHash h.toObjects (h.rank.genericClass g + 1) g

end MonoRuntime.TypeEquality
