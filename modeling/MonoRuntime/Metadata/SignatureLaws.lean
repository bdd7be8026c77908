/-
Module: MonoRuntime.Metadata.SignatureLaws
Purpose: What a signature must be so that the blob that is written for it is read back as an equal signature, and what
  its types become when they are read back.
Trusted boundary: human-reviewed specification
Main exports: parsedData
-/
import MonoRuntime.Metadata.SignatureBlob

namespace MonoRuntime.MethodSignature

variable (classes : Classes) (tokens : Tokens) (image : ImageId) (container : Option MonoGenericContainer)

/-! ### Types of the runtime -/

mutual

/-- The type is the `byval_arg` of a class: an instance over the own parameters is the definition, and no class has
`byref`. -/
def IsClass : TypeData → Prop
  | .szarray eclass => IsClass eclass
  | .array _ eclass => IsClass eclass
  | .ptr byref type => byref = false ∧ IsClass type
  | .genericinst isDynamic klass args => isDefinition classes isDynamic klass args = false ∧ AreTypes args
  | .simple _ => True
  | .named _ => True
  | .var _ => True
  | .mvar _ => True

/-- The type is one of a signature: no named class is the definition of a generic class, except as an element. -/
def IsType : TypeData → Prop
  | .named klass => classes.genericContainer klass = none
  | .szarray eclass => IsClass eclass
  | .array _ eclass => IsClass eclass
  | .ptr _ type => IsType type
  | .genericinst _ _ args => AreTypes args
  | .simple _ => True
  | .var _ => True
  | .mvar _ => True

/-- The arguments of an instance are types. -/
def AreTypes : TypeArgs → Prop
  | .nil => True
  | .cons _ type rest => IsType type ∧ AreTypes rest

end

/-! ### What is read back -/

/-- The token of a class fits into a compressed value, and it is resolved to the class. -/
def Listed (klass : ClassId) : Prop :=
  (tokens.typedefOrRef klass).toNat < 2 ^ 29 ∧
    ∃ token, monoMetadataTokenFromDor (tokens.typedefOrRef klass) = some token ∧
      tokens.monoClassGet token = some klass

/-- The container has a parameter of the number, or there is no container and one is made up. -/
def Found (isMvar : Bool) (param : GenericParam) : Prop :=
  findParam image container isMvar param.num.toNat ≠ none

/-- The parameter that is read for a parameter. -/
def foundParam (isMvar : Bool) (param : GenericParam) : GenericParam :=
  (findParam image container isMvar param.num.toNat).getD param

mutual

/-- The classes of the type are listed, its generic parameters are found, and the counts have their widths. -/
def Readable : TypeData → Prop
  | .simple _ => True
  | .named klass =>
      Listed tokens klass ∧ ∀ own, classes.genericContainer klass = some own →
        own.typeArgc < 2 ^ 22 ∧ ∀ i < own.typeArgc, Found image container false (own.getParam i)
  | .szarray eclass => Readable eclass
  | .array _ eclass => Readable eclass
  | .ptr _ type => Readable type
  | .genericinst _ klass args =>
      Listed tokens klass ∧ classes.genericContainer klass ≠ none ∧ args.length < 2 ^ 22 ∧ ReadableArgs args
  | .var param => Found image container false param
  | .mvar param => Found image container true param

/-- The arguments of an instance are readable. -/
def ReadableArgs : TypeArgs → Prop
  | .nil => True
  | .cons _ type rest => Readable type ∧ ReadableArgs rest

end

/-- The parameters that are read for those of a generic class from `first` on, as arguments. -/
def parsedOwn (own : MonoGenericContainer) : Nat → Nat → TypeArgs
  | _, 0 => .nil
  | first, count + 1 =>
      .cons false (.var (foundParam image container false (own.getParam first))) (parsedOwn own (first + 1) count)

mutual

/-- What is read for the data of a type. -/
def parsedData : TypeData → TypeData
  | .simple type => .simple type
  | .named klass =>
      match classes.genericContainer klass with
      | none => .named klass
      | some own => .genericinst false klass (parsedOwn image container own 0 own.typeArgc)
  | .szarray eclass => .szarray (monoClassFromMonoType classes (parsedData eclass))
  | .array rank eclass => .array rank (monoClassFromMonoType classes (parsedData eclass))
  | .ptr byref type => .ptr byref (parsedData type)
  | .genericinst _ klass args => .genericinst false klass (parsedArgs args)
  | .var param => .var (foundParam image container false param)
  | .mvar param => .mvar (foundParam image container true param)

/-- What is read for arguments. -/
def parsedArgs : TypeArgs → TypeArgs
  | .nil => .nil
  | .cons byref type rest => .cons byref (parsedData type) (parsedArgs rest)

end

/-- What is read for a type: modifiers and attributes are not written. -/
def parsedType (optAttrs : BitVec 16) (type : MonoType) : MonoType :=
  ⟨optAttrs, false, type.byref, [], parsedData classes image container type.data⟩

variable (methodDef : Nat) (paramAttrs : Nat → BitVec 16)

/-- What is read for the parameters from the one at `i` on. -/
def parsedParams : Nat → List MonoType → List MonoType
  | _, [] => []
  | i, type :: params => parsedType classes image container (paramAttrs (i + 1)) type :: parsedParams (i + 1) params

/-- The sentinel that is read among `count` parameters from the one at `i` on. -/
def parsedSentinel (sentinelpos : BitVec 16) (i count : Nat) (before : BitVec 16) : BitVec 16 :=
  if (i : Int) ≤ sentinelpos.toInt ∧ sentinelpos.toInt < (i + count : Nat) then sentinelpos else before

/-- What is read for a signature with a result. -/
def parsedSignature (sig : MonoMethodSignature) (ret : MonoType) : MonoMethodSignature :=
  let ret := parsedType classes image container (paramAttrs 0) ret
  let params := parsedParams classes image container paramAttrs 0 sig.params
  { hasthis := sig.hasthis
    explicitThis := false
    callConvention := sig.callConvention
    sentinelpos := finalSentinelpos methodDef sig.callConvention (BitVec.ofNat 16 sig.params.length)
      (parsedSentinel sig.sentinelpos 0 sig.params.length (-1))
    genericParamCount := sig.genericParamCount
    hasTypeParameters := (ret :: params).any fun type => monoClassIsOpenConstructedType type.data
    ret := some ret
    params := params }

/-! ### What stays equal -/

/-- The container has the parameter itself. -/
def Kept (isMvar : Bool) (param : GenericParam) : Prop :=
  param.owner ≠ none ∧ findParam image container isMvar param.num.toNat = some param

mutual

/-- Each generic parameter of the type is kept, and those of the definitions that are elements in it. -/
def AllKept : TypeData → Prop
  | .simple _ => True
  | .named klass => ∀ own, classes.genericContainer klass = some own → ∀ i < own.typeArgc,
      Kept image container false (own.getParam i)
  | .szarray eclass => AllKept eclass
  | .array _ eclass => AllKept eclass
  | .ptr _ type => AllKept type
  | .genericinst isDynamic _ args => isDynamic = false ∧ AllKeptArgs args
  | .var param => Kept image container false param
  | .mvar param => Kept image container true param

/-- The same for arguments. -/
def AllKeptArgs : TypeArgs → Prop
  | .nil => True
  | .cons _ type rest => AllKept type ∧ AllKeptArgs rest

end

mutual

/-- The comparison of a type with what is read for it looks through the type: no instance is one of a type builder, and
where it compares the elements of arrays as pointers, the parameters are kept. -/
def Comparable : TypeData → Prop
  | .szarray eclass => ElementComparable eclass
  | .array _ eclass => ElementComparable eclass
  | .ptr _ type => Comparable type
  | .genericinst isDynamic _ args => isDynamic = false ∧ ComparableArgs args
  | .simple _ => True
  | .named _ => True
  | .var _ => True
  | .mvar _ => True

/-- The same for the element of an array: a class that is an array or a pointer is compared as a pointer, and an
instance must not be read as the definition of its class. -/
def ElementComparable : TypeData → Prop
  | .szarray eclass => ElementComparable eclass
  | .array rank eclass => AllKept classes image container (.array rank eclass)
  | .ptr byref type => AllKept classes image container (.ptr byref type)
  | .named klass => AllKept classes image container (.named klass)
  | .genericinst isDynamic klass args =>
      isDynamic = false ∧ isDefinition classes false klass (parsedArgs classes image container args) = false ∧
        ComparableArgs args
  | .simple _ => True
  | .var _ => True
  | .mvar _ => True

/-- The same for arguments. -/
def ComparableArgs : TypeArgs → Prop
  | .nil => True
  | .cons _ type rest => Comparable type ∧ ComparableArgs rest

end

/-! ### Signatures -/

/-- A type of a signature that is read back as an equal one. -/
structure TypeReadable (type : MonoType) : Prop where
  isType : IsType classes type.data
  readable : Readable classes tokens image container type.data
  comparable : Comparable classes image container type.data

/-- A signature that is read back as an equal one, with the index of the method definition that it is read for: the
sentinel stands in a signature with variable arguments that is not that of a definition. -/
structure SignatureReadable (sig : MonoMethodSignature) : Prop where
  ret : ∃ ret, sig.ret = some ret ∧ TypeReadable classes tokens image container ret
  params : ∀ type ∈ sig.params, TypeReadable classes tokens image container type
  paramCount : sig.params.length < 2 ^ 16
  genericParamCount : sig.genericParamCount.toNat < 2 ^ 29
  callConvention : sig.callConvention.toNat < 0x10
  hasResult : sig.callConvention ≠ callGenericInst
  sentinel : 0 ≤ sig.sentinelpos.toInt → sig.sentinelpos.toInt < sig.params.length →
    sig.callConvention = monoCallVararg ∧ methodDef = 0

/-- What is read for the blob that is written for a signature. -/
def writeAndRead (sig : MonoMethodSignature) : Option MonoMethodSignature := do
  let blob ← methodEncodeSignature classes tokens sig
  let result ← monoMetadataParseMethodSignatureFull classes tokens image methodDef paramAttrs container blob
  pure result.1

end MonoRuntime.MethodSignature
