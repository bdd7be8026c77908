/-
Module: MonoRuntime.Mini.AotRefs
Purpose: References to classes and methods in AOT images: `encode_klass_ref` and `encode_method_ref` of
  `mini/aot-compiler.c` write them, `decode_klass_ref` and `decode_method_ref` of `mini/aot-runtime.c` read them. A
  failed assertion, a store through `NULL`, the end of the bytes and a result `NULL` that makes every caller give up are
  the result `none`. References are read inside references, and the fuel bounds how deep.
Trusted boundary: human-reviewed translation of the source; the runtime has one class or method for its parts
Main exports: MonoImage
-/
import MonoRuntime.Mini.DebugInfo

namespace MonoRuntime.AotRefs

open Reader
open DebugInfo (encodeValue decodeValue)

/-! ### Codes -/

def monoTokenTypeDef : BitVec 32 := 0x02000000
def monoTokenMethodDef : BitVec 32 := 0x06000000
def monoTokenTypeSpec : BitVec 32 := 0x1b000000

/-- `MONO_TABLE_TYPESPEC`. -/
def monoTableTypespec : BitVec 32 := 0x1b

def monoTypeVar : BitVec 32 := 0x13
def monoTypeGenericinst : BitVec 32 := 0x15
def monoTypeMvar : BitVec 32 := 0x1e

def monoAotMethodrefMin : BitVec 32 := 240
def monoAotMethodrefWrapperName : BitVec 32 := 250
def monoAotMethodrefArray : BitVec 32 := 251
def monoAotMethodrefNoAotTrampoline : BitVec 32 := 252
def monoAotMethodrefWrapper : BitVec 32 := 253
def monoAotMethodrefGinst : BitVec 32 := 254
def monoAotMethodrefMethodspec : BitVec 32 := 255

/-- `MAX_IMAGE_INDEX`. -/
def maxImageIndex : BitVec 32 := 250

def monoAotWrapperMonoEnter : BitVec 32 := 0
def monoAotWrapperMonoExit : BitVec 32 := 1
def monoAotWrapperElementAddr : BitVec 32 := 2

/-- `mono_metadata_token_table`. -/
def tokenTable (token : BitVec 32) : BitVec 32 :=
  token >>> 24

/-! ### Classes -/

/-- An image, with a row for each type and for each method that it defines: whether it has a generic container. -/
structure MonoImage where
  name : String
  typeDefs : List Bool
  methods : List Bool
  typeDefsFew : typeDefs.length < 2 ^ 24
  methodsFew : methods.length < 2 ^ 24
deriving DecidableEq

/-- A class that an image defines. -/
structure TypeDef where
  image : MonoImage
  row : Fin image.typeDefs.length
deriving DecidableEq

/-- A method that an image defines. -/
structure MethodDef where
  image : MonoImage
  row : Fin image.methods.length
deriving DecidableEq

/-- The index in the token of a class. -/
def TypeDef.index (d : TypeDef) : BitVec 32 :=
  BitVec.ofNat 32 (d.row + 1)

/-- The index in the token of a method. -/
def MethodDef.index (d : MethodDef) : BitVec 32 :=
  BitVec.ofNat 32 (d.row + 1)

/-- `generic_container` of a class is not `NULL`. -/
def TypeDef.isGeneric (d : TypeDef) : Bool :=
  d.image.typeDefs.get d.row

/-- `mono_method_get_generic_container` is not `NULL`. -/
def MethodDef.isGeneric (d : MethodDef) : Bool :=
  d.image.methods.get d.row

/-- The definition of a generic class. -/
abbrev GenericTypeDef : Type :=
  { d : TypeDef // d.isGeneric = true }

/-- The definition of a generic method. -/
abbrev GenericMethodDef : Type :=
  { d : MethodDef // d.isGeneric = true }

/-- The rank of an array class, and whether it is the one-dimensional class with a lower bound. -/
structure ArrayShape where
  rank : Nat
  bounded : Bool
  positive : 0 < rank
  small : rank ≤ 255
  single : bounded = true → rank = 1
deriving DecidableEq

mutual

/-- The classes that can be referred to. The owner of a type variable is a class, that of a method variable a method. -/
inductive MonoClass where
  | typeDef (d : TypeDef)
  | genericInst (containerClass : GenericTypeDef) (classInst : MonoGenericInst)
  | typeVar (num : BitVec 16) (owner : GenericTypeDef)
  | methodVar (num : BitVec 16) (owner : GenericMethodDef)
  | array (shape : ArrayShape) (elementClass : MonoClass)
deriving DecidableEq

/-- `type_argv` of a generic instance. -/
inductive MonoGenericInst where
  | nil
  | cons (type : MonoClass) (types : MonoGenericInst)
deriving DecidableEq

end

/-- `klass->image`. -/
def MonoClass.image : MonoClass → MonoImage
  | .typeDef d => d.image
  | .genericInst containerClass _ => containerClass.1.image
  | .typeVar _ owner => owner.1.image
  | .methodVar _ owner => owner.1.image
  | .array _ elementClass => elementClass.image

/-- `type_argc`. -/
def MonoGenericInst.typeArgc : MonoGenericInst → Nat
  | .nil => 0
  | .cons _ types => types.typeArgc + 1

/-- `mono_metadata_get_generic_inst`. -/
def MonoGenericInst.ofTypes : List MonoClass → MonoGenericInst
  | [] => .nil
  | type :: types => .cons type (ofTypes types)

/-- `MonoGenericContext`. -/
structure MonoGenericContext where
  classInst : Option MonoGenericInst
  methodInst : Option MonoGenericInst
deriving DecidableEq

/-! ### Methods -/

/-- The wrapper types, in the order of `wrapper-types.h` behind `NONE`. -/
inductive WrapperType where
  | delegateInvoke | delegateBeginInvoke | delegateEndInvoke | runtimeInvoke | nativeToManaged
  | managedToNative | managedToManaged | remotingInvoke | remotingInvokeWithCheck | xdomainInvoke
  | xdomainDispatch | ldfld | stfld | ldfldRemote | stfldRemote | synchronized | dynamicMethod
  | isinst | castclass | proxyIsinst | stelemref | unbox | ldflda | writeBarrier | unknown
  | cominteropInvoke | cominterop | alloc
deriving DecidableEq

def wrapperTypes : List WrapperType :=
  [.delegateInvoke, .delegateBeginInvoke, .delegateEndInvoke, .runtimeInvoke, .nativeToManaged,
    .managedToNative, .managedToManaged, .remotingInvoke, .remotingInvokeWithCheck, .xdomainInvoke,
    .xdomainDispatch, .ldfld, .stfld, .ldfldRemote, .stfldRemote, .synchronized, .dynamicMethod,
    .isinst, .castclass, .proxyIsinst, .stelemref, .unbox, .ldflda, .writeBarrier, .unknown,
    .cominteropInvoke, .cominterop, .alloc]

/-- The value of a wrapper type. -/
def WrapperType.code (type : WrapperType) : BitVec 32 :=
  BitVec.ofNat 32 (wrapperTypes.idxOf type + 1)

/-- The wrapper type of a value. -/
def wrapperOfCode (code : BitVec 32) : Option WrapperType :=
  wrapperTypes.find? fun type => type.code == code

/-- The methods that the runtime provides on an array class. -/
inductive ArrayMethod where
  | ctor (paramCount : Nat)
  | get
  | address
  | set
deriving DecidableEq

/-- An instance of a generic method, or of a method of a generic class. Its class is in the image of the method. -/
structure MonoMethodInflated where
  klass : MonoClass
  declaring : MethodDef
  context : MonoGenericContext
  home : klass.image = declaring.image
deriving DecidableEq

/-- What is recorded with a wrapper that stands for no class and no method. -/
inductive WrapperInfo where
  | nothing
  | allocator (type : BitVec 32)
  | monitorEnter
  | monitorExit
  | elementAddr (rank elemSize : BitVec 32)
deriving DecidableEq

/-- The methods that can be referred to. A named wrapper is one that is encoded by its name. -/
inductive MonoMethod where
  | plain (d : MethodDef)
  | inflated (m : MonoMethodInflated)
  | arrayMethod (shape : ArrayShape) (elementClass : MonoClass) (method : ArrayMethod)
  | wrapperOfMethod (type : WrapperType) (method : MonoMethod)
  | wrapperOfClass (type : WrapperType) (klass : MonoClass)
  | wrapper (type : WrapperType) (info : WrapperInfo)
  | namedWrapper (type : WrapperType) (name : List Byte)
deriving DecidableEq

/-! ### Writing -/

/-- `MonoAotCompile`: `imageTable` is the table that the compilation ends with, `typespecClasses` has the classes of the
rows of the table of type specifications, `tokenInfo` is the table of tokens that the JIT has recorded. A method that has
to go through `mono_magic_trampoline` is generic and virtual, or synchronized. -/
structure MonoAotCompile where
  image : MonoImage
  imageTable : List MonoImage
  typespecClasses : List MonoClass
  tokenInfo : MonoMethod → Option (MonoImage × BitVec 32)
  needsTrampoline : MonoMethod → Bool
  wrapperImage : MonoMethod → MonoImage
  imagesFew : imageTable.length < 2 ^ 31
  typespecsFew : typespecClasses.length < 2 ^ 24

section Writer

variable (acfg : MonoAotCompile)

/-- `get_image_index`. -/
def getImageIndex (image : MonoImage) : Option (BitVec 32) :=
  (acfg.imageTable.idxOf? image).map fun i => BitVec.ofNat 32 i

/-- `find_typespec_for_class`, with nothing for the token zero. -/
def findTypespecForClass (klass : MonoClass) : Option (BitVec 32) :=
  (acfg.typespecClasses.idxOf? klass).map fun i => monoTokenTypeSpec ||| BitVec.ofNat 32 (i + 1)

/-- `encode_klass_ref` for a class that an image defines. -/
def encodeTypeDef (d : TypeDef) : Option (List Byte) := do
  let imageIndex ← getImageIndex acfg d.image
  pure (encodeValue d.index ++ encodeValue imageIndex)

/-- The mark of a method that cannot use an AOT trampoline. -/
def encodeNoAotTrampoline (method : MonoMethod) : List Byte :=
  if acfg.needsTrampoline method then encodeValue (monoAotMethodrefNoAotTrampoline <<< 24) else []

/-- The index of the image of a method that an image defines, which is below the marks. -/
def methodImageIndex (image : MonoImage) : Option (BitVec 32) := do
  let imageIndex ← getImageIndex acfg image
  if imageIndex < monoAotMethodrefMin then pure imageIndex else none

/-- `method->klass->image`. -/
def klassImage (method : MonoMethod) : MonoImage :=
  match method with
  | .plain d => d.image
  | .inflated m => m.klass.image
  | .arrayMethod _ elementClass _ => elementClass.image
  | wrapper => acfg.wrapperImage wrapper

/-- What `encode_method_ref` does for every method: it looks up the index of the image, which is below the marks, and it
puts the mark of a method that needs a trampoline in front of what the kind of the method asks for. -/
def withMark (method : MonoMethod) (kind : Option (List Byte)) : Option (List Byte) := do
  let _ ← methodImageIndex acfg (klassImage acfg method)
  let bytes ← kind
  pure (encodeNoAotTrampoline acfg method ++ bytes)

/-- The image and the token of a method in one value. -/
def encodeToken (d : MethodDef) : Option (List Byte) := do
  let imageIndex ← methodImageIndex acfg d.image
  pure (encodeValue (imageIndex <<< 24 ||| d.index))

/-- `encode_method_ref` for a method that an image defines. -/
def encodeMethodDef (d : MethodDef) : Option (List Byte) :=
  withMark acfg (.plain d) (encodeToken acfg d)

/-- The number of types in front of the types of a generic instance; it is kept in 22 bits, so there are no instances
with more of them. -/
def withTypeArgc (inst : MonoGenericInst) (types : List Byte) : Option (List Byte) :=
  if inst.typeArgc < 2 ^ 22 then some (encodeValue (BitVec.ofNat 32 inst.typeArgc) ++ types) else none

mutual

/-- `encode_klass_ref`. -/
def encodeKlassRef : MonoClass → Option (List Byte)
  | .typeDef d => encodeTypeDef acfg d
  | .genericInst containerClass classInst =>
      match findTypespecForClass acfg (.genericInst containerClass classInst) with
      | some token => do
          let imageIndex ← getImageIndex acfg acfg.image
          pure (encodeValue token ++ encodeValue imageIndex)
      | none => do
          let gclass ← encodeTypeDef acfg containerClass.1
          let types ← encodeTypes classInst
          let inst ← withTypeArgc classInst types
          pure (encodeValue monoTokenTypeSpec ++ (encodeValue monoTypeGenericinst ++ (gclass ++ inst)))
  | .typeVar num owner => do
      let klass ← encodeTypeDef acfg owner.1
      pure (encodeValue monoTokenTypeSpec ++ (encodeValue monoTypeVar ++ (encodeValue (num.setWidth 32) ++
        (encodeValue 0 ++ klass))))
  | .methodVar num owner => do
      let method ← encodeMethodDef acfg owner.1
      pure (encodeValue monoTokenTypeSpec ++ (encodeValue monoTypeMvar ++ (encodeValue (num.setWidth 32) ++
        (encodeValue 1 ++ method))))
  | .array shape elementClass => do
      let imageIndex ← getImageIndex acfg elementClass.image
      let eklass ← encodeKlassRef elementClass
      pure (encodeValue monoTokenTypeDef ++ (encodeValue imageIndex ++
        (encodeValue (BitVec.ofNat 32 shape.rank) ++ eklass)))

/-- The types of a generic instance. -/
def encodeTypes : MonoGenericInst → Option (List Byte)
  | .nil => some []
  | .cons type types => do
      let first ← encodeKlassRef type
      let rest ← encodeTypes types
      pure (first ++ rest)

end

/-- One half of a generic context, with a flag in front. -/
def encodeContextInst : Option MonoGenericInst → Option (List Byte)
  | none => some (encodeValue 0)
  | some inst => do
      let types ← encodeTypes acfg inst
      let bytes ← withTypeArgc inst types
      pure (encodeValue 1 ++ bytes)

/-- `encode_generic_context`. -/
def encodeGenericContext (context : MonoGenericContext) : Option (List Byte) := do
  let classInst ← encodeContextInst acfg context.classInst
  let methodInst ← encodeContextInst acfg context.methodInst
  pure (classInst ++ methodInst)

/-- The index of an image that a token is looked up in. -/
def tokenImageIndex (image : MonoImage) : Option (BitVec 32) := do
  let imageIndex ← getImageIndex acfg image
  if imageIndex < maxImageIndex then pure imageIndex else none

/-- A method whose token the JIT has recorded. -/
def encodeMethodspec (image : MonoImage) (token : BitVec 32) : Option (List Byte) := do
  let imageIndex ← tokenImageIndex acfg image
  pure (encodeValue (monoAotMethodrefMethodspec <<< 24) ++ (encodeValue imageIndex ++ encodeValue token))

/-- A method of a generic instance without a recorded token. -/
def encodeGinst (m : MonoMethodInflated) : Option (List Byte) := do
  let klass ← encodeKlassRef acfg m.klass
  let imageIndex ← tokenImageIndex acfg m.klass.image
  let context ← encodeGenericContext acfg m.context
  pure (encodeValue (monoAotMethodrefGinst <<< 24) ++ (klass ++ (encodeValue imageIndex ++
    (encodeValue (monoTokenMethodDef ||| m.declaring.index) ++ context))))

/-- The number of a method of an array class. -/
def arrayMethodType (shape : ArrayShape) : ArrayMethod → Option (BitVec 32)
  | .ctor paramCount =>
      if paramCount = shape.rank then some 0
      else if paramCount = shape.rank * 2 then some 1
      else none
  | .get => some 2
  | .address => some 3
  | .set => some 4

/-- A method of an array class without a recorded token. -/
def encodeArrayMethod (shape : ArrayShape) (elementClass : MonoClass) (method : ArrayMethod) :
    Option (List Byte) := do
  let klass ← encodeKlassRef acfg (.array shape elementClass)
  let type ← arrayMethodType shape method
  pure (encodeValue (monoAotMethodrefArray <<< 24) ++ (klass ++ encodeValue type))

/-- The mark and the type of a wrapper. -/
def encodeWrapperType (type : WrapperType) (info : List Byte) : List Byte :=
  encodeValue (monoAotMethodrefWrapper <<< 24) ++ (encodeValue type.code ++ info)

/-- The wrapper types that `encode_method_ref` writes with the method that they wrap. -/
def wrapsMethod (type : WrapperType) : Bool :=
  match type with
  | .remotingInvoke => true
  | .remotingInvokeWithCheck => true
  | .xdomainInvoke => true
  | .synchronized => true
  | .managedToNative => true
  | .runtimeInvoke => true
  | _ => false

/-- The wrapper types that `encode_method_ref` writes with a class. -/
def wrapsClass (type : WrapperType) : Bool :=
  match type with
  | .proxyIsinst => true
  | .ldfld => true
  | .ldflda => true
  | .stfld => true
  | .isinst => true
  | _ => false

/-- The wrapper types that `encode_method_ref` writes with nothing. -/
def wrapsNothing (type : WrapperType) : Bool :=
  match type with
  | .ldfldRemote => true
  | .stfldRemote => true
  | .stelemref => true
  | _ => false

/-- The other cases of the `switch` over the wrapper types. -/
def encodeWrapperInfo (type : WrapperType) (info : WrapperInfo) : Option (List Byte) :=
  match info with
  | .nothing => if wrapsNothing type then some [] else none
  | .allocator allocType => if type = .alloc then some (encodeValue allocType) else none
  | .monitorEnter => if type = .unknown then some (encodeValue monoAotWrapperMonoEnter) else none
  | .monitorExit => if type = .unknown then some (encodeValue monoAotWrapperMonoExit) else none
  | .elementAddr rank elemSize =>
      if type = .managedToManaged then
        some (encodeValue monoAotWrapperElementAddr ++ (encodeValue rank ++ encodeValue elemSize))
      else none

/-- A method that is written with its token, if one is recorded, and else in another way. -/
def withTokenInfo (method : MonoMethod) (other : Option (List Byte)) : Option (List Byte) :=
  match acfg.tokenInfo method with
  | some (image, token) => encodeMethodspec acfg image token
  | none => other

/-- `encode_method_ref`. -/
def encodeMethodRef : MonoMethod → Option (List Byte)
  | .plain d => encodeMethodDef acfg d
  | .inflated m => withMark acfg (.inflated m) (withTokenInfo acfg (.inflated m) (encodeGinst acfg m))
  | .arrayMethod shape elementClass method =>
      withMark acfg (.arrayMethod shape elementClass method)
        (withTokenInfo acfg (.arrayMethod shape elementClass method)
          (encodeArrayMethod acfg shape elementClass method))
  | .wrapperOfMethod type wrapped =>
      withMark acfg (.wrapperOfMethod type wrapped)
        (if wrapsMethod type then
          (encodeMethodRef wrapped).map fun bytes => encodeWrapperType type bytes
        else none)
  | .wrapperOfClass type klass =>
      withMark acfg (.wrapperOfClass type klass)
        (if wrapsClass type then
          (encodeKlassRef acfg klass).map fun bytes => encodeWrapperType type bytes
        else none)
  | .wrapper type info =>
      withMark acfg (.wrapper type info)
        ((encodeWrapperInfo type info).map fun bytes => encodeWrapperType type bytes)
  | .namedWrapper type name =>
      withMark acfg (.namedWrapper type name)
        (some (encodeValue (monoAotMethodrefWrapperName <<< 24) ++ (name ++ [0])))

end Writer

/-! ### Reading -/

/-- `MonoAotModule` and what the runtime finds: `load_image` for an index, `mono_class_get` and `mono_get_method` for a
token of an image. -/
structure MonoAotModule where
  loadImage : BitVec 32 → Option MonoImage
  monoClassGet : MonoImage → BitVec 32 → Option MonoClass
  monoGetMethod : MonoImage → BitVec 32 → Option MonoMethod
  corlib : MonoImage

/-- What has to be found. -/
def need {α : Type} (found : Option α) : Reader Byte α :=
  match found with
  | some a => pure a
  | none => fail

/-- What a reference to a method leaves in the result and the output arguments of `decode_method_ref`; the method is
`NULL` where the token is to be looked up. -/
structure MethodRef where
  image : Option MonoImage
  token : BitVec 32
  method : Option MonoMethod
  noAotTrampoline : Bool
deriving DecidableEq

section Reading

variable (amodule : MonoAotModule)

/-- `load_image` for an index that is read. -/
def readImage : Reader Byte MonoImage := do
  let index ← decodeValue
  need (amodule.loadImage index)

/-- `decode_generic_inst`. -/
def decodeGenericInst (klassRef : Reader Byte MonoClass) : Reader Byte MonoGenericInst := do
  let typeArgc ← decodeValue
  if typeArgc.toInt < 0 then fail
  else do
    let types ← many klassRef typeArgc.toNat
    pure (.ofTypes types)

/-- One half of a generic context. -/
def decodeContextInst (klassRef : Reader Byte MonoClass) : Reader Byte (Option MonoGenericInst) := do
  let has ← decodeValue
  if has = 0 then pure none
  else do
    let inst ← decodeGenericInst klassRef
    pure (some inst)

/-- `decode_generic_context`. -/
def decodeGenericContext (klassRef : Reader Byte MonoClass) : Reader Byte MonoGenericContext := do
  let classInst ← decodeContextInst klassRef
  let methodInst ← decodeContextInst klassRef
  pure { classInst := classInst, methodInst := methodInst }

/-- The definition that a generic instance or a type variable is built on, which has to be generic. -/
def genericTypeDef : MonoClass → Option GenericTypeDef
  | .typeDef d => if h : d.isGeneric = true then some ⟨d, h⟩ else none
  | _ => none

/-- The method that owns a method variable, which has to be generic. -/
def genericMethodDef : MonoMethod → Option GenericMethodDef
  | .plain d => if h : d.isGeneric = true then some ⟨d, h⟩ else none
  | _ => none

/-- `mono_array_class_get`. -/
def monoArrayClassGet (eclass : MonoClass) (rank : Nat) : Option MonoClass :=
  if h : 0 < rank ∧ rank ≤ 255 then
    some (.array { rank := rank, bounded := false, positive := h.1, small := h.2, single := nofun } eclass)
  else none

/-- A generic parameter: its number, the kind of its owner and the owner. -/
def decodeParam (klassRef : Reader Byte MonoClass) (methodRef : Reader Byte MonoMethod) (type : BitVec 32) :
    Reader Byte MonoClass := do
  let num ← decodeValue
  let isMethod ← decodeValue
  if isMethod ≠ 0 then
    if type = monoTypeMvar then do
      let method ← methodRef
      let owner ← need (genericMethodDef method)
      pure (.methodVar (num.setWidth 16) owner)
    else fail
  else
    if type = monoTypeVar then do
      let klass ← klassRef
      let owner ← need (genericTypeDef klass)
      pure (.typeVar (num.setWidth 16) owner)
    else fail

/-- The forms behind the marker of a type specification. -/
def decodeMarked (klassRef : Reader Byte MonoClass) (methodRef : Reader Byte MonoMethod) : Reader Byte MonoClass := do
  let type ← decodeValue
  if type = monoTypeGenericinst then do
    let gclass ← klassRef
    let containerClass ← need (genericTypeDef gclass)
    let inst ← decodeGenericInst klassRef
    pure (.genericInst containerClass inst)
  else if type = monoTypeVar ∨ type = monoTypeMvar then decodeParam klassRef methodRef type
  else fail

/-- `decode_klass_ref`, with the readers for the references inside. -/
def klassRefWith (klassRef : Reader Byte MonoClass) (methodRef : Reader Byte MonoMethod) : Reader Byte MonoClass := do
  let token ← decodeValue
  if token = 0 then fail
  else if tokenTable token = 0 then do
    let image ← readImage amodule
    need (amodule.monoClassGet image (monoTokenTypeDef + token))
  else if tokenTable token = monoTableTypespec then
    if token = monoTokenTypeSpec then decodeMarked klassRef methodRef
    else do
      let image ← readImage amodule
      need (amodule.monoClassGet image token)
  else if token = monoTokenTypeDef then do
    let _ ← readImage amodule
    let rank ← decodeValue
    let eklass ← klassRef
    need (monoArrayClassGet eklass rank.toNat)
  else fail

/-- `mono_class_get_method_from_name` for the methods of an array class. -/
def arrayMethodOfType (rank : Nat) (methodType : BitVec 32) : Option ArrayMethod :=
  if methodType = 0 then some (.ctor rank)
  else if methodType = 1 then some (.ctor (rank * 2))
  else if methodType = 2 then some .get
  else if methodType = 3 then some .address
  else if methodType = 4 then some .set
  else none

/-- The method of an array class that is read. -/
def monoArrayMethod (klass : MonoClass) (methodType : BitVec 32) : Option MonoMethod :=
  match klass with
  | .array shape elementClass =>
      (arrayMethodOfType shape.rank methodType).map fun method => .arrayMethod shape elementClass method
  | _ => none

/-- `mono_class_inflate_generic_method_full`. -/
def monoInflateMethod (method : MonoMethod) (klass : MonoClass) (context : MonoGenericContext) : Option MonoMethod :=
  match method with
  | .plain d =>
      if h : klass.image = d.image then
        some (.inflated { klass := klass, declaring := d, context := context, home := h })
      else none
  | _ => none

/-- The cases of the `switch` over the wrapper types that are read. -/
def decodeWrapper (klassRef : Reader Byte MonoClass) (methodRef : Reader Byte MonoMethod) (type : WrapperType) :
    Reader Byte MonoMethod :=
  match type with
  | .remotingInvokeWithCheck => do
      let m ← methodRef
      pure (.wrapperOfMethod type m)
  | .proxyIsinst => do
      let klass ← klassRef
      pure (.wrapperOfClass type klass)
  | .ldfld => do
      let klass ← klassRef
      pure (.wrapperOfClass type klass)
  | .ldflda => do
      let klass ← klassRef
      pure (.wrapperOfClass type klass)
  | .stfld => do
      let klass ← klassRef
      pure (.wrapperOfClass type klass)
  | .isinst => do
      let klass ← klassRef
      pure (.wrapperOfClass type klass)
  | .ldfldRemote => pure (.wrapper type .nothing)
  | .stfldRemote => pure (.wrapper type .nothing)
  | .alloc => do
      let atype ← decodeValue
      pure (.wrapper type (.allocator atype))
  | .stelemref => pure (.wrapper type .nothing)
  | .synchronized => do
      let m ← methodRef
      pure (.wrapperOfMethod type m)
  | .unknown => do
      let subtype ← decodeValue
      if subtype = monoAotWrapperMonoEnter then pure (.wrapper type .monitorEnter)
      else if subtype = monoAotWrapperMonoExit then pure (.wrapper type .monitorExit)
      else fail
  | .runtimeInvoke => do
      let m ← methodRef
      pure (.wrapperOfMethod type m)
  | .managedToManaged => do
      let subtype ← decodeValue
      if subtype = monoAotWrapperElementAddr then do
        let rank ← decodeValue
        let elemSize ← decodeValue
        pure (.wrapper type (.elementAddr rank elemSize))
      else fail
  | _ => fail

/-- A method whose reference is read into the argument `method`, which may be `NULL`. -/
def store (outMethod : Bool) (method : MonoMethod) : Reader Byte MonoMethod :=
  if outMethod then pure method else fail

/-- The first value of a reference behind the mark of a method that needs a trampoline, and whether there is one. -/
def decodeNoAotTrampoline : Reader Byte (Bool × BitVec 32) := do
  let value ← decodeValue
  if value >>> 24 = monoAotMethodrefNoAotTrampoline then do
    let value ← decodeValue
    pure (true, value)
  else pure (false, value)

/-- The cases of `decode_method_ref`. The token is left as it is, whatever it is, where a wrapper is read. -/
def methodKindWith (klassRef : Reader Byte MonoClass) (methodRef : Reader Byte MonoMethod) (outMethod : Bool)
    (noAotTrampoline : Bool) (value : BitVec 32) : Reader Byte MethodRef :=
  let imageIndex := value >>> 24
  if imageIndex = monoAotMethodrefWrapper then do
    let wrapperType ← decodeValue
    let type ← need (wrapperOfCode wrapperType)
    let method ← decodeWrapper klassRef methodRef type
    let method ← store outMethod method
    pure { image := some amodule.corlib, token := 0, method := some method, noAotTrampoline := noAotTrampoline }
  else if imageIndex = monoAotMethodrefWrapperName then fail
  else if imageIndex = monoAotMethodrefMethodspec then do
    let imageIndex ← decodeValue
    let token ← decodeValue
    let image ← need (amodule.loadImage imageIndex)
    pure { image := some image, token := token, method := none, noAotTrampoline := noAotTrampoline }
  else if imageIndex = monoAotMethodrefGinst then do
    let klass ← klassRef
    let imageIndex ← decodeValue
    let token ← decodeValue
    let image ← need (amodule.loadImage imageIndex)
    let declaring ← need (amodule.monoGetMethod image token)
    let declaring ← store outMethod declaring
    let context ← decodeGenericContext klassRef
    let method ← need (monoInflateMethod declaring klass context)
    pure { image := some image, token := token, method := some method, noAotTrampoline := noAotTrampoline }
  else if imageIndex = monoAotMethodrefArray then do
    let klass ← klassRef
    let methodType ← decodeValue
    let method ← need (monoArrayMethod klass methodType)
    let method ← store outMethod method
    pure { image := none, token := 0, method := some method, noAotTrampoline := noAotTrampoline }
  else if imageIndex < monoAotMethodrefMin then do
    let image ← need (amodule.loadImage imageIndex)
    pure { image := some image, token := monoTokenMethodDef ||| value &&& 0xffffff, method := none,
           noAotTrampoline := noAotTrampoline }
  else fail

/-- `decode_method_ref`, with the readers for the references inside. -/
def methodRefWith (klassRef : Reader Byte MonoClass) (methodRef : Reader Byte MonoMethod) (outMethod : Bool) :
    Reader Byte MethodRef := do
  let start ← decodeNoAotTrampoline
  methodKindWith amodule klassRef methodRef outMethod start.1 start.2

/-- The method of a reference, which is looked up unless it has been read. -/
def resolveMethod (ref : MethodRef) : Option MonoMethod :=
  match ref.method with
  | some method => some method
  | none => ref.image.bind fun image => amodule.monoGetMethod image ref.token

mutual

/-- `decode_klass_ref`. -/
def decodeKlassRef : Nat → Reader Byte MonoClass
  | 0 => fail
  | fuel + 1 => klassRefWith amodule (decodeKlassRef fuel) (decodeMethodRef2 fuel)

/-- `decode_method_ref_2`. -/
def decodeMethodRef2 : Nat → Reader Byte MonoMethod
  | 0 => fail
  | fuel + 1 => do
      let ref ← methodRefWith amodule (decodeKlassRef fuel) (decodeMethodRef2 fuel) true
      need (resolveMethod amodule ref)

end

/-- `decode_method_ref`, whose argument `method` may be `NULL`. -/
def decodeMethodRef (fuel : Nat) (outMethod : Bool) : Reader Byte MethodRef :=
  methodRefWith amodule (decodeKlassRef amodule fuel) (decodeMethodRef2 amodule fuel) outMethod

end Reading

/-! ### What is read back -/

/-- What the image table, tokens, type specifications and recorded tokens resolve to when an image is loaded is what they
came from. -/
structure Resolves (acfg : MonoAotCompile) (amodule : MonoAotModule) : Prop where
  images : ∀ i image, acfg.imageTable[i]? = some image → amodule.loadImage (BitVec.ofNat 32 i) = some image
  typeDefs : ∀ d : TypeDef, d.image ∈ acfg.imageTable →
    amodule.monoClassGet d.image (monoTokenTypeDef + d.index) = some (.typeDef d)
  typespecs : ∀ i klass, acfg.typespecClasses[i]? = some klass →
    amodule.monoClassGet acfg.image (monoTokenTypeSpec ||| BitVec.ofNat 32 (i + 1)) = some klass
  methods : ∀ d : MethodDef, d.image ∈ acfg.imageTable →
    amodule.monoGetMethod d.image (monoTokenMethodDef ||| d.index) = some (.plain d)
  recorded : ∀ method image token, acfg.tokenInfo method = some (image, token) →
    amodule.monoGetMethod image token = some method

/-- The image and the token that a method is looked up with, where it is written as a token. -/
def tokenOf (acfg : MonoAotCompile) : MonoMethod → Option (MonoImage × BitVec 32)
  | .plain d => some (d.image, monoTokenMethodDef ||| d.index)
  | .inflated m => acfg.tokenInfo (.inflated m)
  | .arrayMethod shape elementClass method => acfg.tokenInfo (.arrayMethod shape elementClass method)
  | _ => none

/-- A reference that is a token. -/
def tokenRef (image : MonoImage) (token : BitVec 32) (noAotTrampoline : Bool) : MethodRef :=
  { image := some image, token := token, method := none, noAotTrampoline := noAotTrampoline }

section Restored

variable (acfg : MonoAotCompile)

/-- The array class of the same rank without a lower bound. -/
def ArrayShape.vector (shape : ArrayShape) : ArrayShape :=
  { rank := shape.rank, bounded := false, positive := shape.positive, small := shape.small, single := nofun }

mutual

/-- The class that is read back: an array class comes back without its lower bound, wherever it is written out. -/
def restoredClass : MonoClass → MonoClass
  | .genericInst containerClass classInst =>
      if (findTypespecForClass acfg (.genericInst containerClass classInst)).isSome then
        .genericInst containerClass classInst
      else .genericInst containerClass (restoredInst classInst)
  | .array shape elementClass => .array shape.vector (restoredClass elementClass)
  | .typeDef d => .typeDef d
  | .typeVar num owner => .typeVar num owner
  | .methodVar num owner => .methodVar num owner

def restoredInst : MonoGenericInst → MonoGenericInst
  | .nil => .nil
  | .cons type types => .cons (restoredClass type) (restoredInst types)

end

theorem image_restoredClass (klass : MonoClass) : (restoredClass acfg klass).image = klass.image := by
  match klass with
  | .typeDef _ | .typeVar _ _ | .methodVar _ _ => rfl
  | .genericInst _ _ =>
    unfold restoredClass
    split
    · rfl
    · rfl
  | .array _ elementClass =>
    unfold restoredClass
    exact image_restoredClass elementClass

/-- The generic context that is read back. -/
def restoredContext (context : MonoGenericContext) : MonoGenericContext :=
  { classInst := context.classInst.map (restoredInst acfg),
    methodInst := context.methodInst.map (restoredInst acfg) }

/-- The wrapper types that are written but have no case in `decode_method_ref`. -/
def unreadWrapper (type : WrapperType) : Bool :=
  match type with
  | .remotingInvoke => true
  | .xdomainInvoke => true
  | .managedToNative => true
  | _ => false

/-- The method that is read back, if one is. -/
def restoredMethod : MonoMethod → Option MonoMethod
  | .plain d => some (.plain d)
  | .inflated m =>
      if (acfg.tokenInfo (.inflated m)).isSome then some (.inflated m)
      else
        some (.inflated
          { klass := restoredClass acfg m.klass, declaring := m.declaring, context := restoredContext acfg m.context,
            home := (image_restoredClass acfg m.klass).trans m.home })
  | .arrayMethod shape elementClass method =>
      if (acfg.tokenInfo (.arrayMethod shape elementClass method)).isSome then
        some (.arrayMethod shape elementClass method)
      else some (.arrayMethod shape.vector (restoredClass acfg elementClass) method)
  | .wrapperOfMethod type method =>
      if unreadWrapper type then none
      else (restoredMethod method).map fun wrapped => .wrapperOfMethod type wrapped
  | .wrapperOfClass type klass => some (.wrapperOfClass type (restoredClass acfg klass))
  | .wrapper type info => some (.wrapper type info)
  | .namedWrapper _ _ => none

mutual

/-- No array class with a lower bound is written out. -/
def classReadable : MonoClass → Bool
  | .genericInst containerClass classInst =>
      (findTypespecForClass acfg (.genericInst containerClass classInst)).isSome || instReadable classInst
  | .array shape elementClass => !shape.bounded && classReadable elementClass
  | .typeDef _ => true
  | .typeVar _ _ => true
  | .methodVar _ _ => true

def instReadable : MonoGenericInst → Bool
  | .nil => true
  | .cons type types => classReadable type && instReadable types

end

/-- The same for the two halves of a generic context. -/
def contextReadable (context : MonoGenericContext) : Bool :=
  context.classInst.all (instReadable acfg) && context.methodInst.all (instReadable acfg)

/-- Nothing is written out that cannot be read back: no array class with a lower bound, no wrapper type without a case in
`decode_method_ref` and no wrapper that is encoded by its name. -/
def methodReadable : MonoMethod → Bool
  | .plain _ => true
  | .inflated m =>
      (acfg.tokenInfo (.inflated m)).isSome || (classReadable acfg m.klass && contextReadable acfg m.context)
  | .arrayMethod shape elementClass method =>
      (acfg.tokenInfo (.arrayMethod shape elementClass method)).isSome ||
        (!shape.bounded && classReadable acfg elementClass)
  | .wrapperOfMethod type method => !unreadWrapper type && methodReadable method
  | .wrapperOfClass _ klass => classReadable acfg klass
  | .wrapper _ _ => true
  | .namedWrapper _ _ => false

end Restored

/-- The bytes are read as the class and left behind exactly, with enough fuel and whatever comes after them. -/
def ClassRoundTrips (amodule : MonoAotModule) (bytes : List Byte) (klass : MonoClass) : Prop :=
  ∃ depth, ∀ fuel, depth ≤ fuel → Reads (decodeKlassRef amodule fuel) bytes klass

/-- The same for a method. -/
def MethodRoundTrips (amodule : MonoAotModule) (bytes : List Byte) (method : MonoMethod) : Prop :=
  ∃ depth, ∀ fuel, depth ≤ fuel → Reads (decodeMethodRef2 amodule fuel) bytes method

end MonoRuntime.AotRefs
