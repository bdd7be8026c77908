/-
Module: MonoRuntime.Mini.AotPatches
Purpose: The patches of AOT-compiled methods: `encode_patch` of `mini/aot-compiler.c` writes what a patch refers to,
  `decode_patch` of `mini/aot-runtime.c` rebuilds the patch of a type from it. A result `FALSE`, a failed assertion and
  the end of the bytes are the result `none`. Patches are read inside patches, and the fuel bounds how deep.
Trusted boundary: human-reviewed translation of the source; images have compressed metadata, copying a float keeps
  its bits
Main exports: MonoJumpInfo
-/
import MonoRuntime.Mini.AotRefs

namespace MonoRuntime.AotRefs

open Reader
open DebugInfo (encodeValue decodeValue)

/-! ### Codes -/

def monoTokenFieldDef : BitVec 32 := 0x04000000
def monoTokenString : BitVec 32 := 0x70000000

/-- `MONO_TABLE_METHOD`. -/
def monoTableMethod : BitVec 32 := 6

/-- `mono_metadata_token_code`. -/
def tokenCode (token : BitVec 32) : BitVec 32 :=
  token &&& 0xff000000

/-! ### Patches -/

/-- The types of patches with a class. -/
inductive KlassPatch where
  | vtable | klass | iid | adjustedIid | classInit | delegateTrampoline
deriving DecidableEq

/-- The types of patches with a method whose reference may be a token. -/
inductive MethodPatch where
  | method | methodJump | icallAddr | methodRgctx
deriving DecidableEq

/-- The types of patches with a token and a generic context. -/
inductive TokenPatch where
  | rva | declsec | ldtoken | typeFromHandle
deriving DecidableEq

/-- The types of patches with a name. -/
inductive NamePatch where
  | internalMethod | jitIcallAddr
deriving DecidableEq

/-- The types of patches with a field. -/
inductive FieldPatch where
  | field | sflda
deriving DecidableEq

/-- The types of patches that need nothing else. -/
inductive PlainPatch where
  | interruptionRequestFlag | genericClassInit | monitorEnter | monitorExit | seqPointInfo
deriving DecidableEq

/-- `MonoJumpInfoType`, as far as `encode_patch` has a case for it, and the type of a trampoline. -/
inductive MonoJumpInfoType where
  | klass (type : KlassPatch)
  | method (type : MethodPatch)
  | methodconst
  | abs
  | image
  | methodRel
  | switch
  | name (type : NamePatch)
  | ldstr
  | token (type : TokenPatch)
  | excName
  | r4
  | r8
  | field (type : FieldPatch)
  | plain (type : PlainPatch)
  | rgctxFetch
  | mscorlibGotAddr
  | none
deriving DecidableEq

/-- The value of a type: its place in `patch-info.h`. -/
def MonoJumpInfoType.code : MonoJumpInfoType → BitVec 32
  | .abs => 1
  | .method .method => 3
  | .method .methodJump => 4
  | .methodRel => 5
  | .methodconst => 6
  | .name .internalMethod => 7
  | .switch => 8
  | .excName => 10
  | .klass .klass => 11
  | .image => 12
  | .field .field => 13
  | .klass .vtable => 14
  | .klass .classInit => 15
  | .field .sflda => 16
  | .ldstr => 17
  | .token .ldtoken => 18
  | .token .typeFromHandle => 19
  | .r4 => 20
  | .r8 => 21
  | .klass .iid => 23
  | .klass .adjustedIid => 24
  | .token .declsec => 28
  | .token .rva => 29
  | .klass .delegateTrampoline => 30
  | .method .icallAddr => 31
  | .name .jitIcallAddr => 32
  | .plain .interruptionRequestFlag => 33
  | .method .methodRgctx => 34
  | .rgctxFetch => 35
  | .plain .genericClassInit => 36
  | .plain .monitorEnter => 37
  | .plain .monitorExit => 38
  | .mscorlibGotAddr => 39
  | .plain .seqPointInfo => 40
  | .none => 41

def monoJumpInfoTypes : List MonoJumpInfoType :=
  [.abs, .method .method, .method .methodJump, .methodRel, .methodconst, .name .internalMethod, .switch, .excName,
    .klass .klass, .image, .field .field, .klass .vtable, .klass .classInit, .field .sflda, .ldstr, .token .ldtoken,
    .token .typeFromHandle, .r4, .r8, .klass .iid, .klass .adjustedIid, .token .declsec, .token .rva,
    .klass .delegateTrampoline, .method .icallAddr, .name .jitIcallAddr, .plain .interruptionRequestFlag,
    .method .methodRgctx, .rgctxFetch, .plain .genericClassInit, .plain .monitorEnter, .plain .monitorExit,
    .mscorlibGotAddr, .plain .seqPointInfo, .none]

/-- The type of a value. -/
def jumpInfoTypeOfCode (code : BitVec 32) : Option MonoJumpInfoType :=
  monoJumpInfoTypes.find? fun type => type.code == code

/-- A string without its terminator. -/
abbrev CString : Type :=
  { bytes : List Byte // 0 ∉ bytes ∧ bytes.length + 1 < 2 ^ 32 }

/-- The table of a switch: the offsets of its targets. -/
abbrev JumpTable : Type :=
  { table : List (BitVec 32) // table.length < 2 ^ 31 }

/-- `MonoClassField`: the class that has it, and its index in the fields of the class. -/
structure MonoClassField where
  parent : MonoClass
  index : Nat
deriving DecidableEq

/-- `MonoJumpInfo`. A patch with the address of a trampoline names the image and the token that it was made for. -/
inductive MonoJumpInfo where
  | klass (type : KlassPatch) (klass : MonoClass)
  | method (type : MethodPatch) (method : MonoMethod)
  | methodconst (method : MonoMethod)
  | abs (image : MonoImage) (token : BitVec 32)
  | image (image : MonoImage)
  | methodRel (offset : Int)
  | switch (table : JumpTable)
  | name (type : NamePatch) (name : CString)
  | ldstr (image : MonoImage) (token : BitVec 32)
  | token (type : TokenPatch) (image : MonoImage) (token : BitVec 32) (context : Option MonoGenericContext)
  | excName (name : CString)
  | r4 (bits : BitVec 32)
  | r8 (first second : BitVec 32)
  | field (type : FieldPatch) (field : MonoClassField)
  | plain (type : PlainPatch)
  | rgctxFetch (method : MonoMethod) (inMrgctx infoType : BitVec 32) (data : MonoJumpInfo)
  | mscorlibGotAddr
  | none

/-- The type of a patch. -/
def MonoJumpInfo.type : MonoJumpInfo → MonoJumpInfoType
  | .klass type _ => .klass type
  | .method type _ => .method type
  | .methodconst _ => .methodconst
  | .abs _ _ => .abs
  | .image _ => .image
  | .methodRel _ => .methodRel
  | .switch _ => .switch
  | .name type _ => .name type
  | .ldstr _ _ => .ldstr
  | .token type _ _ _ => .token type
  | .excName _ => .excName
  | .r4 _ => .r4
  | .r8 _ _ => .r8
  | .field type _ => .field type
  | .plain type => .plain type
  | .rgctxFetch _ _ _ _ => .rgctxFetch
  | .mscorlibGotAddr => .mscorlibGotAddr
  | .none => .none

/-- What the runtime knows of classes: their names, the class of a name in `System`, the first of their fields in the table
of fields, how many they have and the classes they derive from. -/
structure ClassTables where
  className : MonoClass → CString
  classFromName : CString → Option MonoClass
  fieldFirst : MonoClass → Nat
  fieldCount : MonoClass → Nat
  parents : MonoClass → List MonoClass
  fieldsFew : ∀ klass, fieldFirst klass + fieldCount klass < 2 ^ 24
  fromName : ∀ name klass, classFromName name = some klass → className klass = name

/-- `mono_class_get_field_token`. -/
def fieldToken (tables : ClassTables) (field : MonoClassField) : Option (BitVec 32) :=
  if field.index < tables.fieldCount field.parent then
    some (monoTokenFieldDef ||| BitVec.ofNat 32 (tables.fieldFirst field.parent + field.index + 1))
  else none

/-- The field of an index of the table, if the class has it. -/
def fieldAt (tables : ClassTables) (idx : Int) (klass : MonoClass) : Option MonoClassField :=
  if (tables.fieldFirst klass : Int) ≤ idx ∧ idx < tables.fieldFirst klass + tables.fieldCount klass then
    some { parent := klass, index := (idx - tables.fieldFirst klass).toNat }
  else none

/-- `mono_class_get_field`, with `mono_class_get_field_idx`. -/
def monoClassGetField (tables : ClassTables) (klass : MonoClass) (token : BitVec 32) : Option MonoClassField :=
  if tokenCode token = monoTokenFieldDef then
    (klass :: tables.parents klass).findSome? (fieldAt tables (((token &&& 0xffffff).toNat : Int) - 1))
  else none

/-! ### Writing -/

section Writer

variable (acfg : MonoAotCompile) (tables : ClassTables)

/-- `encode_field_info`. -/
def encodeFieldInfo (field : MonoClassField) : Option (List Byte) := do
  let token ← fieldToken tables field
  let klass ← encodeKlassRef acfg field.parent
  if tokenCode token = monoTokenFieldDef then pure (klass ++ encodeValue (token - monoTokenFieldDef)) else none

/-- The flag of a context and the context. -/
def encodeTokenContext : Option MonoGenericContext → Option (List Byte)
  | none => some (encodeValue 0)
  | some context => (encodeGenericContext acfg context).map fun bytes => encodeValue 1 ++ bytes

/-- A token with its image and its context. -/
def encodeTokenPatch (image : MonoImage) (token : BitVec 32) (context : Option MonoGenericContext) :
    Option (List Byte) := do
  let imageIndex ← getImageIndex acfg image
  let bytes ← encodeTokenContext acfg context
  pure (encodeValue imageIndex ++ (encodeValue token ++ bytes))

/-- A string with its image. -/
def encodeLdstr (image : MonoImage) (token : BitVec 32) : Option (List Byte) := do
  let imageIndex ← getImageIndex acfg image
  if tokenCode token = monoTokenString then
    pure (encodeValue imageIndex ++ encodeValue (token - monoTokenString))
  else none

/-- A name with its length and its terminator. -/
def encodeName (name : CString) : List Byte :=
  encodeValue (BitVec.ofNat 32 name.1.length) ++ (name.1 ++ [0])

/-- `encode_patch`. -/
def encodePatch : MonoJumpInfo → Option (List Byte)
  | .none => some []
  | .image image => (getImageIndex acfg image).map encodeValue
  | .mscorlibGotAddr => some []
  | .methodRel offset => some (encodeValue (BitVec.ofInt 32 offset))
  | .switch table => some (encodeValue (BitVec.ofNat 32 table.1.length) ++ table.1.flatMap encodeValue)
  | .methodconst method => encodeMethodRef acfg method
  | .method _ method => encodeMethodRef acfg method
  | .name _ name => some (encodeName name)
  | .ldstr image token => encodeLdstr acfg image token
  | .token _ image token context => encodeTokenPatch acfg image token context
  | .excName name => (tables.classFromName name).bind (encodeKlassRef acfg)
  | .r4 bits => some (encodeValue bits)
  | .r8 first second => some (encodeValue first ++ encodeValue second)
  | .klass _ klass => encodeKlassRef acfg klass
  | .field _ field => encodeFieldInfo acfg tables field
  | .plain _ => some []
  | .rgctxFetch method inMrgctx infoType data => do
      let ref ← encodeMethodRef acfg method
      let inner ← encodePatch data
      pure (ref ++ (encodeValue inMrgctx ++ (encodeValue infoType ++ (encodeValue data.type.code ++ inner))))
  | .abs _ _ => none

end Writer

/-! ### Reading -/

section Reading

variable (amodule : MonoAotModule) (tables : ClassTables) (monoAotOnly : Bool)

/-- The string that starts where the reader is, which stays there. -/
def cString : Reader Byte (List Byte) := fun bytes =>
  if 0 ∈ bytes then some (bytes.takeWhile fun b => b != 0, bytes) else none

/-- A name, which is left behind by the length in front of it. -/
def decodeName : Reader Byte CString := do
  let len ← decodeValue
  let name ← cString
  let _ ← many next (len.toNat + 1)
  if h : 0 ∉ name ∧ name.length + 1 < 2 ^ 32 then pure ⟨name, h⟩ else fail

/-- The table of a switch; no array has a negative size. -/
def decodeSwitch : Reader Byte JumpTable := do
  let tableSize ← decodeValue
  let table ← many decodeValue tableSize.toNat
  if h : table.length < 2 ^ 31 then pure ⟨table, h⟩ else fail

/-- `decode_field_info`. -/
def decodeFieldInfo (klassRef : Reader Byte MonoClass) : Reader Byte MonoClassField := do
  let klass ← klassRef
  let token ← decodeValue
  need (monoClassGetField tables klass (monoTokenFieldDef + token))

/-- The method of a reference, or a trampoline for its token. -/
def methodOfRef (type : MethodPatch) (ref : MethodRef) : Reader Byte MonoJumpInfo :=
  match ref.image with
  | none => fail
  | some image =>
      if ref.method = none ∧ monoAotOnly = false ∧ ref.noAotTrampoline = false ∧ type = .method ∧
          tokenTable ref.token = monoTableMethod then
        pure (.abs image ref.token)
      else do
        let method ← need (resolveMethod amodule ref)
        pure (.method type method)

/-- The context behind its flag. -/
def decodeTokenContext (klassRef : Reader Byte MonoClass) : Reader Byte (Option MonoGenericContext) := do
  let hasContext ← decodeValue
  if hasContext = 0 then pure none
  else do
    let context ← decodeGenericContext klassRef
    pure (some context)

/-- `decode_patch` for a type, with the readers for what is inside. -/
def patchWith (klassRef : Reader Byte MonoClass) (methodRef : Reader Byte MethodRef) (methodRef2 : Reader Byte MonoMethod)
    (patch : MonoJumpInfoType → Reader Byte MonoJumpInfo) (type : MonoJumpInfoType) : Reader Byte MonoJumpInfo :=
  match type with
  | .method type => do
      let ref ← methodRef
      methodOfRef amodule monoAotOnly type ref
  | .name type => do
      let name ← decodeName
      pure (.name type name)
  | .methodconst => do
      let method ← methodRef2
      pure (.methodconst method)
  | .klass type => do
      let klass ← klassRef
      pure (.klass type klass)
  | .image => do
      let image ← readImage amodule
      pure (.image image)
  | .field type => do
      let field ← decodeFieldInfo tables klassRef
      pure (.field type field)
  | .switch => do
      let table ← decodeSwitch
      pure (.switch table)
  | .r4 => do
      let val ← decodeValue
      pure (.r4 val)
  | .r8 => do
      let first ← decodeValue
      let second ← decodeValue
      pure (.r8 first second)
  | .ldstr => do
      let image ← readImage amodule
      let token ← decodeValue
      pure (.ldstr image (monoTokenString + token))
  | .token type => do
      let image ← readImage amodule
      let token ← decodeValue
      let context ← decodeTokenContext klassRef
      pure (.token type image token context)
  | .excName => do
      let klass ← klassRef
      pure (.excName (tables.className klass))
  | .methodRel => do
      let offset ← decodeValue
      pure (.methodRel offset.toInt)
  | .plain type => pure (.plain type)
  | .rgctxFetch => do
      let method ← methodRef2
      let inMrgctx ← decodeValue
      let infoType ← decodeValue
      let code ← decodeValue
      let type ← need (jumpInfoTypeOfCode code)
      let data ← patch type
      pure (.rgctxFetch method inMrgctx infoType data)
  | .abs => fail
  | .mscorlibGotAddr => fail
  | .none => fail

/-- `decode_patch`. -/
def decodePatch : Nat → MonoJumpInfoType → Reader Byte MonoJumpInfo
  | 0, _ => fail
  | fuel + 1, type =>
      patchWith amodule tables monoAotOnly (decodeKlassRef amodule fuel) (decodeMethodRef amodule fuel true)
        (decodeMethodRef2 amodule fuel) (decodePatch fuel) type

end Reading

/-! ### What is rebuilt -/

/-- An equal patch, or a trampoline for the same method, also inside an entry of the runtime generic context. -/
inductive Rebuilt (amodule : MonoAotModule) : MonoJumpInfo → MonoJumpInfo → Prop where
  | same (patch : MonoJumpInfo) : Rebuilt amodule patch patch
  | trampoline (method : MonoMethod) (image : MonoImage) (token : BitVec 32)
      (found : amodule.monoGetMethod image token = some method) :
      Rebuilt amodule (.method .method method) (.abs image token)
  | rgctxFetch (method : MonoMethod) (inMrgctx infoType : BitVec 32) {data data' : MonoJumpInfo}
      (inside : Rebuilt amodule data data') :
      Rebuilt amodule (.rgctxFetch method inMrgctx infoType data) (.rgctxFetch method inMrgctx infoType data')

/-- The bytes are rebuilt to the patch and left behind exactly, with enough fuel and whatever comes after them. -/
def PatchRoundTrips (amodule : MonoAotModule) (tables : ClassTables) (monoAotOnly : Bool) (bytes : List Byte)
    (patch : MonoJumpInfo) : Prop :=
  ∃ depth, ∀ fuel, depth ≤ fuel → ∃ patch', Rebuilt amodule patch patch' ∧
    Reads (decodePatch amodule tables monoAotOnly fuel patch.type) bytes patch'

section Restored

variable (acfg : MonoAotCompile)

/-- The classes and the methods that the patch refers to are read back as they are. -/
def PatchReadable (tables : ClassTables) : MonoJumpInfo → Prop
  | .klass _ klass => classReadable acfg klass = true
  | .method _ method => methodReadable acfg method = true
  | .methodconst method => methodReadable acfg method = true
  | .token _ _ _ context => context.all (contextReadable acfg) = true
  | .excName name => (tables.classFromName name).all (classReadable acfg) = true
  | .field _ field => classReadable acfg field.parent = true
  | .rgctxFetch method _ _ data => methodReadable acfg method = true ∧ PatchReadable tables data
  | _ => True

/-- A method of an array class whose token the JIT has not recorded. -/
def arrayWithoutToken : MonoMethod → Bool
  | .arrayMethod shape elementClass method => (acfg.tokenInfo (.arrayMethod shape elementClass method)).isNone
  | _ => false

/-- The condition on a patch: there is a case for its type, the method of a patch that is read as a token is not one of an
array class without a token, and an offset is one that a `gint` can hold; in an entry of the runtime generic context the
same for the patch inside. -/
def PatchMeets : MonoJumpInfo → Prop
  | .method _ method => arrayWithoutToken acfg method = false
  | .methodRel offset => -2 ^ 31 ≤ offset ∧ offset < 2 ^ 31
  | .rgctxFetch _ _ _ data => PatchMeets data
  | .abs _ _ => False
  | .mscorlibGotAddr => False
  | .none => False
  | _ => True

end Restored

end MonoRuntime.AotRefs
