/-
Module: MonoRuntime.Metadata.SignatureBlob
Purpose: Method signatures as blobs: `method_encode_signature` of `metadata/reflection.c` writes one, and
  `mono_metadata_parse_method_signature_full` of `metadata/metadata.c` reads it. The result `NULL`, a failed assertion
  and the end of the bytes are the result `none`. Types are read inside types, and the fuel bounds how deep.
Trusted boundary: human-reviewed translation of the source
Main exports: Tokens
-/
import MonoRuntime.Metadata.SignatureTypes
import MonoRuntime.Mini.DebugInfo

namespace MonoRuntime.MethodSignature

open Reader
open DebugInfo (lowByte wide)
open TypeEquality (SimpleType)

/-! ### Codes -/

def monoTypePtr : Byte := 0x0f
def monoTypeByref : Byte := 0x10
def monoTypeValuetype : Byte := 0x11
def monoTypeClass : Byte := 0x12
def monoTypeVar : Byte := 0x13
def monoTypeArray : Byte := 0x14
def monoTypeGenericinst : Byte := 0x15
def monoTypeSzarray : Byte := 0x1d
def monoTypeMvar : Byte := 0x1e
def monoTypeCmodReqd : Byte := 0x1f
def monoTypeCmodOpt : Byte := 0x20
def monoTypeSentinel : Byte := 0x41
def monoTypePinned : Byte := 0x45

def monoCallVararg : BitVec 6 := 5

/-- The calling convention of the signature of a generic method instance, which has no result. -/
def callGenericInst : BitVec 6 := 0x0a

/-- The types without data, as the cases of the parser list them. -/
def simpleTypes : List SimpleType :=
  [.void, .boolean, .char, .i1, .u1, .i2, .u2, .i4, .u4, .i8, .u8, .r4, .r8, .i, .u, .string, .object, .typedbyref]

/-- The type without data that has the code. -/
def simpleOfCode (code : Byte) : Option SimpleType :=
  simpleTypes.find? fun type => type.code == code.setWidth 32

/-! ### Values -/

/-- `mono_metadata_encode_value`. -/
def monoMetadataEncodeValue (value : BitVec 32) : List Byte :=
  if value.toNat < 0x80 then [lowByte value]
  else if value.toNat < 0x4000 then [lowByte (value >>> 8 ||| 0x80), lowByte (value &&& 0xff)]
  else
    [lowByte (value >>> 24 ||| 0xc0), lowByte (value >>> 16 &&& 0xff), lowByte (value >>> 8 &&& 0xff),
      lowByte (value &&& 0xff)]

/-- `mono_metadata_decode_value`. -/
def monoMetadataDecodeValue : Reader Byte (BitVec 32) := do
  let b ← next
  if b &&& 0x80 = 0 then pure (wide b)
  else if b &&& 0x40 = 0 then do
    let b1 ← next
    pure ((wide b &&& 0x3f) <<< 8 ||| wide b1)
  else do
    let b1 ← next
    let b2 ← next
    let b3 ← next
    pure ((wide b &&& 0x1f) <<< 24 ||| wide b1 <<< 16 ||| wide b2 <<< 8 ||| wide b3)

/-- `mono_metadata_token_from_dor`. -/
def monoMetadataTokenFromDor (dorIndex : BitVec 32) : Option (BitVec 32) :=
  if dorIndex &&& 3 = 0 then some (0x02000000 ||| dorIndex >>> 2)
  else if dorIndex &&& 3 = 1 then some (0x01000000 ||| dorIndex >>> 2)
  else if dorIndex &&& 3 = 2 then some (0x1b000000 ||| dorIndex >>> 2)
  else none

/-- The tokens of the named classes: `mono_image_typedef_or_ref` in the image that is written, and `mono_class_get` in
the one that is read, for a token of a named class. -/
structure Tokens where
  typedefOrRef : ClassId → BitVec 32
  monoClassGet : BitVec 32 → Option ClassId

section Writer

variable (classes : Classes) (tokens : Tokens)

/-! ### Writing -/

/-- `sigbuffer_add_value` with the code of a type. -/
def encodeCode (code : Byte) : List Byte :=
  monoMetadataEncodeValue (code.setWidth 32)

/-- The code in `byval_arg.type` of a named class. -/
def classCode (klass : ClassId) : Byte :=
  if classes.valuetype klass then monoTypeValuetype else monoTypeClass

/-- A named class, with its code and token. -/
def encodeClass (klass : ClassId) : List Byte :=
  encodeCode (classCode classes klass) ++ monoMetadataEncodeValue (tokens.typedefOrRef klass)

/-- `encode_generic_class`; the arguments are written already. -/
def encodeGenericClass (klass : ClassId) (typeArgc : Nat) (args : List Byte) : List Byte :=
  encodeCode monoTypeGenericinst ++ (encodeClass classes tokens klass ++
    (monoMetadataEncodeValue (BitVec.ofNat 32 typeArgc) ++ args))

/-- A generic parameter. -/
def encodeParam (code : Byte) (param : GenericParam) : List Byte :=
  encodeCode code ++ monoMetadataEncodeValue (param.num.setWidth 32)

/-- The arguments of the instance over the own parameters of a container, from `first` on. -/
def encodeOwn (container : MonoGenericContainer) : Nat → Nat → List Byte
  | _, 0 => []
  | first, count + 1 =>
      encodeParam monoTypeVar (container.getParam first) ++ encodeOwn container (first + 1) count

/-- The flag `byref`, in front of a type. -/
def encodeByref (byref : Bool) : List Byte :=
  if byref then encodeCode monoTypeByref else []

mutual

/-- The cases of `encode_type`. -/
def encodeData : TypeData → List Byte
  | .simple type => monoMetadataEncodeValue type.code
  | .ptr byref type => encodeCode monoTypePtr ++ (encodeByref byref ++ encodeData type)
  | .szarray eclass => encodeCode monoTypeSzarray ++ encodeData eclass
  | .named klass =>
      match classes.genericContainer klass with
      | some container =>
          encodeGenericClass classes tokens klass container.typeArgc (encodeOwn container 0 container.typeArgc)
      | none => encodeClass classes tokens klass
  | .array rank eclass =>
      encodeCode monoTypeArray ++ (encodeData eclass ++ (monoMetadataEncodeValue (rank.setWidth 32) ++
        (monoMetadataEncodeValue 0 ++ monoMetadataEncodeValue 0)))
  | .genericinst _ klass args => encodeGenericClass classes tokens klass args.length (encodeArgs args)
  | .var param => encodeParam monoTypeVar param
  | .mvar param => encodeParam monoTypeMvar param

/-- The loop over the arguments. -/
def encodeArgs : TypeArgs → List Byte
  | .nil => []
  | .cons byref type rest => encodeByref byref ++ encodeData type ++ encodeArgs rest

end

/-- `encode_type`. -/
def encodeType (type : MonoType) : List Byte :=
  encodeByref type.byref ++ encodeData classes tokens type.data

/-- The parameters of a signature from the one at `i` on; the sentinel is a byte of its own. -/
def encodeParams (sentinelpos : BitVec 16) : Nat → List MonoType → List Byte
  | _, [] => []
  | i, type :: params =>
      (if (i : Int) = sentinelpos.toInt then [monoTypeSentinel] else []) ++
        (encodeType classes tokens type ++ encodeParams sentinelpos (i + 1) params)

/-- The first byte of a signature. -/
def signatureByte (sig : MonoMethodSignature) : Byte :=
  sig.callConvention.setWidth 8 ||| (if sig.hasthis then 0x20 else 0) |||
    (if sig.genericParamCount ≠ 0 then 0x10 else 0)

/-- The number of generic parameters, where there are any. -/
def encodeGenericParamCount (sig : MonoMethodSignature) : List Byte :=
  if sig.genericParamCount ≠ 0 then monoMetadataEncodeValue (sig.genericParamCount.setWidth 32) else []

/-- What `method_encode_signature` puts into the blob, without the length in front; a signature without a result is
a failed assertion. -/
def methodEncodeSignature (sig : MonoMethodSignature) : Option (List Byte) :=
  match sig.ret with
  | none => none
  | some ret =>
      some (signatureByte sig :: (encodeGenericParamCount sig ++
        (monoMetadataEncodeValue (BitVec.ofNat 32 sig.params.length) ++
          (encodeType classes tokens ret ++ encodeParams classes tokens sig.sentinelpos 0 sig.params))))

end Writer

section Parser

variable (classes : Classes) (tokens : Tokens) (image : ImageId)

/-! ### Generic parameters -/

/-- `select_container`. -/
def selectContainer (container : Option MonoGenericContainer) (isMvar : Bool) : Option MonoGenericContainer :=
  match container with
  | none => none
  | some gc => if !isMvar && (gc.isMethod || gc.parent.isSome) then gc.parent else some gc

/-- The parameter that `mono_metadata_parse_generic_param` finds for an index, after the test for `MONO_TYPE_MVAR` in
`do_mono_metadata_parse_type`. Without a container it makes one up. -/
def findParam (container : Option MonoGenericContainer) (isMvar : Bool) (index : Nat) : Option GenericParam :=
  if isMvar && container.any fun gc => !gc.isMethod then none
  else
    match selectContainer container isMvar with
    | none => some ⟨none, some image, BitVec.ofNat 16 index⟩
    | some gc => if gc.typeArgc ≤ index then none else some (gc.getParam index)

/-- `mono_metadata_parse_generic_param`. -/
def monoMetadataParseGenericParam (container : Option MonoGenericContainer) (isMvar : Bool) :
    Reader Byte GenericParam := do
  let index ← monoMetadataDecodeValue
  match findParam image container isMvar index.toNat with
  | none => fail
  | some param => pure param

/-! ### Types -/

/-- `mono_metadata_parse_typedef_or_ref`. -/
def monoMetadataParseTypedefOrRef : Reader Byte (BitVec 32) := do
  let value ← monoMetadataDecodeValue
  match monoMetadataTokenFromDor value with
  | none => fail
  | some token => pure token

/-- What stands in front of a type. -/
structure TypePrefix where
  pinned : Bool
  byref : Bool
  modifiers : List MonoCustomMod
deriving DecidableEq, Repr

/-- The loop that reads pinned, byref and custom modifiers; the loop before it, which counts the modifiers, only
measures the memory. -/
def parsePrefixLoop : Nat → TypePrefix → Reader Byte TypePrefix
  | 0, _ => fail
  | fuel + 1, found => do
      let b ← peek
      if b = monoTypePinned then do
        let _ ← next
        parsePrefixLoop fuel { found with pinned := true }
      else if b = monoTypeByref then do
        let _ ← next
        parsePrefixLoop fuel { found with byref := true }
      else if b = monoTypeCmodReqd ∨ b = monoTypeCmodOpt then do
        let _ ← next
        let token ← monoMetadataParseTypedefOrRef
        parsePrefixLoop fuel
          { found with modifiers := found.modifiers ++ [⟨decide (b = monoTypeCmodReqd), token⟩] }
      else pure found

/-- Each round of the loop takes a byte. -/
def parsePrefix : Reader Byte TypePrefix := fun symbols =>
  parsePrefixLoop (symbols.length + 1) ⟨false, false, []⟩ symbols

/-- The loop of `mono_metadata_parse_generic_inst`. -/
def monoMetadataParseGenericInst (parse : Reader Byte MonoType) : Nat → Reader Byte TypeArgs
  | 0 => pure .nil
  | count + 1 => do
      let type ← parse
      let rest ← monoMetadataParseGenericInst parse count
      pure (.cons type.byref type.data rest)

/-- `do_mono_metadata_parse_generic_class`; types inside are read by `parse`. -/
def doMonoMetadataParseGenericClass (parse : Option MonoGenericContainer → Reader Byte MonoType)
    (container : Option MonoGenericContainer) : Reader Byte TypeData := do
  let gtype ← parse none
  match monoClassFromMonoType classes gtype.data with
  | .named gklass =>
      match classes.genericContainer gklass with
      | none => fail
      | some _ => do
          let count ← monoMetadataDecodeValue
          let args ← monoMetadataParseGenericInst (parse container) count.toNat
          pure (.genericinst false gklass args)
  | _ => fail

/-- `mono_metadata_parse_array_full`; `rank` and the counts are bytes. -/
def monoMetadataParseArrayFull (parse : Reader Byte MonoType) : Reader Byte TypeData := do
  let etype ← parse
  let rank ← monoMetadataDecodeValue
  let numsizes ← monoMetadataDecodeValue
  let _ ← many monoMetadataDecodeValue (numsizes.setWidth 8).toNat
  let numlobounds ← monoMetadataDecodeValue
  let _ ← many monoMetadataDecodeValue (numlobounds.setWidth 8).toNat
  pure (.array (rank.setWidth 8) (monoClassFromMonoType classes etype.data))

/-- The cases of `do_mono_metadata_parse_type`. A named class has the tag that is read. -/
def parseCase (parse : Option MonoGenericContainer → Reader Byte MonoType) (container : Option MonoGenericContainer)
    (code : Byte) : Reader Byte TypeData :=
  match simpleOfCode code with
  | some type => pure (.simple type)
  | none =>
      if code = monoTypeValuetype ∨ code = monoTypeClass then do
        let token ← monoMetadataParseTypedefOrRef
        match tokens.monoClassGet token with
        | none => fail
        | some klass => pure (.named klass)
      else if code = monoTypeSzarray then do
        let etype ← parse container
        pure (.szarray (monoClassFromMonoType classes etype.data))
      else if code = monoTypePtr then do
        let type ← parse container
        pure (.ptr type.byref type.data)
      else if code = monoTypeArray then
        monoMetadataParseArrayFull classes (parse container)
      else if code = monoTypeMvar then do
        let param ← monoMetadataParseGenericParam image container true
        pure (.mvar param)
      else if code = monoTypeVar then do
        let param ← monoMetadataParseGenericParam image container false
        pure (.var param)
      else if code = monoTypeGenericinst then
        doMonoMetadataParseGenericClass classes parse container
      else fail

/-- `do_mono_metadata_parse_type`; the field `type` is a byte. -/
def doMonoMetadataParseType (parse : Option MonoGenericContainer → Reader Byte MonoType)
    (container : Option MonoGenericContainer) : Reader Byte TypeData := do
  let value ← monoMetadataDecodeValue
  parseCase classes tokens image parse container (value.setWidth 8)

/-- `mono_metadata_parse_type_full`; only the type at the top has attributes. -/
def monoMetadataParseTypeFull : Nat → Option MonoGenericContainer → BitVec 16 → Reader Byte MonoType
  | 0, _, _ => fail
  | fuel + 1, container, optAttrs => do
      let found ← parsePrefix
      let data ← doMonoMetadataParseType classes tokens image
        (fun container => monoMetadataParseTypeFull fuel container 0) container
      pure ⟨optAttrs, found.pinned, found.byref, found.modifiers, data⟩

/-! ### Signatures -/

variable (methodDef : Nat) (paramAttrs : Nat → BitVec 16)

/-- The sentinel before the parameter at `i`, if it is there. -/
def parseSentinel (callConvention : BitVec 6) (i : Nat) (sentinelpos : BitVec 16) : Reader Byte (BitVec 16) := do
  let b ← peek
  if b = monoTypeSentinel then
    if callConvention ≠ monoCallVararg ∨ methodDef ≠ 0 then fail
    else if 0 ≤ sentinelpos.toInt then fail
    else do
      let _ ← next
      pure (BitVec.ofNat 16 i)
  else pure sentinelpos

/-- The loop over the parameters, which are read by `parse`. -/
def parseParams (parse : BitVec 16 → Reader Byte MonoType) (callConvention : BitVec 6) :
    Nat → Nat → BitVec 16 → Reader Byte (BitVec 16 × List MonoType)
  | 0, _, sentinelpos => pure (sentinelpos, [])
  | count + 1, i, sentinelpos => do
      let sentinelpos ← parseSentinel methodDef callConvention i sentinelpos
      let type ← parse (paramAttrs (i + 1))
      let rest ← parseParams parse callConvention count (i + 1) sentinelpos
      pure (rest.1, type :: rest.2)

/-- The result, which the signature of a generic method instance does not have. -/
def parseRet (parse : BitVec 16 → Reader Byte MonoType) (callConvention : BitVec 6) :
    Reader Byte (Option MonoType) :=
  if callConvention ≠ callGenericInst then do
    let ret ← parse (paramAttrs 0)
    pure (some ret)
  else pure none

/-- `sentinelpos` after the loop; it may be missing where no further arguments are passed. -/
def finalSentinelpos (callConvention : BitVec 6) (paramCount sentinelpos : BitVec 16) : BitVec 16 :=
  if callConvention = monoCallVararg ∧ (methodDef ≠ 0 ∨ sentinelpos.toInt < 0) then paramCount else sentinelpos

/-- The number of generic parameters, where the first byte says that there are any. -/
def parseGenericParamCount (b : Byte) : Reader Byte (BitVec 32) :=
  if b &&& 0x10 ≠ 0 then monoMetadataDecodeValue else pure 0

/-- The body of `mono_metadata_parse_method_signature_full`, where `parse` reads a type. -/
def parseSignature (parse : BitVec 16 → Reader Byte MonoType) : Reader Byte MonoMethodSignature := do
  let b ← next
  let genParamCount ← parseGenericParamCount b
  let paramCount ← monoMetadataDecodeValue
  let callConvention : BitVec 6 := (b &&& 0x0f).setWidth 6
  let ret ← parseRet paramAttrs parse callConvention
  let params ← parseParams methodDef paramAttrs parse callConvention (paramCount.setWidth 16).toNat 0 (-1)
  pure
    { hasthis := decide (b &&& 0x20 ≠ 0)
      explicitThis := decide (b &&& 0x40 ≠ 0)
      callConvention := callConvention
      sentinelpos := finalSentinelpos methodDef callConvention (paramCount.setWidth 16) params.1
      genericParamCount := genParamCount.setWidth 30
      hasTypeParameters := (ret.toList ++ params.2).any fun type => monoClassIsOpenConstructedType type.data
      ret := ret
      params := params.2 }

/-- `mono_metadata_parse_method_signature_full`, where `paramAttrs` are the attributes of the result and of the
parameters in the image, 0 where there are none. A type takes a byte more than those inside it. -/
def monoMetadataParseMethodSignatureFull (container : Option MonoGenericContainer) :
    Reader Byte MonoMethodSignature := fun symbols =>
  parseSignature methodDef paramAttrs
    (monoMetadataParseTypeFull classes tokens image symbols.length container) symbols

end Parser

end MonoRuntime.MethodSignature
