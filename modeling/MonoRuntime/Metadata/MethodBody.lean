/-
Module: MonoRuntime.Metadata.MethodBody
Purpose: The bodies of built methods. `method_encode_code` of `metadata/reflection.c` appends a body to the code
  stream of a dynamic image, `method_encode_clauses` makes the list of its clauses, and
  `mono_metadata_parse_mh_full` of `metadata/metadata.c` reads the header and the clauses back;
  `mono_method_get_header_summary` looks at the header only. The stream starts at an aligned address, so that an
  address is aligned when its distance to the start is.
Trusted boundary: human-reviewed translation of the source
Main exports: ReflectionMethodBuilder
-/
import MonoRuntime.Lib.Leb128

namespace MonoRuntime.MethodBody

/-! ### Little-endian words -/

/-- The bytes of a `guint16`. -/
def le16 (value : BitVec 16) : List Byte :=
  [value.setWidth 8, (value >>> 8).setWidth 8]

/-- The bytes of a `guint32`. -/
def le32 (value : BitVec 32) : List Byte :=
  [value.setWidth 8, (value >>> 8).setWidth 8, (value >>> 16).setWidth 8, (value >>> 24).setWidth 8]

/-- `read16`. -/
def read16 (mem : List Byte) (ptr : Nat) : Option (BitVec 16) := do
  let b0 ← mem[ptr]?
  let b1 ← mem[ptr + 1]?
  pure (BitVec.ofNat 16 (b0.toNat + 2 ^ 8 * b1.toNat))

/-- `read32`. -/
def read32 (mem : List Byte) (ptr : Nat) : Option (BitVec 32) := do
  let b0 ← mem[ptr]?
  let b1 ← mem[ptr + 1]?
  let b2 ← mem[ptr + 2]?
  let b3 ← mem[ptr + 3]?
  pure (BitVec.ofNat 32 (b0.toNat + 2 ^ 8 * b1.toNat + 2 ^ 16 * b2.toNat + 2 ^ 24 * b3.toNat))

/-- `dword_align`. -/
def dwordAlign (ptr : Nat) : Nat :=
  (ptr + 3) / 4 * 4

/-! ### Method builders -/

variable {Class Local : Type}

/-- `MonoILExceptionBlock`. -/
structure MonoILExceptionBlock (Class : Type) where
  extype : Option Class
  type : BitVec 32
  start : BitVec 32
  len : BitVec 32
  filterOffset : BitVec 32
deriving DecidableEq, Repr

/-- `MonoILExceptionInfo`; `handlers` may be `NULL`. -/
structure MonoILExceptionInfo (Class : Type) where
  handlers : Option (List (MonoILExceptionBlock Class))
  start : BitVec 32
  len : BitVec 32
deriving DecidableEq, Repr

/-- `MonoReflectionILGen`. `code` holds the first `code_len` bytes of the array, a `gint32`; the arrays `locals` and
`ex_handlers` are empty where they are `NULL`. -/
structure MonoReflectionILGen (Class Local : Type) where
  code : List Byte
  maxStack : BitVec 32
  locals : List Local
  exHandlers : List (MonoILExceptionInfo Class)
  codeFits : code.length < 2 ^ 31

/-- Where the code of a method builder is: in its generator or in an array of its own. -/
inductive BodySource (Class Local : Type) where
  | ilgen (generator : MonoReflectionILGen Class Local)
  | array (bytes : List Byte) (codeFits : bytes.length < 2 ^ 31)
  | missing

/-- The fields of `ReflectionMethodBuilder` that `method_encode_code` looks at. -/
structure ReflectionMethodBuilder (Class Local : Type) where
  attrs : BitVec 32
  iattrs : BitVec 32
  body : BodySource Class Local
  initLocals : Bool

def monoExceptionClauseNone : BitVec 32 := 0
def monoExceptionClauseFilter : BitVec 32 := 1
def monoExceptionClauseFinally : BitVec 32 := 2
def monoExceptionClauseFault : BitVec 32 := 4

def methodAttributePinvokeImpl : BitVec 32 := 0x2000
def methodAttributeAbstract : BitVec 32 := 0x0400
def methodImplAttributeInternalCall : BitVec 32 := 0x1000
def methodImplAttributeRuntime : BitVec 32 := 0x0003

namespace BodySource

variable (body : BodySource Class Local)

/-- The bytes that are copied into the stream. -/
def codeBytes : List Byte :=
  match body with
  | .ilgen g => g.code
  | .array bytes _ => bytes
  | .missing => []

/-- The requested `max_stack`. -/
def maxStack : BitVec 32 :=
  match body with
  | .ilgen g => g.maxStack
  | _ => 8

def locals : List Local :=
  match body with
  | .ilgen g => g.locals
  | _ => []

def exHandlers : List (MonoILExceptionInfo Class) :=
  match body with
  | .ilgen g => g.exHandlers
  | _ => []

end BodySource

/-! ### Clauses -/

/-- The union `data` of a clause; a filter offset 0 is the null pointer. -/
inductive ClauseData (Class : Type) where
  | null
  | filterOffset (offset : BitVec 32)
  | catchClass (klass : Class)
deriving DecidableEq, Repr

/-- The union after `filter_offset` was stored in it. -/
def ClauseData.ofOffset (offset : BitVec 32) : ClauseData Class :=
  if offset = 0 then .null else .filterOffset offset

/-- `MonoExceptionClause`. -/
structure MonoExceptionClause (Class : Type) where
  flags : BitVec 32
  tryOffset : BitVec 32
  tryLen : BitVec 32
  handlerOffset : BitVec 32
  handlerLen : BitVec 32
  data : ClauseData Class
deriving DecidableEq, Repr

/-- A clause of zeros. -/
def zeroClause : MonoExceptionClause Class :=
  { flags := 0, tryOffset := 0, tryLen := 0, handlerOffset := 0, handlerLen := 0, data := .null }

/-- The number of clauses of a block: a block without handlers counts as one. -/
def MonoILExceptionInfo.count (info : MonoILExceptionInfo Class) : Nat :=
  match info.handlers with
  | some handlers => handlers.length
  | none => 1

/-- The sum that `method_count_clauses` computes. -/
def countClauses : List (MonoILExceptionInfo Class) → Nat
  | [] => 0
  | info :: infos => info.count + countClauses infos

/-- The data of the clause of a handler. -/
def clauseData (block : MonoILExceptionBlock Class) : ClauseData Class :=
  match block.extype with
  | some klass => .catchClass klass
  | none =>
      if block.type = monoExceptionClauseFilter then .ofOffset block.filterOffset else .ofOffset 0

/-- The handlers of a block, from the one that starts where `finally_start` says. -/
def blockClauses (info : MonoILExceptionInfo Class) (finallyStart : BitVec 32) :
    List (MonoILExceptionBlock Class) → List (MonoExceptionClause Class)
  | [] => []
  | block :: blocks =>
      { flags := block.type
        tryOffset := info.start
        tryLen := if block.type = monoExceptionClauseFinally then finallyStart - info.start else info.len
        handlerOffset := block.start
        handlerLen := block.len
        data := clauseData block } ::
      blockClauses info (block.start + block.len) blocks

/-- The clauses of a block. -/
def infoClauses (info : MonoILExceptionInfo Class) : List (MonoExceptionClause Class) :=
  match info.handlers with
  | none => []
  | some handlers => blockClauses info (info.start + info.len) handlers

/-- `method_encode_clauses`, with the number that `method_count_clauses` computes: the blocks from the last to the
first, in an array of zeros. -/
def methodEncodeClauses (infos : List (MonoILExceptionInfo Class)) : List (MonoExceptionClause Class) :=
  let clauses := infos.reverse.flatMap infoClauses
  clauses ++ List.replicate (countClauses infos - clauses.length) zeroClause

/-! ### Writing -/

/-- The functions between types and tokens: `mono_image_typedef_or_ref` with `mono_metadata_token_from_dor`,
`mono_class_get`, the row of `encode_locals` in the table of signatures, and the types that are read from a row. -/
structure Tokens (Class Local : Type) where
  typedefOrRef : Class → BitVec 32
  classGet : BitVec 32 → Option Class
  encodeLocals : List Local → BitVec 32
  localsOfRow : BitVec 32 → Option (List Local)

variable (tokens : Tokens Class Local)

/-- `stream_data_align`. -/
def streamDataAlign (stream : List Byte) : List Byte :=
  let count := stream.length % 4
  if count = 0 then stream else stream ++ List.replicate (4 - count) 0

/-- The last word of the clause of a handler. -/
def clauseValue (block : MonoILExceptionBlock Class) : BitVec 32 :=
  match block.extype with
  | some klass => tokens.typedefOrRef klass
  | none => if block.type = monoExceptionClauseFilter then block.filterOffset else 0

/-- The words of the handlers of a block. -/
def encodeBlocks (info : MonoILExceptionInfo Class) (finallyStart : BitVec 32) :
    List (MonoILExceptionBlock Class) → List Byte
  | [] => []
  | block :: blocks =>
      le32 block.type ++ le32 info.start ++
      le32 (if block.type = monoExceptionClauseFinally then finallyStart - info.start else info.len) ++
      le32 block.start ++ le32 block.len ++ le32 (clauseValue tokens block) ++
      encodeBlocks info (block.start + block.len) blocks

/-- The words of the blocks; a block without handlers is an error. -/
def encodeInfos : List (MonoILExceptionInfo Class) → Option (List Byte)
  | [] => some []
  | info :: infos =>
      match info.handlers with
      | none => none
      | some handlers => do
          let rest ← encodeInfos infos
          pure (encodeBlocks tokens info (info.start + info.len) handlers ++ rest)

/-- The header of the section: its flags, `METHOD_HEADER_SECTION_FAT_FORMAT | METHOD_HEADER_SECTION_EHTABLE`, and the
three low bytes of its size. -/
def sectionHeader (numException : BitVec 32) : List Byte :=
  let size := numException * 24 + 4
  [0x41, size.setWidth 8, (size >>> 8).setWidth 8, (size >>> 16).setWidth 8]

/-- The fat header. -/
def fatHeader (mb : ReflectionMethodBuilder Class Local) (numException : BitVec 32) : List Byte :=
  let localSig := if mb.body.locals = [] then 0 else 0x11000000 ||| tokens.encodeLocals mb.body.locals
  let moreSects : Byte := if numException = 0 then 0 else 0x08
  let initLocals : Byte := if mb.initLocals then 0x10 else 0
  [0x03 ||| moreSects ||| initLocals, (12 / 4) <<< 4] ++ le16 (mb.body.maxStack.setWidth 16) ++
    le32 (BitVec.ofNat 32 mb.body.codeBytes.length) ++ le32 localSig

/-- The byte of the tiny header, for a body that is small enough. -/
def tinyHeader (codeSize : BitVec 32) : Option Byte :=
  if codeSize < 64 ∧ codeSize &&& 1 = 0 then some ((codeSize <<< 2).setWidth 8 ||| 0x2)
  else if codeSize < 32 ∧ codeSize &&& 1 ≠ 0 then some ((codeSize <<< 2).setWidth 8 ||| 0x6)
  else none

/-- The fat header, the code and the section with the clauses, from an aligned end of the stream. -/
def encodeFat (stream : List Byte) (mb : ReflectionMethodBuilder Class Local) (numException : BitVec 32) :
    Option (List Byte × Nat) := do
  let stream' := stream ++ fatHeader tokens mb numException ++ mb.body.codeBytes
  if numException = 0 then pure (stream', stream.length)
  else do
    let clauses ← encodeInfos tokens mb.body.exHandlers.reverse
    pure (streamDataAlign stream' ++ sectionHeader numException ++ clauses, stream.length)

/-- `maybe_small`. -/
def maybeSmall (body : BodySource Class Local) (numException : BitVec 32) : Bool :=
  body.maxStack.sle 8 && body.locals.isEmpty && numException == 0

/-- What `method_encode_code` appends to the stream of a method that has a body, and where it starts; an exception and
an error are the result `none`. -/
def encodeBody (stream : List Byte) (mb : ReflectionMethodBuilder Class Local) : Option (List Byte × Nat) :=
  let numException := BitVec.ofNat 32 (countClauses mb.body.exHandlers)
  let aligned := streamDataAlign stream
  let code := mb.body.codeBytes
  if maybeSmall mb.body numException then
    match tinyHeader (BitVec.ofNat 32 code.length) with
    | some flags => some (aligned ++ [flags] ++ code, aligned.length)
    | none => encodeFat tokens aligned mb numException
  else encodeFat tokens aligned mb numException

/-- The methods whose code is elsewhere. -/
def ReflectionMethodBuilder.withoutCode (mb : ReflectionMethodBuilder Class Local) : Prop :=
  mb.attrs &&& (methodAttributePinvokeImpl ||| methodAttributeAbstract) ≠ 0 ∨
    mb.iattrs &&& (methodImplAttributeInternalCall ||| methodImplAttributeRuntime) ≠ 0

instance (mb : ReflectionMethodBuilder Class Local) : Decidable mb.withoutCode :=
  inferInstanceAs (Decidable (_ ∨ _))

/-- `method_encode_code`; the result is the stream afterwards and the distance from its start. -/
def methodEncodeCode (stream : List Byte) (mb : ReflectionMethodBuilder Class Local) :
    Option (List Byte × Nat) :=
  if mb.withoutCode then some (stream, 0)
  else
    match mb.body with
    | .missing => none
    | _ => encodeBody tokens stream mb

/-! ### Reading -/

/-- `MonoMethodHeader`; `code` holds the `code_size` bytes at the pointer. -/
structure MonoMethodHeader (Class Local : Type) where
  code : List Byte
  maxStack : BitVec 16
  initLocals : Bool
  locals : List Local
  clauses : List (MonoExceptionClause Class)

/-- The data of a clause from its last word. -/
def parseData (flags value : BitVec 32) : ClauseData Class :=
  if flags = monoExceptionClauseFilter then .ofOffset value
  else if flags = monoExceptionClauseNone then
    if value ≠ 0 then ((tokens.classGet value).map ClauseData.catchClass).getD .null else .null
  else .null

/-- A clause of the fat format. -/
def parseFatClause (mem : List Byte) (p : Nat) : Option (MonoExceptionClause Class) := do
  let flags ← read32 mem p
  let tryOffset ← read32 mem (p + 4)
  let tryLen ← read32 mem (p + 8)
  let handlerOffset ← read32 mem (p + 12)
  let handlerLen ← read32 mem (p + 16)
  let value ← read32 mem (p + 20)
  pure ⟨flags, tryOffset, tryLen, handlerOffset, handlerLen, parseData tokens flags value⟩

/-- A clause of the small format. -/
def parseSmallClause (mem : List Byte) (p : Nat) : Option (MonoExceptionClause Class) := do
  let flags ← read16 mem p
  let tryOffset ← read16 mem (p + 2)
  let tryLen ← mem[p + 4]?
  let handlerOffset ← read16 mem (p + 5)
  let handlerLen ← mem[p + 7]?
  let value ← read32 mem (p + 8)
  pure ⟨flags.setWidth 32, tryOffset.setWidth 32, tryLen.setWidth 32, handlerOffset.setWidth 32,
    handlerLen.setWidth 32, parseData tokens (flags.setWidth 32) value⟩

/-- A clause of a section. -/
def parseClause (mem : List Byte) (isFat : Bool) (p : Nat) : Option (MonoExceptionClause Class) :=
  if isFat then parseFatClause tokens mem p else parseSmallClause tokens mem p

/-- The clauses of a section. -/
def parseClauses (mem : List Byte) (isFat : Bool) : Nat → Nat → Option (List (MonoExceptionClause Class))
  | 0, _ => some []
  | n + 1, p => do
      let clause ← parseClause tokens mem isFat p
      let clauses ← parseClauses mem isFat n (if isFat then p + 24 else p + 12)
      pure (clause :: clauses)

/-- `sect_data_len`. -/
def sectDataLen (mem : List Byte) (ptr : Nat) (isFat : Bool) : Option (BitVec 32) := do
  let b0 ← mem[ptr]?
  if isFat then
    let b1 ← mem[ptr + 1]?
    let b2 ← mem[ptr + 2]?
    pure (b2.setWidth 32 <<< 16 ||| b1.setWidth 32 <<< 8 ||| b0.setWidth 32)
  else pure (b0.setWidth 32)

/-- `mh->num_clauses`, a field of 15 bits. -/
def numClauses (len : BitVec 32) (isFat : Bool) : BitVec 15 :=
  BitVec.ofNat 15 (if isFat then len.toNat / 24 else len.toNat / 12)

/-- The clauses of the method after a section of this size, whose header ends at `ptr`. -/
def sectionClauses (mem : List Byte) (ptr : Nat) (flags : Byte) (len : BitVec 32)
    (clauses : List (MonoExceptionClause Class)) : Option (List (MonoExceptionClause Class)) :=
  let isFat : Bool := flags &&& 0x40 ≠ 0
  if flags &&& 0x01 ≠ 0 then
    parseClauses tokens mem isFat (numClauses len isFat).toNat (dwordAlign ptr)
  else some clauses

/-- A section from its flags on: the clauses of the method after it, and what its size is. -/
def parseSection (mem : List Byte) (start : Nat) (flags : Byte) (clauses : List (MonoExceptionClause Class)) :
    Option (List (MonoExceptionClause Class) × BitVec 32) := do
  let isFat : Bool := flags &&& 0x40 ≠ 0
  let len ← sectDataLen mem (start + 1) isFat
  let clauses ← sectionClauses tokens mem (if isFat then start + 4 else start + 2) flags len clauses
  pure (clauses, len)

theorem le_dwordAlign (ptr : Nat) : ptr ≤ dwordAlign ptr := by
  unfold dwordAlign
  omega

/-- `parse_section_data`, with the clauses that are set so far. -/
def parseSectionData (mem : List Byte) (ptr : Nat) (clauses : List (MonoExceptionClause Class)) :
    Option (List (MonoExceptionClause Class)) :=
  let start := dwordAlign ptr
  if inside : start < mem.length then
    let flags := mem[start]
    match parseSection tokens mem start flags clauses with
    | none => none
    | some (clauses, len) =>
        if flags &&& 0x80 ≠ 0 then
          parseSectionData mem ((if flags &&& 0x40 ≠ 0 then start + 4 else start + 2) + (len - 4).toNat) clauses
        else some clauses
  else none
termination_by mem.length - ptr
decreasing_by
  have later := le_dwordAlign ptr
  split <;> omega

/-- The locals of a header with this token. -/
def parseLocals (localVarSigTok : BitVec 32) : Option (List Local) :=
  if localVarSigTok ≠ 0 then tokens.localsOfRow (localVarSigTok &&& 0xffffff) else some []

/-- The clauses of a fat header whose code ends at `ptr`. -/
def parseMoreSects (mem : List Byte) (ptr : Nat) (fatFlags : BitVec 16) :
    Option (List (MonoExceptionClause Class)) :=
  if fatFlags &&& 0x08 ≠ 0 then parseSectionData tokens mem ptr [] else some []

/-- A fat header. -/
def parseFat (mem : List Byte) (ptr : Nat) : Option (MonoMethodHeader Class Local) := do
  let fatFlags ← read16 mem ptr
  let maxStack ← read16 mem (ptr + 2)
  let codeSize ← read32 mem (ptr + 4)
  let localVarSigTok ← read32 mem (ptr + 8)
  let locals ← parseLocals tokens localVarSigTok
  let code := ptr + 12
  let clauses ← parseMoreSects tokens mem (code + codeSize.toNat) fatFlags
  pure ⟨(mem.drop code).take codeSize.toNat, maxStack, fatFlags &&& 0x10 ≠ 0, locals, clauses⟩

/-- `mono_metadata_parse_mh_full`. -/
def parseMhFull (mem : List Byte) (ptr : Nat) : Option (MonoMethodHeader Class Local) := do
  let flags ← mem[ptr]?
  let format := flags &&& 0x3
  if format = 0x2 then
    pure ⟨(mem.drop (ptr + 1)).take (flags >>> 2).toNat, 8, false, [], []⟩
  else if format = 0x3 then parseFat tokens mem ptr
  else none

/-! ### The summary -/

/-- `MonoMethodHeaderSummary`. -/
structure MonoMethodHeaderSummary where
  codeSize : BitVec 32
  hasClauses : Bool

/-- What the summary looks at of a method: its attributes, the header of one that is in a dynamic image or has its
header already, as it is made there, and whether the verifier accepts the header in the image. -/
structure SummarizedMethod (Class Local : Type) where
  flags : BitVec 32
  iflags : BitVec 32
  header : Option (Option (MonoMethodHeader Class Local))
  verified : Bool

/-- The summary of the header at an address. -/
def mappedSummary (mem : List Byte) (ptr : Nat) : Option MonoMethodHeaderSummary := do
  let flags ← mem[ptr]?
  let format := flags &&& 0x3
  if format = 0x2 then pure ⟨(flags >>> 2).setWidth 32, false⟩
  else if format = 0x3 then
    let fatFlags ← read16 mem ptr
    let codeSize ← read32 mem (ptr + 4)
    pure ⟨codeSize, fatFlags &&& 0x08 ≠ 0⟩
  else none

/-- `mono_method_get_header_summary`. -/
def monoMethodGetHeaderSummary (method : SummarizedMethod Class Local) (mem : List Byte) (ptr : Nat) :
    Option MonoMethodHeaderSummary :=
  if method.flags &&& methodAttributeAbstract ≠ 0 ∨ method.iflags &&& methodImplAttributeRuntime ≠ 0 ∨
      method.iflags &&& methodImplAttributeInternalCall ≠ 0 ∨ method.flags &&& methodAttributePinvokeImpl ≠ 0 then none
  else
    match method.header with
    | some header => header.map fun mh => ⟨BitVec.ofNat 32 mh.code.length, !mh.clauses.isEmpty⟩
    | none => if method.verified then mappedSummary mem ptr else none

/-- A method whose body is in the image. -/
structure SummarizedMethod.Mapped (method : SummarizedMethod Class Local) : Prop where
  flags : method.flags &&& (methodAttributeAbstract ||| methodAttributePinvokeImpl) = 0
  iflags : method.iflags &&& (methodImplAttributeRuntime ||| methodImplAttributeInternalCall) = 0
  header : method.header = none
  verified : method.verified = true

/-- The header at an address: where its code starts and how long that is, and whether sections follow. -/
def headerLayout (mem : List Byte) (ptr : Nat) : Option (Nat × Nat × Bool) := do
  let flags ← mem[ptr]?
  if flags &&& 0x3 = 0x2 then pure (ptr + 1, (flags >>> 2).toNat, false)
  else
    let fatFlags ← read16 mem ptr
    let codeSize ← read32 mem (ptr + 4)
    pure (ptr + 12, codeSize.toNat, fatFlags &&& 0x08 ≠ 0)

/-- Whether the last of the sections with clauses from `ptr` on has one; `seen` is what the sections before say. -/
def endsWithClauses (mem : List Byte) (ptr : Nat) (seen : Bool) : Bool :=
  let start := dwordAlign ptr
  if inside : start < mem.length then
    let flags := mem[start]
    let isFat : Bool := flags &&& 0x40 ≠ 0
    match sectDataLen mem (start + 1) isFat with
    | none => seen
    | some len =>
        let seen : Bool := if flags &&& 0x01 ≠ 0 then numClauses len isFat ≠ 0 else seen
        if flags &&& 0x80 ≠ 0 then
          endsWithClauses mem ((if flags &&& 0x40 ≠ 0 then start + 4 else start + 2) + (len - 4).toNat) seen
        else seen
  else seen
termination_by mem.length - ptr
decreasing_by
  have later := le_dwordAlign ptr
  split <;> omega

/-! ### What is read back -/

/-- The token of a type denotes the type it was made from. -/
structure Tokens.ResolveTypes : Prop where
  typedefOrRef_ne : ∀ klass, tokens.typedefOrRef klass ≠ 0
  classGet : ∀ klass, tokens.classGet (tokens.typedefOrRef klass) = some klass

/-- The row that is written for the locals is one of a table, and denotes them. -/
structure Tokens.ResolveLocals (locals : List Local) : Prop where
  row : (tokens.encodeLocals locals).toNat < 2 ^ 24
  localsOfRow : tokens.localsOfRow (tokens.encodeLocals locals) = some locals

/-- A header agrees with the body it was written for. -/
structure MonoMethodHeader.Agrees (mh : MonoMethodHeader Class Local) (mb : ReflectionMethodBuilder Class Local) :
    Prop where
  code : mh.code = mb.body.codeBytes
  maxStack : mb.body.maxStack.toNat ≤ mh.maxStack.toNat
  initLocals : mb.body.locals ≠ [] → mh.initLocals = mb.initLocals
  clauses : mh.clauses = methodEncodeClauses mb.body.exHandlers

/-- The body is written, and read back whatever is appended to the stream later. -/
def RoundTrips (stream : List Byte) (mb : ReflectionMethodBuilder Class Local) : Prop :=
  ∃ stream' idx, methodEncodeCode tokens stream mb = some (stream', idx) ∧
    ∀ later, ∃ mh, parseMhFull tokens (stream' ++ later) idx = some mh ∧ mh.Agrees mb

/-- All blocks have handlers, the header has room for the number of clauses, and only the handlers that catch have a
type. -/
structure ClausesFit (infos : List (MonoILExceptionInfo Class)) : Prop where
  handlers : ∀ info ∈ infos, info.handlers ≠ none
  count : countClauses infos < 2 ^ 15
  extype : ∀ info ∈ infos, ∀ handlers, info.handlers = some handlers →
    ∀ block ∈ handlers, block.extype ≠ none → block.type = monoExceptionClauseNone

end MonoRuntime.MethodBody
