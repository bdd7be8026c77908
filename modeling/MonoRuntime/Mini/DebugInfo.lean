/-
Module: MonoRuntime.Mini.DebugInfo
Purpose: The debug info of AOT-compiled methods in `mini/debug-mini.c`: the positions, variable locations
  and line numbers of a method are packed into a buffer when it is compiled, and unpacked when its code is
  loaded. A failed assertion aborts the process and is the result `none`.
Trusted boundary: human-reviewed translation of the source
Main exports: MonoDebugMethodJitInfo
-/
import MonoRuntime.Lib.Leb128
import MonoRuntime.Lib.Reader

namespace MonoRuntime.DebugInfo

open Reader

/-! ### Records -/

/-- The location of a variable; the upper four bits of `index` are the mode. -/
structure MonoDebugVarInfo where
  index : BitVec 32
  offset : BitVec 32
deriving DecidableEq, Repr

structure MonoDebugLineNumberEntry where
  ilOffset : BitVec 32
  nativeOffset : BitVec 32
deriving DecidableEq, Repr

/-- The record of a method; its counts `num_params`, `num_locals` and `num_line_numbers` are the lengths of
the arrays. -/
structure MonoDebugMethodJitInfo where
  codeStart : Nat
  codeSize : BitVec 32
  prologueEnd : BitVec 32
  epilogueBegin : BitVec 32
  lineNumbers : List MonoDebugLineNumberEntry
  thisVar : Option MonoDebugVarInfo
  params : List MonoDebugVarInfo
  locals : List MonoDebugVarInfo
deriving DecidableEq, Repr

/-- What the signature and the header of a method say; both counts are `guint16`. -/
structure MonoMethod where
  paramCount : BitVec 16
  hasthis : Bool
  numLocals : BitVec 16

def monoDebugVarAddressModeFlags : BitVec 32 := 0xf0000000
def monoDebugVarAddressModeRegister : BitVec 32 := 0
def monoDebugVarAddressModeRegoffset : BitVec 32 := 0x10000000
def monoDebugVarAddressModeDead : BitVec 32 := 0x30000000

/-! ### Writing -/

/-- The last eight bits, as a byte. -/
def lowByte (value : BitVec 32) : Byte :=
  value.setWidth 8

/-- `encode_value`; the shifts of a `gint32` keep its sign. -/
def encodeValue (value : BitVec 32) : List Byte :=
  if 0 ≤ value.toInt ∧ value.toInt ≤ 127 then [lowByte value]
  else if 0 ≤ value.toInt ∧ value.toInt ≤ 16383 then
    [lowByte (0x80 ||| value.sshiftRight 8), lowByte (value &&& 0xff)]
  else if 0 ≤ value.toInt ∧ value.toInt ≤ 0x1fffffff then
    [lowByte (value.sshiftRight 24 ||| 0xc0), lowByte (value.sshiftRight 16 &&& 0xff),
      lowByte (value.sshiftRight 8 &&& 0xff), lowByte (value &&& 0xff)]
  else
    [0xff, lowByte (value.sshiftRight 24 &&& 0xff), lowByte (value.sshiftRight 16 &&& 0xff),
      lowByte (value.sshiftRight 8 &&& 0xff), lowByte (value &&& 0xff)]

/-- `serialize_variable`. -/
def serializeVariable (var : MonoDebugVarInfo) : Option (List Byte) :=
  let flags := var.index &&& monoDebugVarAddressModeFlags
  if flags = monoDebugVarAddressModeRegister then some (encodeValue var.index)
  else if flags = monoDebugVarAddressModeRegoffset then
    some (encodeValue var.index ++ encodeValue var.offset)
  else if flags = monoDebugVarAddressModeDead then some (encodeValue var.index)
  else none

/-- The variables of an array. -/
def serializeVariables : List MonoDebugVarInfo → Option (List Byte)
  | [] => some []
  | var :: vars => do
      let bytes ← serializeVariable var
      let rest ← serializeVariables vars
      pure (bytes ++ rest)

/-- The variable `this` of a method that has one; its record must not be `NULL`. -/
def serializeThis (method : MonoMethod) (jit : MonoDebugMethodJitInfo) : Option (List Byte) :=
  if method.hasthis then jit.thisVar.bind serializeVariable else some []

/-- The line numbers; each entry is written as the difference to the one before. -/
def serializeLines (prevOffset prevNativeOffset : BitVec 32) : List MonoDebugLineNumberEntry → List Byte
  | [] => []
  | lne :: lines =>
      encodeValue (lne.ilOffset - prevOffset) ++ encodeValue (lne.nativeOffset - prevNativeOffset) ++
        serializeLines lne.ilOffset lne.nativeOffset lines

/-- The `guint32` that is the size of the buffer. -/
def bufferSize (jit : MonoDebugMethodJitInfo) : BitVec 32 :=
  (BitVec.ofNat 32 jit.params.length + BitVec.ofNat 32 jit.locals.length + 1) * 10 +
    BitVec.ofNat 32 jit.lineNumbers.length * 10 + 64

/-- What `mono_debug_serialize_debug_info` writes. -/
def writeDebugInfo (method : MonoMethod) (jit : MonoDebugMethodJitInfo) : Option (List Byte) := do
  let params ← serializeVariables jit.params
  let this ← serializeThis method jit
  let locals ← serializeVariables jit.locals
  pure (encodeValue jit.epilogueBegin ++ encodeValue jit.prologueEnd ++ encodeValue jit.codeSize ++
    params ++ this ++ locals ++ encodeValue (BitVec.ofNat 32 jit.lineNumbers.length) ++
    serializeLines 0 0 jit.lineNumbers)

/-- `mono_debug_serialize_debug_info`: the last assertion says that the buffer was large enough. -/
def monoDebugSerializeDebugInfo (method : MonoMethod) (jit : MonoDebugMethodJitInfo) :
    Option (List Byte) := do
  let buf ← writeDebugInfo method jit
  if buf.length < (bufferSize jit).toNat then pure buf else none

/-! ### Reading -/

/-- A byte as a `gint32`. -/
def wide (b : Byte) : BitVec 32 :=
  b.setWidth 32

/-- `decode_value`. -/
def decodeValue : Reader Byte (BitVec 32) := do
  let b ← next
  if b &&& 0x80 = 0 then pure (wide b)
  else if b &&& 0x40 = 0 then do
    let b1 ← next
    pure ((wide b &&& 0x3f) <<< 8 ||| wide b1)
  else if b ≠ 0xff then do
    let b1 ← next
    let b2 ← next
    let b3 ← next
    pure ((wide b &&& 0x1f) <<< 24 ||| wide b1 <<< 16 ||| wide b2 <<< 8 ||| wide b3)
  else do
    let b1 ← next
    let b2 ← next
    let b3 ← next
    let b4 ← next
    pure (wide b1 <<< 24 ||| wide b2 <<< 16 ||| wide b3 <<< 8 ||| wide b4)

/-- `deserialize_variable`; the record is zero before. -/
def deserializeVariable : Reader Byte MonoDebugVarInfo := do
  let index ← decodeValue
  let flags := index &&& monoDebugVarAddressModeFlags
  if flags = monoDebugVarAddressModeRegister then pure ⟨index, 0⟩
  else if flags = monoDebugVarAddressModeRegoffset then do
    let offset ← decodeValue
    pure ⟨index, offset⟩
  else if flags = monoDebugVarAddressModeDead then pure ⟨index, 0⟩
  else fail

/-- The variable `this` of a method that has one. -/
def deserializeThis (method : MonoMethod) : Reader Byte (Option MonoDebugVarInfo) :=
  if method.hasthis then do
    let var ← deserializeVariable
    pure (some var)
  else pure none

/-- The line numbers, of which `n` are left. -/
def deserializeLines (prevOffset prevNativeOffset : BitVec 32) :
    Nat → Reader Byte (List MonoDebugLineNumberEntry)
  | 0 => pure []
  | n + 1 => do
      let offsetDelta ← decodeValue
      let nativeDelta ← decodeValue
      let lne : MonoDebugLineNumberEntry := ⟨prevOffset + offsetDelta, prevNativeOffset + nativeDelta⟩
      let lines ← deserializeLines lne.ilOffset lne.nativeOffset n
      pure (lne :: lines)

/-- `deserialize_debug_info`, with what it leaves of the buffer. -/
def deserializeDebugInfo (method : MonoMethod) (codeStart : Nat) : Reader Byte MonoDebugMethodJitInfo := do
  let epilogueBegin ← decodeValue
  let prologueEnd ← decodeValue
  let codeSize ← decodeValue
  let params ← many deserializeVariable method.paramCount.toNat
  let thisVar ← deserializeThis method
  let locals ← many deserializeVariable method.numLocals.toNat
  let numLineNumbers ← decodeValue
  let lineNumbers ← deserializeLines 0 0 numLineNumbers.toNat
  pure ⟨codeStart, codeSize, prologueEnd, epilogueBegin, lineNumbers, thisVar, params, locals⟩

/-! ### What the records say -/

/-- Where a variable is. -/
inductive Location where
  | register (index : BitVec 32)
  | regOffset (index offset : BitVec 32)
  | dead (index : BitVec 32)
deriving DecidableEq, Repr

/-- The location that a record describes; the offset matters in one mode only. -/
def MonoDebugVarInfo.location (var : MonoDebugVarInfo) : Option Location :=
  let flags := var.index &&& monoDebugVarAddressModeFlags
  if flags = monoDebugVarAddressModeRegister then some (.register var.index)
  else if flags = monoDebugVarAddressModeRegoffset then some (.regOffset var.index var.offset)
  else if flags = monoDebugVarAddressModeDead then some (.dead var.index)
  else none

/-- The record is one that `mono_debug_close_method` makes for the method: the counts are those of the
signature and the header, and every variable has a location. -/
structure RecordOf (method : MonoMethod) (jit : MonoDebugMethodJitInfo) : Prop where
  params : jit.params.length = method.paramCount.toNat
  locals : jit.locals.length = method.numLocals.toNat
  thisVar : jit.thisVar.isSome = method.hasthis
  lines : jit.lineNumbers.length < 2 ^ 32
  located : ∀ var, var ∈ jit.params ∨ var ∈ jit.thisVar ∨ var ∈ jit.locals → var.location.isSome

/-- The two records say the same about the code. -/
structure SameDebugInfo (jit jit' : MonoDebugMethodJitInfo) : Prop where
  prologueEnd : jit'.prologueEnd = jit.prologueEnd
  epilogueBegin : jit'.epilogueBegin = jit.epilogueBegin
  codeSize : jit'.codeSize = jit.codeSize
  params : jit'.params.map MonoDebugVarInfo.location = jit.params.map MonoDebugVarInfo.location
  thisVar : jit'.thisVar.map MonoDebugVarInfo.location = jit.thisVar.map MonoDebugVarInfo.location
  locals : jit'.locals.map MonoDebugVarInfo.location = jit.locals.map MonoDebugVarInfo.location
  lineNumbers : jit'.lineNumbers = jit.lineNumbers

/-- The record is written into the buffer, and what is written is read back as it was, up to its end. -/
def RoundTrips (method : MonoMethod) (jit : MonoDebugMethodJitInfo) : Prop :=
  ∃ buf, monoDebugSerializeDebugInfo method jit = some buf ∧ buf.length ≤ (bufferSize jit).toNat ∧
    ∀ codeStart, ∃ jit', Reads (deserializeDebugInfo method codeStart) buf jit' ∧ SameDebugInfo jit jit'

/-! ### The size of the buffer -/

/-- The size of the buffer, before it is cut to 32 bits. -/
def wantedSize (jit : MonoDebugMethodJitInfo) : Nat :=
  (jit.params.length + jit.locals.length + 1) * 10 + jit.lineNumbers.length * 10 + 64

/-- The bytes a value takes: values up to 127, up to 16383, up to `0x1fffffff`, and all others. -/
def valueBytes (value : BitVec 32) : Nat :=
  if value.toNat ≤ 127 then 1
  else if value.toNat ≤ 16383 then 2
  else if value.toNat ≤ 0x1fffffff then 4
  else 5

def variableBytes (var : MonoDebugVarInfo) : Nat :=
  if var.index &&& monoDebugVarAddressModeFlags = monoDebugVarAddressModeRegoffset then
    valueBytes var.index + valueBytes var.offset
  else valueBytes var.index

def lineBytes (prevOffset prevNativeOffset : BitVec 32) : List MonoDebugLineNumberEntry → Nat
  | [] => 0
  | lne :: lines =>
      valueBytes (lne.ilOffset - prevOffset) + valueBytes (lne.nativeOffset - prevNativeOffset) +
        lineBytes lne.ilOffset lne.nativeOffset lines

/-- The bytes that the values of a record take. -/
def recordBytes (jit : MonoDebugMethodJitInfo) : Nat :=
  valueBytes jit.epilogueBegin + valueBytes jit.prologueEnd + valueBytes jit.codeSize +
    (jit.params.map variableBytes).sum + (jit.thisVar.map variableBytes).getD 0 +
    (jit.locals.map variableBytes).sum + valueBytes (BitVec.ofNat 32 jit.lineNumbers.length) +
    lineBytes 0 0 jit.lineNumbers

/-- The size of the buffer is not cut to 32 bits, or the values of the record are so short that they fit
into what is left of it. -/
def BufferSuffices (jit : MonoDebugMethodJitInfo) : Prop :=
  wantedSize jit < 2 ^ 32 ∨ recordBytes jit < wantedSize jit % 2 ^ 32

end MonoRuntime.DebugInfo
