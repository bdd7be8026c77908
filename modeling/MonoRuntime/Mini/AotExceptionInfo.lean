/-
Module: MonoRuntime.Mini.AotExceptionInfo
Purpose: The jit info of AOT-compiled methods: `emit_exception_debug_info` of `mini/aot-compiler.c` writes the exception
  clauses, the generic info, the sequence points and the debug info of a method, and `decode_exception_debug_info` of
  `mini/aot-runtime.c` reads them when its code is loaded. A failed assertion is the result `none`.
Trusted boundary: human-reviewed translation of the source; differences of offsets are taken modulo 2^32
Main exports: MonoCompile
-/
import MonoRuntime.Mini.AotRefs

namespace MonoRuntime.AotRefs

open Reader
open DebugInfo (encodeValue decodeValue)

/-! ### Records -/

/-- `MONO_EXCEPTION_CLAUSE_FILTER`. -/
def monoExceptionClauseFilter : BitVec 32 := 1

/-- The union `data` of an exception clause; the filter is an address. -/
inductive ClauseData where
  | filter (address : Int)
  | catchClass (klass : Option MonoClass)
deriving DecidableEq

/-- Which member of the union is in use. -/
def ClauseData.isFilter : ClauseData → Bool
  | .filter _ => true
  | .catchClass _ => false

/-- `MonoJitExceptionInfo`. The flags say which member of the union is in use. -/
structure MonoJitExceptionInfo where
  flags : BitVec 32
  exvarOffset : BitVec 32
  tryStart : Int
  tryEnd : Int
  handlerStart : Int
  data : ClauseData
  union : data.isFilter = decide (flags = monoExceptionClauseFilter)
deriving DecidableEq

/-- `MonoGenericJitInfo`. -/
structure MonoGenericJitInfo where
  thisOffset : BitVec 32
  thisReg : BitVec 8
  hasThis : Bool
  thisInReg : Bool
deriving DecidableEq

/-- `SeqPoint`; the number of successors is an `int`. -/
structure SeqPoint where
  ilOffset : BitVec 32
  nativeOffset : BitVec 32
  next : List (BitVec 32)
  nextLen : next.length < 2 ^ 31
deriving DecidableEq

/-- What `emit_exception_debug_info` uses of a `MonoCompile` and of the jit info and the header in it. The offset is that
of the unwind info, where unwind ops are used; the number of clauses of the header and of the jit info have 15 bits. -/
structure MonoCompile where
  nativeCode : Int
  codeSize : BitVec 32
  usedRegs : BitVec 32
  unwindInfoOffset : Option (BitVec 32)
  compileLlvm : Bool
  headerNumClauses : BitVec 15
  clauses : List MonoJitExceptionInfo
  genericInfo : Option MonoGenericJitInfo
  method : MonoMethod
  seqPoints : Option (List SeqPoint)
  debugInfo : List Byte
  numClauses : clauses.length < 2 ^ 15
  seqPointsLen : ∀ points ∈ seqPoints, points.length < 2 ^ 31
  debugInfoSize : debugInfo.length < 2 ^ 32

/-! ### Writing -/

/-- `(gint)(address - code)`. -/
def relative (code address : Int) : BitVec 32 :=
  BitVec.ofInt 32 (address - code)

/-- A bit of the flags. -/
def flagBit (set : Bool) (bit : BitVec 32) : BitVec 32 :=
  if set then bit else 0

/-- The flags in front of the info; that there are clauses is taken from the header. -/
def infoFlags (cfg : MonoCompile) : BitVec 32 :=
  flagBit cfg.genericInfo.isSome 1 ||| flagBit cfg.unwindInfoOffset.isSome 2 |||
    flagBit (decide (cfg.headerNumClauses ≠ 0)) 4 ||| flagBit cfg.seqPoints.isSome 8 ||| flagBit cfg.compileLlvm 16

/-- The unwind info or the registers. -/
def unwindOrRegs (cfg : MonoCompile) : BitVec 32 :=
  cfg.unwindInfoOffset.getD cfg.usedRegs

section Writer

variable (acfg : MonoAotCompile)

/-- The filter or the catch class of a clause. -/
def writeClauseData (code : Int) : ClauseData → Option (List Byte)
  | .filter address => some (encodeValue (relative code address))
  | .catchClass none => some (encodeValue 0)
  | .catchClass (some klass) => (encodeKlassRef acfg klass).map fun bytes => encodeValue 1 ++ bytes

/-- An exception clause. -/
def writeClause (code : Int) (ei : MonoJitExceptionInfo) : Option (List Byte) :=
  (writeClauseData acfg code ei.data).map fun data =>
    encodeValue ei.flags ++ (encodeValue ei.exvarOffset ++ (data ++ (encodeValue (relative code ei.tryStart) ++
      (encodeValue (relative code ei.tryEnd) ++ encodeValue (relative code ei.handlerStart)))))

/-- The exception clauses. -/
def writeClauses (code : Int) : List MonoJitExceptionInfo → Option (List Byte)
  | [] => some []
  | ei :: clauses => do
      let first ← writeClause acfg code ei
      let rest ← writeClauses code clauses
      pure (first ++ rest)

/-- `if (jinfo->num_clauses)`. -/
def writeNumClauses (clauses : List MonoJitExceptionInfo) : List Byte :=
  if clauses.length = 0 then [] else encodeValue (BitVec.ofNat 32 clauses.length)

/-- The generic info, with the method of the jit info. -/
def writeGenericInfo (method : MonoMethod) : Option MonoGenericJitInfo → Option (List Byte)
  | none => some []
  | some gi =>
      (encodeMethodRef acfg method).map fun bytes =>
        encodeValue (if gi.hasThis then 1 else 0) ++ (encodeValue (gi.thisReg.setWidth 32) ++
          (encodeValue gi.thisOffset ++ bytes))

/-- The sequence points, each as the difference to the one before. -/
def writeSeqPointList (lastIlOffset lastNativeOffset : BitVec 32) : List SeqPoint → List Byte
  | [] => []
  | sp :: points =>
      encodeValue (sp.ilOffset - lastIlOffset) ++ (encodeValue (sp.nativeOffset - lastNativeOffset) ++
        (encodeValue (BitVec.ofNat 32 sp.next.length) ++ (sp.next.flatMap encodeValue ++
          writeSeqPointList sp.ilOffset sp.nativeOffset points)))

/-- The sequence points with their number. -/
def writeSeqPoints : Option (List SeqPoint) → List Byte
  | none => []
  | some points => encodeValue (BitVec.ofNat 32 points.length) ++ writeSeqPointList 0 0 points

/-- The debug info with its size. -/
def writeDebugInfo (debugInfo : List Byte) : List Byte :=
  encodeValue (BitVec.ofNat 32 debugInfo.length) ++ debugInfo

/-- What is written behind the clauses. -/
def writeTail (cfg : MonoCompile) : Option (List Byte) :=
  (writeGenericInfo acfg cfg.method cfg.genericInfo).map fun generic =>
    generic ++ (writeSeqPoints cfg.seqPoints ++ writeDebugInfo cfg.debugInfo)

/-- What `emit_exception_debug_info` writes into its buffer. -/
def writeExceptionDebugInfo (cfg : MonoCompile) : Option (List Byte) := do
  let clauses ← writeClauses acfg cfg.nativeCode cfg.clauses
  let tail ← writeTail acfg cfg
  pure (encodeValue cfg.codeSize ++ (encodeValue (infoFlags cfg) ++ (encodeValue (unwindOrRegs cfg) ++
    (writeNumClauses cfg.clauses ++ (clauses ++ tail)))))

/-- `buf_size`. -/
def infoBufSize (cfg : MonoCompile) : BitVec 32 :=
  cfg.headerNumClauses.setWidth 32 * 256 + BitVec.ofNat 32 cfg.debugInfo.length + 1024 +
    (match cfg.seqPoints with
    | none => 0
    | some points => BitVec.ofNat 32 points.length * 64)

/-- `emit_exception_debug_info`: the assertions say that the buffer was large enough. -/
def emitExceptionDebugInfo (cfg : MonoCompile) : Option (List Byte) := do
  let buf ← writeExceptionDebugInfo acfg cfg
  if cfg.debugInfo.length < (infoBufSize cfg).toNat ∧ (buf.length : Int) < (infoBufSize cfg).toInt then pure buf
  else none

end Writer

/-! ### Reading -/

/-- What `decode_exception_debug_info` leaves in the jit info and hands on. -/
structure LoadedInfo where
  codeSize : BitVec 32
  usedRegs : BitVec 32
  clauses : List MonoJitExceptionInfo
  genericInfo : Option MonoGenericJitInfo
  method : MonoMethod
  seqPoints : Option (List SeqPoint)
  debugInfo : List Byte
deriving DecidableEq

/-- An address at an offset that is read. -/
def decodeAddress (code : Int) : Reader Byte Int := do
  let offset ← decodeValue
  pure (code + offset.toInt)

/-- A number that is read into an `int`; no array has a negative one. -/
def decodeCount : Reader Byte Nat := do
  let count ← decodeValue
  if count.toInt < 0 then fail else pure count.toNat

section Reading

variable (amodule : MonoAotModule) (fuel : Nat)

/-- The catch class of a clause. -/
def decodeCatchClass : Reader Byte (Option MonoClass) := do
  let has ← decodeValue
  if has = 0 then pure none
  else do
    let klass ← decodeKlassRef amodule fuel
    pure (some klass)

/-- The addresses of a clause. -/
def decodeClauseEnd (code : Int) (flags exvarOffset : BitVec 32) (data : ClauseData)
    (union : data.isFilter = decide (flags = monoExceptionClauseFilter)) : Reader Byte MonoJitExceptionInfo := do
  let tryStart ← decodeAddress code
  let tryEnd ← decodeAddress code
  let handlerStart ← decodeAddress code
  pure { flags, exvarOffset, tryStart, tryEnd, handlerStart, data, union }

/-- An exception clause. -/
def decodeClause (code : Int) : Reader Byte MonoJitExceptionInfo := do
  let flags ← decodeValue
  let exvarOffset ← decodeValue
  if h : flags = monoExceptionClauseFilter then do
    let address ← decodeAddress code
    decodeClauseEnd code flags exvarOffset (.filter address) (decide_eq_true h).symm
  else do
    let klass ← decodeCatchClass amodule fuel
    decodeClauseEnd code flags exvarOffset (.catchClass klass) (decide_eq_false h).symm

/-- The exception clauses, whose number is there if the flags say so. -/
def decodeClauses (hasClauses : Bool) (code : Int) : Reader Byte (List MonoJitExceptionInfo) :=
  if hasClauses then do
    let numClauses ← decodeCount
    many (decodeClause amodule fuel code) numClauses
  else pure []

/-- The generic info and the method that belongs to it. The value of `has_this` is stored in one bit, that of `this_reg` in
eight, and `this_in_reg` stays clear. -/
def decodeGenericInfo (hasGenericInfo : Bool) (method : MonoMethod) :
    Reader Byte (Option MonoGenericJitInfo × MonoMethod) :=
  if hasGenericInfo then do
    let hasThis ← decodeValue
    let thisReg ← decodeValue
    let thisOffset ← decodeValue
    let method ← decodeMethodRef2 amodule fuel
    pure (some { thisOffset := thisOffset, thisReg := thisReg.setWidth 8, hasThis := hasThis.getLsbD 0,
                 thisInReg := false }, method)
  else pure (none, method)

/-- The sequence points. -/
def decodeSeqPointList (lastIlOffset lastNativeOffset : BitVec 32) : Nat → Reader Byte (List SeqPoint)
  | 0 => pure []
  | n + 1 => do
      let ilOffset ← decodeValue
      let nativeOffset ← decodeValue
      let nextLen ← decodeCount
      let next ← many decodeValue nextLen
      if h : next.length < 2 ^ 31 then do
        let points ← decodeSeqPointList (lastIlOffset + ilOffset) (lastNativeOffset + nativeOffset) n
        pure ({ ilOffset := lastIlOffset + ilOffset, nativeOffset := lastNativeOffset + nativeOffset, next := next,
                nextLen := h } :: points)
      else fail

/-- The sequence points with their number, if the flags say so. -/
def decodeSeqPoints (hasSeqPoints : Bool) : Reader Byte (Option (List SeqPoint)) :=
  if hasSeqPoints then do
    let len ← decodeCount
    let points ← decodeSeqPointList 0 0 len
    pure (some points)
  else pure none

/-- The debug info with its size. -/
def decodeDebugInfo : Reader Byte (List Byte) := do
  let bufLen ← decodeCount
  many next bufLen

/-- What is read behind the clauses. -/
def decodeTail (flags : BitVec 32) (method : MonoMethod) (codeSize usedRegs : BitVec 32)
    (clauses : List MonoJitExceptionInfo) : Reader Byte LoadedInfo := do
  let generic ← decodeGenericInfo amodule fuel (decide (flags &&& 1 ≠ 0)) method
  let seqPoints ← decodeSeqPoints (decide (flags &&& 8 ≠ 0))
  let debugInfo ← decodeDebugInfo
  pure { codeSize := codeSize, usedRegs := usedRegs, clauses := clauses, genericInfo := generic.1,
         method := generic.2, seqPoints := seqPoints, debugInfo := debugInfo }

/-- The registers, or the offset of the unwind info, which has to be below 2^30. -/
def decodeUsedRegs (flags : BitVec 32) : Reader Byte (BitVec 32) := do
  let usedIntRegs ← decodeValue
  if flags &&& 2 ≠ 0 ∧ ¬ usedIntRegs.toNat < 2 ^ 30 then fail else pure usedIntRegs

/-- `decode_exception_debug_info` for code that is loaded at an address. -/
def decodeExceptionDebugInfo (method : MonoMethod) (code : Int) : Reader Byte LoadedInfo := do
  let codeLen ← decodeValue
  let flags ← decodeValue
  let usedIntRegs ← decodeUsedRegs flags
  let clauses ← decodeClauses amodule fuel (decide (flags &&& 4 ≠ 0)) code
  decodeTail amodule fuel flags method codeLen usedIntRegs clauses

end Reading

/-! ### What is to be restored -/

/-- An address of the code that was written, in the code that is loaded. -/
def relocate (code code' address : Int) : Int :=
  code' + (address - code)

/-- The filter of a clause in the code that is loaded. -/
def ClauseData.relocated (code code' : Int) : ClauseData → ClauseData
  | .filter address => .filter (relocate code code' address)
  | .catchClass klass => .catchClass klass

theorem ClauseData.isFilter_relocated (code code' : Int) (data : ClauseData) :
    (data.relocated code code').isFilter = data.isFilter := by
  cases data <;> rfl

/-- An exception clause in the code that is loaded. -/
def MonoJitExceptionInfo.relocated (code code' : Int) (ei : MonoJitExceptionInfo) : MonoJitExceptionInfo :=
  { flags := ei.flags, exvarOffset := ei.exvarOffset, tryStart := relocate code code' ei.tryStart,
    tryEnd := relocate code code' ei.tryEnd, handlerStart := relocate code code' ei.handlerStart,
    data := ei.data.relocated code code', union := (ei.data.isFilter_relocated code code').trans ei.union }

/-- The info of a method whose code is loaded at an address: what was compiled, moved there. -/
def expectedInfo (cfg : MonoCompile) (method : MonoMethod) (code : Int) : LoadedInfo :=
  { codeSize := cfg.codeSize, usedRegs := unwindOrRegs cfg,
    clauses := cfg.clauses.map (MonoJitExceptionInfo.relocated cfg.nativeCode code),
    genericInfo := cfg.genericInfo, method := if cfg.genericInfo.isSome then cfg.method else method,
    seqPoints := cfg.seqPoints, debugInfo := cfg.debugInfo }

/-- The info is written, and it is read back, whatever comes after it, wherever the code is loaded. -/
def InfoRoundTrips (acfg : MonoAotCompile) (amodule : MonoAotModule) (cfg : MonoCompile) : Prop :=
  ∃ bytes, emitExceptionDebugInfo acfg cfg = some bytes ∧
    ∃ depth, ∀ fuel, depth ≤ fuel → ∀ method code,
      Reads (decodeExceptionDebugInfo amodule fuel method code) bytes (expectedInfo cfg method code)

/-! ### When the code does it right -/

/-- How many bytes a value takes. -/
def valueSize (value : BitVec 32) : Nat :=
  if 0 ≤ value.toInt ∧ value.toInt ≤ 127 then 1
  else if 0 ≤ value.toInt ∧ value.toInt ≤ 16383 then 2
  else if 0 ≤ value.toInt ∧ value.toInt ≤ 0x1fffffff then 4
  else 5

/-- How many bytes a reference takes. -/
def refSize (written : Option (List Byte)) : Nat :=
  (written.getD []).length

def clauseDataSize (acfg : MonoAotCompile) (code : Int) : ClauseData → Nat
  | .filter address => valueSize (relative code address)
  | .catchClass none => valueSize 0
  | .catchClass (some klass) => valueSize 1 + refSize (encodeKlassRef acfg klass)

def clauseSize (acfg : MonoAotCompile) (code : Int) (ei : MonoJitExceptionInfo) : Nat :=
  valueSize ei.flags + valueSize ei.exvarOffset + clauseDataSize acfg code ei.data + valueSize (relative code ei.tryStart) +
    valueSize (relative code ei.tryEnd) + valueSize (relative code ei.handlerStart)

def genericInfoSize (acfg : MonoAotCompile) (method : MonoMethod) : Option MonoGenericJitInfo → Nat
  | none => 0
  | some gi => 1 + valueSize (gi.thisReg.setWidth 32) + valueSize gi.thisOffset + refSize (encodeMethodRef acfg method)

def seqPointsSize (lastIlOffset lastNativeOffset : BitVec 32) : List SeqPoint → Nat
  | [] => 0
  | sp :: points =>
      valueSize (sp.ilOffset - lastIlOffset) + valueSize (sp.nativeOffset - lastNativeOffset) +
        valueSize (BitVec.ofNat 32 sp.next.length) + (sp.next.map valueSize).sum +
        seqPointsSize sp.ilOffset sp.nativeOffset points

def seqPointInfoSize : Option (List SeqPoint) → Nat
  | none => 0
  | some points => valueSize (BitVec.ofNat 32 points.length) + seqPointsSize 0 0 points

def numClausesSize (clauses : List MonoJitExceptionInfo) : Nat :=
  if clauses.length = 0 then 0 else valueSize (BitVec.ofNat 32 clauses.length)

/-- How many bytes the info of a method takes. -/
def infoSize (acfg : MonoAotCompile) (cfg : MonoCompile) : Nat :=
  valueSize cfg.codeSize + valueSize (infoFlags cfg) + valueSize (unwindOrRegs cfg) +
    numClausesSize cfg.clauses + (cfg.clauses.map (clauseSize acfg cfg.nativeCode)).sum +
    genericInfoSize acfg cfg.method cfg.genericInfo + seqPointInfoSize cfg.seqPoints +
    valueSize (BitVec.ofNat 32 cfg.debugInfo.length) + cfg.debugInfo.length

/-- An offset that a `gint` can hold. -/
def Near (code address : Int) : Prop :=
  -2 ^ 31 ≤ address - code ∧ address - code < 2 ^ 31

instance (code address : Int) : Decidable (Near code address) :=
  inferInstanceAs (Decidable (_ ∧ _))

/-- The filter of a clause has an offset that a `gint` can hold, and its catch class can be read back. -/
def ClauseData.Meets (acfg : MonoAotCompile) (code : Int) : ClauseData → Prop
  | .filter address => Near code address
  | .catchClass none => True
  | .catchClass (some klass) => classReadable acfg klass = true

/-- The same for a whole clause. -/
def MonoJitExceptionInfo.Meets (acfg : MonoAotCompile) (code : Int) (ei : MonoJitExceptionInfo) : Prop :=
  Near code ei.tryStart ∧ Near code ei.tryEnd ∧ Near code ei.handlerStart ∧ ei.data.Meets acfg code

/-- The condition on the info of a method: header and jit info agree whether there are clauses, `this` is not in a register
where there is generic info, the references can be read back, the offset of the unwind info is below 2^30, and what is
written fits into the buffer. -/
structure InfoMeets (acfg : MonoAotCompile) (cfg : MonoCompile) : Prop where
  counts : cfg.headerNumClauses ≠ 0 ↔ cfg.clauses ≠ []
  clauses : ∀ ei ∈ cfg.clauses, ei.Meets acfg cfg.nativeCode
  generic : ∀ gi ∈ cfg.genericInfo, gi.thisInReg = false ∧ methodReadable acfg cfg.method = true
  unwind : ∀ offset ∈ cfg.unwindInfoOffset, offset.toNat < 2 ^ 30
  fits : (infoSize acfg cfg : Int) < (infoBufSize cfg).toInt

/-- The jit info has no clauses although the header has some, and the generic info says that there is no `this`: its first
value is read as the number of clauses, which is right by chance. -/
def CountByChance (cfg : MonoCompile) : Prop :=
  cfg.headerNumClauses ≠ 0 ∧ cfg.clauses = [] ∧ ∃ gi ∈ cfg.genericInfo, gi.hasThis = false

end MonoRuntime.AotRefs
