/-
Module: MonoRuntime.Proofs.AotExceptionInfo
Purpose: The jit info of a method is read back from what is written for it if header and jit info agree whether there
  are clauses, nothing in it is lost on the way and the buffer is large enough; otherwise it is not.
Trusted boundary: none
Main exports: exceptionInfo_roundTrips, exceptionInfo_countMissing
-/
import MonoRuntime.Mini.AotExceptionInfo
import MonoRuntime.Proofs.AotRefs

namespace MonoRuntime.AotRefs

open Reader List Option
open DebugInfo (encodeValue decodeValue reads_decodeValue)

variable {acfg : MonoAotCompile} {amodule : MonoAotModule}

/-! ### Numbers and addresses -/

theorem reads_decodeCount {n : Nat} (small : n < 2 ^ 31) : Reads decodeCount (encodeValue (BitVec.ofNat 32 n)) n := by
  have value : (BitVec.ofNat 32 n).toNat = n := ofNat_toNat (by omega)
  have positive : ¬ (BitVec.ofNat 32 n).toInt < 0 := by
    rw [BitVec.toInt_eq_toNat_cond, value, if_pos (by omega)]
    omega
  rw [← append_nil (encodeValue _)]
  refine reads_bind (reads_decodeValue _) ?_
  rw [if_neg positive, value]
  exact reads_pure n

/-- The address that is read for one that was written. -/
def restoredAddress (code code' address : Int) : Int :=
  code' + (relative code address).toInt

theorem reads_decodeAddress (code code' address : Int) :
    Reads (decodeAddress code') (encodeValue (relative code address)) (restoredAddress code code' address) :=
  reads_bind_pure (reads_decodeValue _)

theorem restoredAddress_eq_iff (code code' address : Int) :
    restoredAddress code code' address = relocate code code' address ↔ Near code address := by
  unfold restoredAddress relocate relative Near
  rw [BitVec.toInt_ofInt]
  constructor
  · intro same
    have low := Int.le_bmod (x := address - code) (m := 2 ^ 32) (by decide)
    have high := Int.bmod_lt (x := address - code) (m := 2 ^ 32) (by decide)
    omega
  · rintro ⟨low, high⟩
    rw [Int.bmod_eq_of_le (by omega) (by omega)]

/-! ### Clauses -/

/-- The filter or the catch class that is read. -/
def restoredData (acfg : MonoAotCompile) (code code' : Int) : ClauseData → ClauseData
  | .filter address => .filter (restoredAddress code code' address)
  | .catchClass klass => .catchClass (klass.map (restoredClass acfg))

theorem isFilter_restoredData (code code' : Int) (data : ClauseData) :
    (restoredData acfg code code' data).isFilter = data.isFilter := by
  cases data <;> rfl

/-- The clause that is read. -/
def restoredClause (acfg : MonoAotCompile) (code code' : Int) (ei : MonoJitExceptionInfo) : MonoJitExceptionInfo :=
  { flags := ei.flags, exvarOffset := ei.exvarOffset, tryStart := restoredAddress code code' ei.tryStart,
    tryEnd := restoredAddress code code' ei.tryEnd, handlerStart := restoredAddress code code' ei.handlerStart,
    data := restoredData acfg code code' ei.data,
    union := (isFilter_restoredData code code' ei.data).trans ei.union }

def clauseDepth : ClauseData → Nat
  | .catchClass (some klass) => classDepth klass
  | .catchClass none => 0
  | .filter _ => 0

theorem reads_clauseEnd (code code' : Int) {flags exvarOffset : BitVec 32} {data : ClauseData}
    (union : data.isFilter = decide (flags = monoExceptionClauseFilter)) (tryStart tryEnd handlerStart : Int) :
    Reads (decodeClauseEnd code' flags exvarOffset data union)
      (encodeValue (relative code tryStart) ++ (encodeValue (relative code tryEnd) ++
        encodeValue (relative code handlerStart)))
      { flags := flags, exvarOffset := exvarOffset, tryStart := restoredAddress code code' tryStart,
        tryEnd := restoredAddress code code' tryEnd, handlerStart := restoredAddress code code' handlerStart,
        data := data, union := union } := by
  refine reads_bind (reads_decodeAddress code code' tryStart) ?_
  refine reads_bind (reads_decodeAddress code code' tryEnd) ?_
  exact reads_bind_pure (reads_decodeAddress code code' handlerStart)

variable {fuel : Nat} {bytes symbols rest : List Byte} {code : Int} {cfg : MonoCompile} {method : MonoMethod}
  {loaded : LoadedInfo}

theorem reads_catchClass (resolves : Resolves acfg amodule) {klass : Option MonoClass}
    (written : writeClauseData acfg code (.catchClass klass) = some bytes)
    (deep : clauseDepth (.catchClass klass) ≤ fuel) :
    Reads (decodeCatchClass amodule fuel) bytes (klass.map (restoredClass acfg)) := by
  cases klass with
  | none =>
    cases written
    refine reads_bind (reads_decodeValue 0) ?_
    exact reads_pure _
  | some klass =>
    obtain ⟨inside, is, same⟩ := map_eq_some_iff.1 written
    cases same
    refine reads_bind (reads_decodeValue 1) ?_
    exact reads_bind_pure (reads_klassRef resolves klass fuel is deep)

theorem reads_clause (resolves : Resolves acfg amodule) {ei : MonoJitExceptionInfo} (code' : Int)
    (written : writeClause acfg code ei = some bytes) (deep : clauseDepth ei.data ≤ fuel) :
    Reads (decodeClause amodule fuel code') bytes (restoredClause acfg code code' ei) := by
  obtain ⟨data, is, same⟩ := map_eq_some_iff.1 written
  cases same
  obtain ⟨flags, exvarOffset, tryStart, tryEnd, handlerStart, member, union⟩ := ei
  refine reads_bind (reads_decodeValue flags) ?_
  refine reads_bind (reads_decodeValue exvarOffset) ?_
  cases member with
  | filter address =>
    cases is
    have filter : flags = monoExceptionClauseFilter := of_decide_eq_true union.symm
    rw [dif_pos filter]
    exact reads_bind (reads_decodeAddress code code' address) (reads_clauseEnd code code' _ tryStart tryEnd handlerStart)
  | catchClass klass =>
    have other : ¬ flags = monoExceptionClauseFilter := of_decide_eq_false union.symm
    rw [dif_neg other]
    exact reads_bind (reads_catchClass resolves is deep) (reads_clauseEnd code code' _ tryStart tryEnd handlerStart)

/-- A depth above that of every clause. -/
def clausesDepth : List MonoJitExceptionInfo → Nat
  | [] => 0
  | ei :: clauses => max (clauseDepth ei.data) (clausesDepth clauses)

theorem reads_clauses (resolves : Resolves acfg amodule) (code' : Int) :
    ∀ (clauses : List MonoJitExceptionInfo) {bytes : List Byte},
      writeClauses acfg code clauses = some bytes → clausesDepth clauses ≤ fuel →
        Reads (many (decodeClause amodule fuel code') clauses.length) bytes (clauses.map (restoredClause acfg code code'))
  | [], bytes, written, _ => by
      cases written
      exact reads_pure []
  | ei :: clauses, bytes, written, deep => by
      obtain ⟨first, head, written⟩ := bind_eq_some_iff.1 written
      obtain ⟨rest, tail, same⟩ := bind_eq_some_iff.1 written
      cases same
      unfold clausesDepth at deep
      have shallow : clausesDepth clauses ≤ fuel := by omega
      have later := reads_clauses resolves code' clauses tail shallow
      exact reads_bind (reads_clause resolves code' head (by omega)) (reads_bind_pure later)

theorem reads_numbered (resolves : Resolves acfg amodule) {code' : Int}
    (written : writeClauses acfg cfg.nativeCode cfg.clauses = some bytes) (deep : clausesDepth cfg.clauses ≤ fuel) :
    Reads (decodeClauses amodule fuel (decide (cfg.clauses ≠ [])) code') (writeNumClauses cfg.clauses ++ bytes)
      (cfg.clauses.map (restoredClause acfg cfg.nativeCode code')) := by
  have few := cfg.numClauses
  unfold decodeClauses writeNumClauses
  by_cases some_ : cfg.clauses = []
  · rw [some_] at written ⊢
    cases written
    exact reads_pure []
  · have count : ¬ cfg.clauses.length = 0 := fun zero => some_ (eq_nil_of_length_eq_zero zero)
    rw [if_pos (decide_eq_true some_), if_neg count]
    exact reads_bind (reads_decodeCount (by omega)) (reads_clauses resolves code' cfg.clauses written deep)

/-! ### Behind the clauses -/

/-- The generic info that is read. -/
def restoredGenericInfo (gi : MonoGenericJitInfo) : MonoGenericJitInfo :=
  { gi with thisInReg := false }

/-- The method that is read with the generic info, if there is one that can be. -/
def restoredInfoMethod (acfg : MonoAotCompile) (cfg : MonoCompile) (method : MonoMethod) : Option MonoMethod :=
  if cfg.genericInfo.isSome then restoredMethod acfg cfg.method else some method

theorem reads_genericInfo (resolves : Resolves acfg amodule) {restored : MonoMethod}
    (written : writeGenericInfo acfg cfg.method cfg.genericInfo = some bytes) (deep : methodDepth cfg.method ≤ fuel)
    (is : restoredInfoMethod acfg cfg method = some restored) :
    Reads (decodeGenericInfo amodule (fuel + 1) cfg.genericInfo.isSome method) bytes
      (cfg.genericInfo.map restoredGenericInfo, restored) := by
  unfold restoredInfoMethod at is
  cases generic : cfg.genericInfo with
  | none =>
    rw [generic] at written is
    cases written
    cases is
    exact reads_pure _
  | some gi =>
    rw [generic] at written is
    obtain ⟨inside, kind, same⟩ := map_eq_some_iff.1 written
    cases same
    have method' : restoredMethod acfg cfg.method = some restored := is
    have reg : (gi.thisReg.setWidth 32).setWidth 8 = gi.thisReg := by
      apply BitVec.eq_of_toNat_eq
      simp only [BitVec.toNat_setWidth]
      omega
    have flag : (if gi.hasThis then (1 : BitVec 32) else 0).getLsbD 0 = gi.hasThis := by
      cases gi.hasThis <;> rfl
    refine reads_bind (reads_decodeValue _) ?_
    refine reads_bind (reads_decodeValue _) ?_
    refine reads_bind (reads_decodeValue _) ?_
    rw [reg, flag]
    exact reads_bind_pure (reads_methodRef2 resolves cfg.method fuel kind deep method')

theorem fails_genericInfo (written : writeGenericInfo acfg cfg.method cfg.genericInfo = some bytes)
    (lost : restoredInfoMethod acfg cfg method = none) :
    Fails (decodeGenericInfo amodule (fuel + 1) cfg.genericInfo.isSome method) bytes := by
  unfold restoredInfoMethod at lost
  cases generic : cfg.genericInfo with
  | none =>
    rw [generic] at lost
    cases lost
  | some gi =>
    rw [generic] at written lost
    obtain ⟨inside, kind, same⟩ := map_eq_some_iff.1 written
    cases same
    have lost' : restoredMethod acfg cfg.method = none := lost
    refine fails_bind (reads_decodeValue _) ?_
    refine fails_bind (reads_decodeValue _) ?_
    refine fails_bind (reads_decodeValue _) ?_
    exact fails_bind_first (fails_bind_first (fails_methodRef cfg.method fuel kind lost'))

theorem reads_seqPointList : ∀ (points : List SeqPoint) (lastIlOffset lastNativeOffset : BitVec 32),
    Reads (decodeSeqPointList lastIlOffset lastNativeOffset points.length)
      (writeSeqPointList lastIlOffset lastNativeOffset points) points
  | [], _, _ => reads_pure []
  | sp :: points, lastIlOffset, lastNativeOffset => by
      refine reads_bind (reads_decodeValue _) ?_
      refine reads_bind (reads_decodeValue _) ?_
      refine reads_bind (reads_decodeCount sp.nextLen) ?_
      refine reads_bind (reads_list sp.next reads_decodeValue) ?_
      rw [dif_pos sp.nextLen]
      simp only [add_difference]
      exact reads_bind_pure (reads_seqPointList points sp.ilOffset sp.nativeOffset)

theorem reads_seqPoints (cfg : MonoCompile) :
    Reads (decodeSeqPoints cfg.seqPoints.isSome) (writeSeqPoints cfg.seqPoints) cfg.seqPoints := by
  cases points : cfg.seqPoints with
  | none => exact reads_pure none
  | some list =>
    refine reads_bind (reads_decodeCount (cfg.seqPointsLen list points)) ?_
    exact reads_bind_pure (reads_seqPointList list 0 0)

theorem reads_debugInfo {debugInfo : List Byte} (small : debugInfo.length < 2 ^ 31) :
    Reads decodeDebugInfo (writeDebugInfo debugInfo) debugInfo :=
  reads_bind (reads_decodeCount small) (reads_symbols debugInfo)

/-! ### The flags -/

theorem flags_spec (a b c d e : Bool) :
    decide ((flagBit a 1 ||| flagBit b 2 ||| flagBit c 4 ||| flagBit d 8 ||| flagBit e 16) &&& 1 ≠ 0) = a ∧
      decide ((flagBit a 1 ||| flagBit b 2 ||| flagBit c 4 ||| flagBit d 8 ||| flagBit e 16) &&& 2 ≠ 0) = b ∧
      decide ((flagBit a 1 ||| flagBit b 2 ||| flagBit c 4 ||| flagBit d 8 ||| flagBit e 16) &&& 4 ≠ 0) = c ∧
      decide ((flagBit a 1 ||| flagBit b 2 ||| flagBit c 4 ||| flagBit d 8 ||| flagBit e 16) &&& 8 ≠ 0) = d := by
  revert a b c d e
  decide

theorem genericFlag (cfg : MonoCompile) : decide (infoFlags cfg &&& 1 ≠ 0) = cfg.genericInfo.isSome :=
  (flags_spec _ _ _ _ _).1

theorem unwindFlag (cfg : MonoCompile) : decide (infoFlags cfg &&& 2 ≠ 0) = cfg.unwindInfoOffset.isSome :=
  (flags_spec _ _ _ _ _).2.1

theorem clausesFlag (cfg : MonoCompile) : decide (infoFlags cfg &&& 4 ≠ 0) = decide (cfg.headerNumClauses ≠ 0) :=
  (flags_spec _ _ _ _ _).2.2.1

theorem seqPointsFlag (cfg : MonoCompile) : decide (infoFlags cfg &&& 8 ≠ 0) = cfg.seqPoints.isSome :=
  (flags_spec _ _ _ _ _).2.2.2

/-! ### The whole info -/

/-- The info that is read, if the method in it can be. -/
def restoredInfo (acfg : MonoAotCompile) (cfg : MonoCompile) (method : MonoMethod) (code : Int) : Option LoadedInfo :=
  (restoredInfoMethod acfg cfg method).map fun restored =>
    { codeSize := cfg.codeSize, usedRegs := unwindOrRegs cfg,
      clauses := cfg.clauses.map (restoredClause acfg cfg.nativeCode code),
      genericInfo := cfg.genericInfo.map restoredGenericInfo, method := restored, seqPoints := cfg.seqPoints,
      debugInfo := cfg.debugInfo }

theorem reads_usedRegs (unwind : ∀ offset ∈ cfg.unwindInfoOffset, offset.toNat < 2 ^ 30) :
    Reads (decodeUsedRegs (infoFlags cfg)) (encodeValue (unwindOrRegs cfg)) (unwindOrRegs cfg) := by
  rw [← append_nil (encodeValue _)]
  refine reads_bind (reads_decodeValue _) ?_
  have passes : ¬ (infoFlags cfg &&& 2 ≠ 0 ∧ ¬ (unwindOrRegs cfg).toNat < 2 ^ 30) := by
    rintro ⟨flag, large⟩
    have used : cfg.unwindInfoOffset.isSome = true := by
      rw [← unwindFlag, decide_eq_true flag]
    obtain ⟨offset, is⟩ := isSome_iff_exists.1 used
    apply large
    unfold unwindOrRegs
    rw [is, getD_some]
    exact unwind offset is
  rw [if_neg passes]
  exact reads_pure _

theorem fails_usedRegs {offset : BitVec 32} (is : cfg.unwindInfoOffset = some offset)
    (large : ¬ offset.toNat < 2 ^ 30) : Fails (decodeUsedRegs (infoFlags cfg)) (encodeValue (unwindOrRegs cfg)) := by
  rw [← append_nil (encodeValue _)]
  refine fails_bind (reads_decodeValue _) ?_
  have used : decide (infoFlags cfg &&& 2 ≠ 0) = true := by
    rw [unwindFlag, is]
    rfl
  have value : unwindOrRegs cfg = offset := by
    unfold unwindOrRegs
    rw [is]
    rfl
  rw [value, if_pos ⟨of_decide_eq_true used, large⟩]
  exact fails_fail _

theorem writeTail_eq_some (written : writeTail acfg cfg = some bytes) :
    ∃ generic, writeGenericInfo acfg cfg.method cfg.genericInfo = some generic ∧
      bytes = generic ++ (writeSeqPoints cfg.seqPoints ++ writeDebugInfo cfg.debugInfo) := by
  obtain ⟨generic, is, same⟩ := map_eq_some_iff.1 written
  exact ⟨generic, is, same.symm⟩

theorem writeExceptionDebugInfo_eq_some (written : writeExceptionDebugInfo acfg cfg = some bytes) :
    ∃ clauses tail, writeClauses acfg cfg.nativeCode cfg.clauses = some clauses ∧ writeTail acfg cfg = some tail ∧
      bytes = encodeValue cfg.codeSize ++ (encodeValue (infoFlags cfg) ++ (encodeValue (unwindOrRegs cfg) ++
        (writeNumClauses cfg.clauses ++ clauses ++ tail))) := by
  obtain ⟨clauses, one, written⟩ := bind_eq_some_iff.1 written
  obtain ⟨tail, two, same⟩ := bind_eq_some_iff.1 written
  cases same
  exact ⟨clauses, tail, one, two, by rw [append_assoc]⟩

def infoDepth (cfg : MonoCompile) : Nat :=
  max (clausesDepth cfg.clauses) (methodDepth cfg.method)

/-- Where header and jit info agree whether there are clauses, the info that is read is determined. -/
theorem reads_exceptionInfo (resolves : Resolves acfg amodule)
    (written : writeExceptionDebugInfo acfg cfg = some bytes) (counts : cfg.headerNumClauses ≠ 0 ↔ cfg.clauses ≠ [])
    (unwind : ∀ offset ∈ cfg.unwindInfoOffset, offset.toNat < 2 ^ 30) (small : cfg.debugInfo.length < 2 ^ 31)
    (deep : infoDepth cfg ≤ fuel) (is : restoredInfo acfg cfg method code = some loaded) :
    Reads (decodeExceptionDebugInfo amodule (fuel + 1) method code) bytes loaded := by
  obtain ⟨clauses, tail, one, two, same⟩ := writeExceptionDebugInfo_eq_some written
  obtain ⟨generic, three, same'⟩ := writeTail_eq_some two
  obtain ⟨restored, found, same''⟩ := map_eq_some_iff.1 is
  cases same''
  unfold infoDepth at deep
  rw [same, same']
  refine reads_bind (reads_decodeValue _) ?_
  refine reads_bind (reads_decodeValue _) ?_
  refine reads_bind (reads_usedRegs unwind) ?_
  rw [clausesFlag, decide_eq_decide.2 counts]
  refine reads_bind (reads_numbered resolves one (by omega)) ?_
  unfold decodeTail
  rw [genericFlag, seqPointsFlag]
  refine reads_bind (reads_genericInfo resolves three (by omega) found) ?_
  refine reads_bind (reads_seqPoints cfg) ?_
  exact reads_bind_pure (reads_debugInfo small)

theorem fails_unwind {offset : BitVec 32} (written : writeExceptionDebugInfo acfg cfg = some bytes)
    (is : cfg.unwindInfoOffset = some offset) (large : ¬ offset.toNat < 2 ^ 30) :
    Fails (decodeExceptionDebugInfo amodule fuel method code) bytes := by
  obtain ⟨clauses, tail, -, -, same⟩ := writeExceptionDebugInfo_eq_some written
  rw [same]
  refine fails_bind (reads_decodeValue _) ?_
  refine fails_bind (reads_decodeValue _) ?_
  have gaveUp := fails_bind_first (fails_usedRegs is large)
    (f := fun usedIntRegs => decodeClauses amodule fuel (decide (infoFlags cfg &&& 4 ≠ 0)) code >>=
      decodeTail amodule fuel (infoFlags cfg) method cfg.codeSize usedIntRegs)
  intro rest
  have run := gaveUp ((writeNumClauses cfg.clauses ++ clauses ++ tail) ++ rest)
  rw [← append_assoc] at run
  exact run

theorem fails_method (resolves : Resolves acfg amodule) (written : writeExceptionDebugInfo acfg cfg = some bytes)
    (counts : cfg.headerNumClauses ≠ 0 ↔ cfg.clauses ≠ [])
    (unwind : ∀ offset ∈ cfg.unwindInfoOffset, offset.toNat < 2 ^ 30) (deep : infoDepth cfg ≤ fuel)
    (lost : restoredInfo acfg cfg method code = none) :
    Fails (decodeExceptionDebugInfo amodule (fuel + 1) method code) bytes := by
  obtain ⟨clauses, tail, one, two, same⟩ := writeExceptionDebugInfo_eq_some written
  obtain ⟨generic, three, same'⟩ := writeTail_eq_some two
  unfold infoDepth at deep
  rw [same, same']
  refine fails_bind (reads_decodeValue _) ?_
  refine fails_bind (reads_decodeValue _) ?_
  refine fails_bind (reads_usedRegs unwind) ?_
  rw [clausesFlag, decide_eq_decide.2 counts]
  refine fails_bind (reads_numbered resolves one (by omega)) ?_
  unfold decodeTail
  rw [genericFlag]
  have gaveUp : Fails (decodeGenericInfo amodule (fuel + 1) cfg.genericInfo.isSome method) generic :=
    fails_genericInfo three (map_eq_none_iff.1 lost)
  intro rest
  have run := gaveUp ((writeSeqPoints cfg.seqPoints ++ writeDebugInfo cfg.debugInfo) ++ rest)
  rw [← append_assoc] at run
  simp only [bind, run]

/-! ### What comes back unchanged -/

theorem restoredData_eq_iff (code code' : Int) (data : ClauseData) :
    restoredData acfg code code' data = data.relocated code code' ↔ data.Meets acfg code := by
  cases data with
  | filter address =>
    unfold restoredData ClauseData.relocated ClauseData.Meets
    rw [ClauseData.filter.injEq, restoredAddress_eq_iff]
  | catchClass klass =>
    unfold restoredData ClauseData.relocated ClauseData.Meets
    cases klass with
    | none => simp
    | some klass => simp [restoredClass_eq_iff]

theorem restoredClause_eq_iff (code code' : Int) (ei : MonoJitExceptionInfo) :
    restoredClause acfg code code' ei = ei.relocated code code' ↔ ei.Meets acfg code := by
  unfold restoredClause MonoJitExceptionInfo.relocated MonoJitExceptionInfo.Meets
  rw [MonoJitExceptionInfo.mk.injEq]
  simp only [restoredAddress_eq_iff, restoredData_eq_iff, true_and]

theorem restoredClauses_eq_iff (acfg : MonoAotCompile) (code code' : Int) (clauses : List MonoJitExceptionInfo) :
    clauses.map (restoredClause acfg code code') = clauses.map (MonoJitExceptionInfo.relocated code code') ↔
      ∀ ei ∈ clauses, ei.Meets acfg code := by
  rw [map_inj_left]
  simp only [restoredClause_eq_iff]

/-- What is read is what was to be restored if and only if the clauses and the generic info meet their conditions. -/
theorem restoredInfo_eq_iff (cfg : MonoCompile) (method : MonoMethod) (code : Int) :
    restoredInfo acfg cfg method code = some (expectedInfo cfg method code) ↔
      (∀ ei ∈ cfg.clauses, ei.Meets acfg cfg.nativeCode) ∧
        ∀ gi ∈ cfg.genericInfo, gi.thisInReg = false ∧ methodReadable acfg cfg.method = true := by
  unfold restoredInfo expectedInfo restoredInfoMethod
  rw [map_eq_some_iff, ← restoredClauses_eq_iff acfg cfg.nativeCode code cfg.clauses]
  cases cfg.genericInfo with
  | none =>
    constructor
    · rintro ⟨restored, found, same⟩
      rw [LoadedInfo.mk.injEq] at same
      refine ⟨same.2.2.1, ?_⟩
      intro gi none_
      cases none_
    · rintro ⟨clauses, -⟩
      exact ⟨method, rfl, by rw [clauses]; rfl⟩
  | some gi =>
    have flag : restoredGenericInfo gi = gi ↔ gi.thisInReg = false := by
      obtain ⟨thisOffset, thisReg, hasThis, thisInReg⟩ := gi
      unfold restoredGenericInfo
      simp [eq_comm]
    constructor
    · rintro ⟨restored, found, same⟩
      rw [LoadedInfo.mk.injEq] at same
      obtain ⟨-, -, clauses, generic, method', -, -⟩ := same
      refine ⟨clauses, ?_⟩
      intro gi' is
      cases is
      have own : restored = cfg.method := method'
      rw [own] at found
      exact ⟨flag.1 (Option.some.inj generic), restoredMethod_eq_iff cfg.method |>.1 found⟩
    · rintro ⟨clauses, generic⟩
      obtain ⟨inReg, readable⟩ := generic gi rfl
      refine ⟨cfg.method, (restoredMethod_eq_iff cfg.method).2 readable, ?_⟩
      rw [clauses, map_some, flag.2 inReg]
      rfl

/-! ### The size of the buffer -/

theorem encodeValue_length (value : BitVec 32) : (encodeValue value).length = valueSize value := by
  unfold DebugInfo.encodeValue valueSize
  split
  · rfl
  · split
    · rfl
    · split
      · rfl
      · rfl

theorem writeClause_length {ei : MonoJitExceptionInfo} (written : writeClause acfg code ei = some bytes) :
    bytes.length = clauseSize acfg code ei := by
  obtain ⟨data, is, same⟩ := map_eq_some_iff.1 written
  cases same
  have size : data.length = clauseDataSize acfg code ei.data := by
    cases member : ei.data with
    | filter address =>
      rw [member] at is
      cases is
      exact encodeValue_length _
    | catchClass klass =>
      rw [member] at is
      cases klass with
      | none =>
        cases is
        exact encodeValue_length _
      | some klass =>
        obtain ⟨inside, kept, same⟩ := map_eq_some_iff.1 is
        cases same
        show _ = valueSize 1 + refSize (encodeKlassRef acfg klass)
        unfold refSize
        rw [kept, length_append, encodeValue_length, getD_some]
  unfold clauseSize
  simp only [length_append, encodeValue_length, size]
  omega

theorem writeClauses_length : ∀ (clauses : List MonoJitExceptionInfo) {bytes : List Byte},
    writeClauses acfg code clauses = some bytes → bytes.length = (clauses.map (clauseSize acfg code)).sum
  | [], bytes, written => by
      cases written
      rfl
  | ei :: clauses, bytes, written => by
      obtain ⟨first, head, written⟩ := bind_eq_some_iff.1 written
      obtain ⟨rest, tail, same⟩ := bind_eq_some_iff.1 written
      cases same
      rw [length_append, writeClause_length head, writeClauses_length clauses tail, map_cons, sum_cons]

theorem writeGenericInfo_length {gi : Option MonoGenericJitInfo}
    (written : writeGenericInfo acfg method gi = some bytes) : bytes.length = genericInfoSize acfg method gi := by
  cases gi with
  | none =>
    cases written
    rfl
  | some gi =>
    obtain ⟨inside, is, same⟩ := map_eq_some_iff.1 written
    cases same
    have flag : valueSize (if gi.hasThis then 1 else 0) = 1 := by
      cases gi.hasThis <;> decide
    unfold genericInfoSize refSize
    simp only [length_append, encodeValue_length, flag, is, getD_some]
    omega

theorem writeSeqPointList_length : ∀ (points : List SeqPoint) (lastIlOffset lastNativeOffset : BitVec 32),
    (writeSeqPointList lastIlOffset lastNativeOffset points).length = seqPointsSize lastIlOffset lastNativeOffset points
  | [], _, _ => rfl
  | sp :: points, lastIlOffset, lastNativeOffset => by
      have next : (sp.next.flatMap encodeValue).length = (sp.next.map valueSize).sum := by
        rw [length_flatMap]
        congr 1
        apply map_congr_left
        intro value _
        exact encodeValue_length value
      unfold writeSeqPointList seqPointsSize
      simp only [length_append, encodeValue_length, next, writeSeqPointList_length points]
      omega

theorem writeExceptionDebugInfo_length (written : writeExceptionDebugInfo acfg cfg = some bytes) :
    bytes.length = infoSize acfg cfg := by
  obtain ⟨clauses, tail, one, two, same⟩ := writeExceptionDebugInfo_eq_some written
  obtain ⟨generic, three, same'⟩ := writeTail_eq_some two
  have count : (writeNumClauses cfg.clauses).length = numClausesSize cfg.clauses := by
    unfold writeNumClauses numClausesSize
    split
    · rfl
    · exact encodeValue_length _
  have points : (writeSeqPoints cfg.seqPoints).length = seqPointInfoSize cfg.seqPoints := by
    cases cfg.seqPoints with
    | none => rfl
    | some list =>
      show (encodeValue (BitVec.ofNat 32 list.length) ++ writeSeqPointList 0 0 list).length
        = valueSize (BitVec.ofNat 32 list.length) + seqPointsSize 0 0 list
      rw [length_append, encodeValue_length, writeSeqPointList_length]
  unfold infoSize
  rw [same, same', ← points, ← count, ← writeClauses_length cfg.clauses one, ← writeGenericInfo_length three]
  unfold writeDebugInfo
  simp only [length_append, encodeValue_length]
  omega

theorem emit_eq_some_iff {buf : List Byte} (written : writeExceptionDebugInfo acfg cfg = some bytes) :
    emitExceptionDebugInfo acfg cfg = some buf ↔ bytes = buf ∧ (infoSize acfg cfg : Int) < (infoBufSize cfg).toInt := by
  have size := writeExceptionDebugInfo_length written
  have debugInside : cfg.debugInfo.length ≤ infoSize acfg cfg := by
    unfold infoSize
    omega
  have converted := BitVec.toInt_eq_toNat_cond (infoBufSize cfg)
  unfold emitExceptionDebugInfo
  rw [written]
  show (if _ then some bytes else none) = some buf ↔ _
  rw [size, ite_none_right_eq_some, Option.some.injEq]
  constructor
  · rintro ⟨⟨-, fits⟩, same⟩
    exact ⟨same, fits⟩
  · rintro ⟨same, fits⟩
    refine ⟨⟨?_, fits⟩, same⟩
    split at converted
    · omega
    · have bound := (infoBufSize cfg).isLt
      omega

/-! ### Where header and jit info disagree -/

theorem decodeTail_eq_some {flags codeSize usedRegs : BitVec 32} {clauses : List MonoJitExceptionInfo}
    (run : decodeTail amodule fuel flags method codeSize usedRegs clauses symbols = some (loaded, rest)) :
    loaded.clauses = clauses ∧ ∃ generic middle middle',
      decodeGenericInfo amodule fuel (decide (flags &&& 1 ≠ 0)) method symbols = some (generic, middle) ∧
        decodeSeqPoints (decide (flags &&& 8 ≠ 0)) middle = some (loaded.seqPoints, middle') ∧
        decodeDebugInfo middle' = some (loaded.debugInfo, rest) := by
  obtain ⟨generic, middle, one, run⟩ := bind_eq_some run
  obtain ⟨seqPoints, middle', two, run⟩ := bind_eq_some run
  obtain ⟨debugInfo, middle'', three, run⟩ := bind_eq_some run
  cases run
  exact ⟨rfl, generic, middle, middle', one, two, three⟩

theorem decodeSeqPointList_length : ∀ (n : Nat) {lastIlOffset lastNativeOffset : BitVec 32} {symbols rest : List Byte}
    {points : List SeqPoint},
    decodeSeqPointList lastIlOffset lastNativeOffset n symbols = some (points, rest) → points.length = n
  | 0, _, _, _, _, _, run => by
      cases run
      rfl
  | n + 1, _, _, _, _, _, run => by
      obtain ⟨ilOffset, _, -, run⟩ := bind_eq_some run
      obtain ⟨nativeOffset, _, -, run⟩ := bind_eq_some run
      obtain ⟨nextLen, _, -, run⟩ := bind_eq_some run
      obtain ⟨next, _, -, run⟩ := bind_eq_some run
      split at run
      · obtain ⟨points, _, later, run⟩ := bind_eq_some run
        cases run
        rw [length_cons, decodeSeqPointList_length n later]
      · cases run

/-- A run over clauses that are announced, where there are none in the end, read that there are none. -/
theorem decodeClauses_eq_nil (run : decodeClauses amodule fuel true code symbols = some ([], rest)) :
    decodeCount symbols = some (0, rest) := by
  obtain ⟨count, middle, first, run⟩ := bind_eq_some run
  have none_ := many_length count run
  cases none_
  cases run
  exact first

theorem decodeSeqPoints_eq_nil (run : decodeSeqPoints true symbols = some (some [], rest)) :
    decodeCount symbols = some (0, rest) := by
  obtain ⟨count, middle, first, run⟩ := bind_eq_some run
  obtain ⟨points, middle', list, run⟩ := bind_eq_some run
  cases run
  have none_ := decodeSeqPointList_length count list
  cases none_
  cases list
  exact first

theorem decodeCount_run {n m : Nat} (small : n < 2 ^ 31) {back : List Byte}
    (run : decodeCount (encodeValue (BitVec.ofNat 32 n) ++ back) = some (m, rest)) : m = n ∧ rest = back := by
  have same := (reads_decodeCount small back).symm.trans run
  cases same
  exact ⟨rfl, rfl⟩

/-- There is nothing left to read where the size of the debug info has been read for something else. -/
theorem debugInfo_gone {debugInfo : List Byte} (small : debugInfo.length < 2 ^ 31)
    (zero : decodeCount (writeDebugInfo debugInfo) = some (0, rest)) : decodeDebugInfo rest = none := by
  obtain ⟨none_, same⟩ := decodeCount_run small zero
  rw [same, eq_nil_of_length_eq_zero none_.symm]
  rfl

theorem clauses_run (written : writeExceptionDebugInfo acfg cfg = some bytes)
    (unwind : ∀ offset ∈ cfg.unwindInfoOffset, offset.toNat < 2 ^ 30)
    (reads : Reads (decodeExceptionDebugInfo amodule fuel method code) bytes loaded) :
    ∃ clauses tail, writeClauses acfg cfg.nativeCode cfg.clauses = some clauses ∧ writeTail acfg cfg = some tail ∧
      ∃ middle, decodeClauses amodule fuel (decide (cfg.headerNumClauses ≠ 0)) code
          (writeNumClauses cfg.clauses ++ clauses ++ tail) = some (loaded.clauses, middle) ∧
        decodeTail amodule fuel (infoFlags cfg) method cfg.codeSize (unwindOrRegs cfg) loaded.clauses middle
          = some (loaded, []) := by
  obtain ⟨clauses, tail, one, two, same⟩ := writeExceptionDebugInfo_eq_some written
  refine ⟨clauses, tail, one, two, ?_⟩
  have run := reads []
  rw [append_nil, same] at run
  unfold decodeExceptionDebugInfo at run
  rw [(reads_decodeValue _).bind_run, (reads_decodeValue _).bind_run, (reads_usedRegs unwind).bind_run,
    clausesFlag] at run
  obtain ⟨read, middle, first, later⟩ := bind_eq_some run
  obtain ⟨kept, -⟩ := decodeTail_eq_some later
  rw [← kept] at first later
  exact ⟨middle, first, later⟩

/-- Clauses that are announced but were not written: what is read for their number is wrong, or it is taken from the
generic info. -/
theorem announced_by_chance {tail middle : List Byte} (small : cfg.debugInfo.length < 2 ^ 31)
    (written : writeTail acfg cfg = some tail) (zero : decodeCount tail = some (0, middle))
    (later : decodeTail amodule fuel (infoFlags cfg) method cfg.codeSize (unwindOrRegs cfg) [] middle
      = some (loaded, [])) (same : loaded.seqPoints = cfg.seqPoints) : ∃ gi ∈ cfg.genericInfo, gi.hasThis = false := by
  obtain ⟨bytes, is, split_⟩ := writeTail_eq_some written
  obtain ⟨-, generic, middle', middle'', one, two, three⟩ := decodeTail_eq_some later
  rw [split_] at zero
  rw [genericFlag] at one
  rw [seqPointsFlag, same] at two
  cases info : cfg.genericInfo with
  | some gi =>
    rw [info] at is
    obtain ⟨inside, -, front⟩ := map_eq_some_iff.1 is
    rw [← front, append_assoc] at zero
    refine ⟨gi, rfl, ?_⟩
    cases this_ : gi.hasThis with
    | false => rfl
    | true =>
      rw [this_] at zero
      obtain ⟨wrong, -⟩ := decodeCount_run (n := 1) (by decide) zero
      cases wrong
  | none =>
    exfalso
    rw [info] at is one
    cases is
    cases one
    cases points : cfg.seqPoints with
    | some list =>
      -- the number of the sequence points is taken for that of the clauses, and then there is one value too few
      have few := cfg.seqPointsLen list points
      rw [points] at zero two
      have front : writeSeqPoints (some list) = encodeValue (BitVec.ofNat 32 list.length) ++ writeSeqPointList 0 0 list :=
        rfl
      rw [nil_append, front, append_assoc] at zero
      obtain ⟨none_, rest⟩ := decodeCount_run few zero
      have empty : list = [] := eq_nil_of_length_eq_zero none_.symm
      rw [empty] at two rest
      have size := decodeSeqPoints_eq_nil two
      rw [rest] at size
      rw [debugInfo_gone small size] at three
      cases three
    | none =>
      rw [points] at zero two
      cases two
      rw [debugInfo_gone small zero] at three
      cases three

/-- Info that is read back has a header that agrees with the jit info, or the number of clauses is read by chance. -/
theorem counts_of_reads (written : writeExceptionDebugInfo acfg cfg = some bytes)
    (unwind : ∀ offset ∈ cfg.unwindInfoOffset, offset.toNat < 2 ^ 30) (small : cfg.debugInfo.length < 2 ^ 31)
    (reads : Reads (decodeExceptionDebugInfo amodule fuel method code) bytes (expectedInfo cfg method code)) :
    (cfg.headerNumClauses ≠ 0 ↔ cfg.clauses ≠ []) ∨ CountByChance cfg := by
  obtain ⟨clauses, tail, one, two, middle, first, later⟩ := clauses_run written unwind reads
  have loaded : (expectedInfo cfg method code).clauses
      = cfg.clauses.map (MonoJitExceptionInfo.relocated cfg.nativeCode code) := rfl
  by_cases header : cfg.headerNumClauses = 0
  · -- nothing is read for the clauses
    left
    rw [decide_eq_false (not_not.2 header), loaded] at first
    have empty : [] = cfg.clauses.map (MonoJitExceptionInfo.relocated cfg.nativeCode code) :=
      congrArg Prod.fst (Option.some.inj first)
    have none_ := map_eq_nil_iff.1 empty.symm
    exact ⟨fun some_ => absurd header some_, fun some_ => absurd none_ some_⟩
  · by_cases none_ : cfg.clauses = []
    · right
      refine ⟨header, none_, ?_⟩
      rw [none_] at one first
      cases one
      rw [loaded, none_, map_nil] at later
      rw [decide_eq_true header, loaded, none_, map_nil] at first
      exact announced_by_chance small two (decodeClauses_eq_nil first) later rfl
    · exact .inl ⟨fun _ => none_, fun _ => header⟩

/-! ### The round trip -/

theorem debugInfo_small (fits : (infoSize acfg cfg : Int) < (infoBufSize cfg).toInt) : cfg.debugInfo.length < 2 ^ 31 := by
  have inside : cfg.debugInfo.length ≤ infoSize acfg cfg := by
    unfold infoSize
    omega
  have bound := BitVec.toInt_lt (x := infoBufSize cfg)
  omega

theorem roundTrips_of_meets (resolves : Resolves acfg amodule) (written : writeExceptionDebugInfo acfg cfg = some bytes)
    (meets : InfoMeets acfg cfg) : InfoRoundTrips acfg amodule cfg := by
  refine ⟨bytes, (emit_eq_some_iff written).2 ⟨rfl, meets.fits⟩, infoDepth cfg + 1, ?_⟩
  intro fuel deep method code
  obtain ⟨fuel, rfl⟩ : ∃ fuel', fuel = fuel' + 1 := ⟨fuel - 1, by omega⟩
  have is := (restoredInfo_eq_iff cfg method code).2 ⟨meets.clauses, meets.generic⟩
  exact reads_exceptionInfo resolves written meets.counts meets.unwind (debugInfo_small meets.fits) (by omega) is

/-- Info that is emitted and read back meets the condition, if the number of clauses is not read by chance. -/
theorem meets_of_roundTrips (resolves : Resolves acfg amodule) (written : writeExceptionDebugInfo acfg cfg = some bytes)
    (back : InfoRoundTrips acfg amodule cfg) : InfoMeets acfg cfg ∨ CountByChance cfg := by
  obtain ⟨buf, emitted, depth, read⟩ := back
  obtain ⟨same, fits⟩ := (emit_eq_some_iff written).1 emitted
  cases same
  have reads := read (max depth (infoDepth cfg) + 1) (by omega) cfg.method 0
  have unwind : ∀ offset ∈ cfg.unwindInfoOffset, offset.toNat < 2 ^ 30 := by
    intro offset is
    by_contra large
    exact (fails_unwind written is large).not_reads reads
  have small := debugInfo_small fits
  rcases counts_of_reads written unwind small reads with counts | chance
  · left
    have deep : infoDepth cfg ≤ max depth (infoDepth cfg) := by omega
    cases is : restoredInfo acfg cfg cfg.method 0 with
    | none => exact absurd reads (fails_method resolves written counts unwind deep is).not_reads
    | some loaded =>
      have own := reads_exceptionInfo resolves written counts unwind small deep is
      rw [own.unique reads] at is
      obtain ⟨clauses, generic⟩ := (restoredInfo_eq_iff cfg cfg.method 0).1 is
      exact { counts, clauses, generic, unwind, fits }
  · exact .inr chance

/-- The info of a method comes back if the condition is met, and only then, unless the number of clauses is read by
chance. -/
theorem exceptionInfo_roundTrips (acfg : MonoAotCompile) (amodule : MonoAotModule) (cfg : MonoCompile) (bytes : List Byte)
    (resolves : Resolves acfg amodule)
    (written : writeExceptionDebugInfo acfg cfg = some bytes) :
    (InfoMeets acfg cfg → InfoRoundTrips acfg amodule cfg) ∧
      (InfoRoundTrips acfg amodule cfg → InfoMeets acfg cfg ∨ CountByChance cfg) :=
  ⟨roundTrips_of_meets resolves written, meets_of_roundTrips resolves written⟩

/-! ### Samples -/

/-- A catch clause of a method. -/
def sampleClause : MonoJitExceptionInfo where
  flags := 0
  exvarOffset := 0
  tryStart := 4096
  tryEnd := 4100
  handlerStart := 4110
  data := .catchClass (some sampleClass)
  union := rfl

/-- A method with a catch clause and two sequence points, the second one with a lower IL offset. -/
def sampleCompiled : MonoCompile where
  nativeCode := 4096
  codeSize := 20
  usedRegs := 3
  unwindInfoOffset := none
  compileLlvm := false
  headerNumClauses := 1
  clauses := [sampleClause]
  genericInfo := some { thisOffset := 8, thisReg := 5, hasThis := true, thisInReg := false }
  method := sampleMethod
  seqPoints := some [{ ilOffset := 7, nativeOffset := 2, next := [1], nextLen := by decide },
                     { ilOffset := 3, nativeOffset := 9, next := [], nextLen := Nat.two_pow_pos 31 }]
  debugInfo := [1, 2, 3]
  numClauses := by decide
  seqPointsLen := by
    intro points is
    cases is
    decide
  debugInfoSize := by decide

/-- A method without any of the optional parts. -/
def samplePlain : MonoCompile where
  nativeCode := 4096
  codeSize := 20
  usedRegs := 3
  unwindInfoOffset := none
  compileLlvm := true
  headerNumClauses := 0
  clauses := []
  genericInfo := none
  method := sampleMethod
  seqPoints := none
  debugInfo := []
  numClauses := Nat.two_pow_pos 15
  seqPointsLen := by
    intro points is
    cases is
  debugInfoSize := Nat.two_pow_pos 32

/-- Clauses in the header, none in the jit info. -/
def sampleAnnounced : MonoCompile :=
  { samplePlain with headerNumClauses := 1 }

/-- `this` in a register. -/
def sampleThisInReg : MonoCompile :=
  { samplePlain with
    genericInfo := some { thisOffset := 0, thisReg := 5, hasThis := true, thisInReg := true } }

/-- A sequence point with many successors. -/
def sampleSeqPoint : SeqPoint where
  ilOffset := 0
  nativeOffset := 0
  next := List.replicate 2000 0
  nextLen := by
    rw [length_replicate]
    decide

def sampleManySuccessors : MonoCompile :=
  { samplePlain with
    seqPoints := some [sampleSeqPoint]
    seqPointsLen := by
      intro points is
      cases is
      exact Nat.one_lt_two_pow (by decide) }

theorem exceptionInfo_roundTrips_sample : InfoRoundTrips sampleCompile sampleModule sampleCompiled :=
  (exceptionInfo_roundTrips sampleCompile sampleModule sampleCompiled
    ((writeExceptionDebugInfo sampleCompile sampleCompiled).getD []) sampleResolves rfl).1
    { counts := by decide
      clauses := by
        intro ei is
        cases mem_singleton.1 is
        exact ⟨by decide, by decide, by decide, rfl⟩
      generic := by
        intro gi is
        cases is
        exact ⟨rfl, rfl⟩
      unwind := by
        intro offset is
        cases is
      fits := by decide }

theorem exceptionInfo_countMissing :
    (∃ bytes, emitExceptionDebugInfo sampleCompile sampleAnnounced = some bytes) ∧
      ¬ InfoRoundTrips sampleCompile sampleModule sampleAnnounced ∧
      (∃ bytes, emitExceptionDebugInfo sampleCompile sampleThisInReg = some bytes) ∧
      ¬ InfoRoundTrips sampleCompile sampleModule sampleThisInReg ∧
      emitExceptionDebugInfo sampleCompile sampleManySuccessors = none := by
  refine ⟨⟨_, rfl⟩, ?_, ⟨_, rfl⟩, ?_, ?_⟩
  · intro back
    rcases meets_of_roundTrips sampleResolves rfl back with meets | ⟨-, -, gi, is, -⟩
    · exact absurd rfl (meets.counts.1 (by decide))
    · cases is
  · intro back
    rcases meets_of_roundTrips sampleResolves rfl back with meets | ⟨header, -, -⟩
    · cases (meets.generic _ rfl).1
    · exact absurd rfl header
  · have size : infoSize sampleCompile sampleManySuccessors = 2009 := by
      have successors : (sampleSeqPoint.next.map valueSize).sum = 2000 := by
        show ((List.replicate 2000 (0 : BitVec 32)).map valueSize).sum = 2000
        rw [map_replicate, sum_replicate]
        rfl
      have point : seqPointsSize 0 0 [sampleSeqPoint] = 1 + 1 + 2 + 2000 := by
        unfold seqPointsSize
        rw [successors]
        unfold sampleSeqPoint
        rw [length_replicate]
        rfl
      unfold infoSize seqPointInfoSize sampleManySuccessors
      simp only [point]
      rfl
    have buf : (infoBufSize sampleManySuccessors).toInt = 1088 := by decide
    cases emitted : emitExceptionDebugInfo sampleCompile sampleManySuccessors with
    | none => rfl
    | some buf' =>
      obtain ⟨bytes, written⟩ : ∃ bytes, writeExceptionDebugInfo sampleCompile sampleManySuccessors = some bytes :=
        ⟨_, rfl⟩
      have fits := ((emit_eq_some_iff written).1 emitted).2
      omega

end MonoRuntime.AotRefs
