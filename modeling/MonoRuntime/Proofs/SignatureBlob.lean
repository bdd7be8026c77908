/-
Module: MonoRuntime.Proofs.SignatureBlob
Purpose: The parser of method signatures reads back every type that the writer writes, whatever comes after it, and a
  signature whose types are compared through is read back as an equal one.
Trusted boundary: none
Main exports: methodSignature_roundTrips
-/
import MonoRuntime.Metadata.SignatureLaws
import MonoRuntime.Proofs.DebugInfo

namespace MonoRuntime.MethodSignature

open Reader
open DebugInfo (lowByte wide encodeValue decodeValue reads_decodeValue lowByte_toNat lowByte_or lowByte_mask
  lowByte_sshiftRight toInt_range)
open TypeEquality (SimpleType)

/-! ### Values -/

theorem monoMetadataDecodeValue_eq {b : Byte} (notLast : b ≠ 0xff) (symbols : List Byte) :
    monoMetadataDecodeValue (b :: symbols) = decodeValue (b :: symbols) := by
  change (if b &&& 0x80 = 0 then _ else if b &&& 0x40 = 0 then _ else _ : Reader Byte _) symbols =
    (if b &&& 0x80 = 0 then _ else if b &&& 0x40 = 0 then _ else if b ≠ 0xff then _ else _ : Reader Byte _) symbols
  rw [if_pos notLast]

theorem monoMetadataEncodeValue_eq {value : BitVec 32} (small : value.toNat < 2 ^ 29) :
    monoMetadataEncodeValue value = encodeValue value := by
  have positive : value.msb = false := by
    rw [BitVec.msb_eq_false_iff_two_mul_lt]
    omega
  have range127 : (0 ≤ value.toInt ∧ value.toInt ≤ 127) ↔ value.toNat < 0x80 :=
    (toInt_range value (by decide)).trans Nat.lt_succ_iff.symm
  have range16383 : (0 ≤ value.toInt ∧ value.toInt ≤ 16383) ↔ value.toNat < 0x4000 :=
    (toInt_range value (by decide)).trans Nat.lt_succ_iff.symm
  have rangeWide : (0 ≤ value.toInt ∧ value.toInt ≤ 0x1fffffff) ↔ value.toNat ≤ 0x1fffffff :=
    toInt_range value (by decide)
  unfold monoMetadataEncodeValue encodeValue
  simp only [range127, range16383]
  rw [if_pos (rangeWide.mpr (by omega))]
  simp only [BitVec.sshiftRight_eq_of_msb_false positive, BitVec.or_comm 0x80]

/-- The three upper bits of the first byte are never all set. -/
theorem monoMetadataEncodeValue_head {value : BitVec 32} (small : value.toNat < 2 ^ 29) :
    ∃ b tail, monoMetadataEncodeValue value = b :: tail ∧ b.toNat < 224 := by
  unfold monoMetadataEncodeValue
  split
  next few =>
    have byte := lowByte_toNat value
    exact ⟨_, _, rfl, by omega⟩
  split
  next few =>
    have shifted : (lowByte (value >>> 8)).toNat = value.toNat / 2 ^ 8 % 2 ^ 8 := by
      rw [lowByte_toNat, BitVec.toNat_ushiftRight, Nat.shiftRight_eq_div_pow]
    have front := lowByte_or (x := 0x80) (y := value >>> 8) (k := 7) (m := 1) rfl (by decide) (by omega)
    rw [BitVec.or_comm] at front
    exact ⟨_, _, rfl, by omega⟩
  next =>
    have shifted : (lowByte (value >>> 24)).toNat = value.toNat / 2 ^ 24 % 2 ^ 8 := by
      rw [lowByte_toNat, BitVec.toNat_ushiftRight, Nat.shiftRight_eq_div_pow]
    have front := lowByte_or (x := 0xc0) (y := value >>> 24) (k := 6) (m := 3) rfl (by decide) (by omega)
    rw [BitVec.or_comm] at front
    exact ⟨_, _, rfl, by omega⟩

/-- `mono_metadata_decode_value` reads what `mono_metadata_encode_value` writes, up to 29 bits. -/
theorem reads_monoMetadataDecodeValue {value : BitVec 32} (small : value.toNat < 2 ^ 29) :
    Reads monoMetadataDecodeValue (monoMetadataEncodeValue value) value := by
  intro rest
  obtain ⟨b, tail, begins, less⟩ := monoMetadataEncodeValue_head small
  have notLast : b ≠ 0xff := by
    rintro rfl
    exact absurd less (by decide)
  have read := reads_decodeValue value rest
  rw [← monoMetadataEncodeValue_eq small, begins, List.cons_append] at read
  rw [begins, List.cons_append, monoMetadataDecodeValue_eq notLast]
  exact read

theorem encodeCode_eq {code : Byte} (small : code.toNat < 0x80) : encodeCode code = [code] := by
  have same : (code.setWidth 32).toNat = code.toNat := by
    rw [BitVec.toNat_setWidth]
    omega
  rw [encodeCode, monoMetadataEncodeValue, if_pos (by omega), lowByte, BitVec.setWidth_setWidth_of_le _ (by decide),
    BitVec.setWidth_eq]

theorem encodeCode_genericinst : encodeCode monoTypeGenericinst = [monoTypeGenericinst] :=
  encodeCode_eq (by decide)

theorem encode_simple (type : SimpleType) : monoMetadataEncodeValue type.code = encodeCode (type.code.setWidth 8) := by
  cases type <;> decide

theorem simpleOfCode_code (type : SimpleType) : simpleOfCode (type.code.setWidth 8) = some type := by
  cases type <;> decide

/-! ### What stands in front of a type -/

/-- The byte is that of a type, and not of something in front of one. -/
def Plain (b : Byte) : Prop :=
  b ≠ monoTypePinned ∧ b ≠ monoTypeByref ∧ b ≠ monoTypeCmodReqd ∧ b ≠ monoTypeCmodOpt ∧ b ≠ monoTypeSentinel

instance (b : Byte) : Decidable (Plain b) :=
  inferInstanceAs (Decidable (_ ∧ _ ∧ _ ∧ _ ∧ _))

section Blob

variable {classes : Classes} {tokens : Tokens} {image : ImageId} {container : Option MonoGenericContainer}

theorem classCode_small (klass : ClassId) : (classCode classes klass).toNat < 0x80 := by
  unfold classCode
  split <;> decide

theorem classCode_plain (klass : ClassId) : Plain (classCode classes klass) := by
  unfold classCode
  split <;> decide

variable (classes tokens) in
theorem encodeData_head (type : TypeData) : ∃ b tail, encodeData classes tokens type = b :: tail ∧ Plain b := by
  have begins : ∀ {code : Byte} (tail : List Byte), code.toNat < 0x80 → encodeCode code ++ tail = code :: tail := by
    intro code tail small
    rw [encodeCode_eq small]
    rfl
  cases type with
  | simple type =>
    cases type <;> exact ⟨_, [], rfl, by decide⟩
  | named klass =>
    rw [encodeData]
    split
    · exact ⟨_, _, begins _ (by decide), by decide⟩
    · exact ⟨_, _, begins _ (classCode_small klass), classCode_plain klass⟩
  | szarray eclass | array rank eclass | ptr byref type | genericinst isDynamic klass args
  | var param | mvar param => exact ⟨_, _, begins _ (by decide), by decide⟩

variable {b : Byte} {fuel : Nat} {bytes : List Byte} {data : TypeData} {param : GenericParam}
  {sig : MonoMethodSignature}

theorem parsePrefixLoop_plain (plain : Plain b) (fuel : Nat) (found : TypePrefix) (tail : List Byte) :
    parsePrefixLoop (fuel + 1) found (b :: tail) = some (found, b :: tail) := by
  obtain ⟨pinned, byref, reqd, opt, _⟩ := plain
  change (if b = monoTypePinned then _ else if b = monoTypeByref then _ else
    if b = monoTypeCmodReqd ∨ b = monoTypeCmodOpt then _ else _ : Reader Byte TypePrefix) (b :: tail) = _
  rw [if_neg pinned, if_neg byref, if_neg (not_or.mpr ⟨reqd, opt⟩)]
  rfl

theorem parsePrefix_encodeByref (plain : Plain b) (byref : Bool) (tail : List Byte) :
    parsePrefix (encodeByref byref ++ b :: tail) = some (⟨false, byref, []⟩, b :: tail) := by
  cases byref with
  | false => exact parsePrefixLoop_plain plain _ _ tail
  | true => exact parsePrefixLoop_plain plain (tail.length + 1) ⟨false, true, []⟩ tail

theorem reads_typeFull (byref : Bool) (optAttrs : BitVec 16) (head : ∃ b tail, bytes = b :: tail ∧ Plain b)
    (inside : Reads (doMonoMetadataParseType classes tokens image
      (fun container => monoMetadataParseTypeFull classes tokens image fuel container 0) container) bytes data) :
    Reads (monoMetadataParseTypeFull classes tokens image (fuel + 1) container optAttrs)
      (encodeByref byref ++ bytes) ⟨optAttrs, false, byref, [], data⟩ := by
  intro rest
  obtain ⟨b, tail, begins, plain⟩ := head
  have read := inside rest
  have front := parsePrefix_encodeByref plain byref (tail ++ rest)
  rw [begins, List.cons_append] at read
  rw [begins, List.append_assoc, List.cons_append, monoMetadataParseTypeFull]
  simp only [bind, front, read]
  rfl

/-! ### The cases of a type -/

variable {parse : Option MonoGenericContainer → Reader Byte MonoType}

theorem reads_case {code : Byte} {tail : List Byte} (small : code.toNat < 0x80)
    (inside : Reads (parseCase classes tokens image parse container code) tail data) :
    Reads (doMonoMetadataParseType classes tokens image parse container) (encodeCode code ++ tail) data := by
  have wideCode : (code.setWidth 32).toNat < 2 ^ 29 := by
    rw [BitVec.toNat_setWidth]
    omega
  refine reads_bind (reads_monoMetadataDecodeValue wideCode) ?_
  rw [BitVec.setWidth_setWidth_of_le _ (by decide), BitVec.setWidth_eq]
  exact inside

theorem parseCase_class (klass : ClassId) :
    parseCase classes tokens image parse container (classCode classes klass) = (do
      let token ← monoMetadataParseTypedefOrRef
      match tokens.monoClassGet token with
      | none => fail
      | some klass => pure (.named klass)) := by
  unfold classCode
  split <;> rfl

theorem reads_class {klass : ClassId} (listed : Listed tokens klass) :
    Reads (doMonoMetadataParseType classes tokens image parse container) (encodeClass classes tokens klass)
      (.named klass) := by
  obtain ⟨small, token, isToken, resolved⟩ := listed
  have value := reads_monoMetadataDecodeValue small
  have readToken : Reads monoMetadataParseTypedefOrRef (monoMetadataEncodeValue (tokens.typedefOrRef klass)) token := by
    intro rest
    simp only [monoMetadataParseTypedefOrRef, bind, value rest, isToken]
    rfl
  apply reads_case (classCode_small klass)
  rw [parseCase_class]
  intro rest
  simp only [bind, readToken rest, resolved]
  rfl

theorem reads_param {isMvar : Bool} (found : Found image container isMvar param) :
    Reads (monoMetadataParseGenericParam image container isMvar)
      (monoMetadataEncodeValue (param.num.setWidth 32)) (foundParam image container isMvar param) := by
  have same : (param.num.setWidth 32).toNat = param.num.toNat := by
    rw [BitVec.toNat_setWidth]
    omega
  have small : (param.num.setWidth 32).toNat < 2 ^ 29 := by omega
  obtain ⟨param', isParam⟩ := Option.ne_none_iff_exists'.mp found
  intro rest
  simp only [monoMetadataParseGenericParam, foundParam, bind, reads_monoMetadataDecodeValue small rest, same, isParam]
  rfl

theorem reads_var (found : Found image container false param) :
    Reads (doMonoMetadataParseType classes tokens image parse container) (encodeParam monoTypeVar param)
      (.var (foundParam image container false param)) := by
  apply reads_case (by decide)
  exact reads_bind_pure (reads_param found)

theorem reads_mvar (found : Found image container true param) :
    Reads (doMonoMetadataParseType classes tokens image parse container) (encodeParam monoTypeMvar param)
      (.mvar (foundParam image container true param)) := by
  apply reads_case (by decide)
  exact reads_bind_pure (reads_param found)

/-! ### Types -/

variable (classes tokens) in
theorem encodeData_length (type : TypeData) : 1 ≤ (encodeData classes tokens type).length := by
  obtain ⟨b, tail, begins, _⟩ := encodeData_head classes tokens type
  rw [begins, List.length_cons]
  omega

/-- The own parameters of a generic class are read back as those that the container has for them. -/
theorem reads_own {own : MonoGenericContainer} (count : Nat) (first : Nat)
    (found : ∀ i < count, Found image container false (own.getParam (first + i))) :
    Reads (monoMetadataParseGenericInst (monoMetadataParseTypeFull classes tokens image (fuel + 1) container 0) count)
      (encodeOwn own first count) (parsedOwn image container own first count) := by
  induction count generalizing first with
  | zero => exact reads_pure _
  | succ count ih =>
    have here : Reads (monoMetadataParseTypeFull classes tokens image (fuel + 1) container 0)
        (encodeByref false ++ encodeData classes tokens (.var (own.getParam first)))
        ⟨0, false, false, [], .var (foundParam image container false (own.getParam first))⟩ := by
      apply reads_typeFull false 0 (encodeData_head _ _ _)
      exact reads_var (found 0 (Nat.succ_pos count))
    have rest := ih (first + 1) fun i small => by
      rw [Nat.add_assoc, Nat.add_comm 1 i]
      exact found (i + 1) (Nat.succ_lt_succ small)
    exact reads_bind here (reads_bind_pure rest)

theorem reads_genericClass {klass : ClassId} {own : MonoGenericContainer} {typeArgc : Nat} {args : TypeArgs}
    (listed : Listed tokens klass) (isGeneric : classes.genericContainer klass = some own) (few : typeArgc < 2 ^ 22)
    (inside : Reads (monoMetadataParseGenericInst
      (monoMetadataParseTypeFull classes tokens image (fuel + 1) container 0) typeArgc) bytes args) :
    Reads (doMonoMetadataParseType classes tokens image
      (fun container => monoMetadataParseTypeFull classes tokens image (fuel + 1) container 0) container)
        (encodeGenericClass classes tokens klass typeArgc bytes) (.genericinst false klass args) := by
  have definition : Reads (monoMetadataParseTypeFull classes tokens image (fuel + 1) none 0)
      (encodeByref false ++ encodeClass classes tokens klass) ⟨0, false, false, [], .named klass⟩ := by
    apply reads_typeFull false 0 _ (reads_class listed)
    rw [encodeClass, encodeCode_eq (classCode_small klass)]
    exact ⟨_, _, rfl, classCode_plain klass⟩
  have count : (BitVec.ofNat 32 typeArgc).toNat = typeArgc := by
    rw [BitVec.toNat_ofNat]
    omega
  apply reads_case (by decide)
  refine reads_bind definition ?_
  simp only [monoClassFromMonoType, isGeneric]
  refine reads_bind (reads_monoMetadataDecodeValue (by omega)) ?_
  rw [count]
  exact reads_bind_pure inside

theorem reads_inside {type : TypeData} (fuel : Nat) (byref : Bool) (optAttrs : BitVec 16)
    (enough : (encodeByref byref ++ encodeData classes tokens type).length ≤ fuel)
    (inside : ∀ fuel, (encodeData classes tokens type).length ≤ fuel + 1 →
      Reads (doMonoMetadataParseType classes tokens image
        (fun container => monoMetadataParseTypeFull classes tokens image fuel container 0) container)
          (encodeData classes tokens type) data) :
    Reads (monoMetadataParseTypeFull classes tokens image fuel container optAttrs)
      (encodeByref byref ++ encodeData classes tokens type) ⟨optAttrs, false, byref, [], data⟩ := by
  have some := encodeData_length classes tokens type
  rw [List.length_append] at enough
  obtain ⟨fuel, rfl⟩ : ∃ n, fuel = n + 1 := ⟨fuel - 1, by omega⟩
  exact reads_typeFull byref optAttrs (encodeData_head _ _ type) (inside fuel (by omega))

/-- The rank of an array is read back, and it has no sizes and no lower bounds. -/
theorem reads_array {rank : BitVec 8} {etype : MonoType}
    (inside : Reads (monoMetadataParseTypeFull classes tokens image fuel container 0) bytes etype) :
    Reads (monoMetadataParseArrayFull classes (monoMetadataParseTypeFull classes tokens image fuel container 0))
      (bytes ++ (monoMetadataEncodeValue (rank.setWidth 32) ++ (monoMetadataEncodeValue 0 ++ monoMetadataEncodeValue 0)))
      (.array rank (monoClassFromMonoType classes etype.data)) := by
  have wideRank : (rank.setWidth 32).toNat < 2 ^ 29 := by
    rw [BitVec.toNat_setWidth]
    omega
  have same : (rank.setWidth 32).setWidth 8 = rank := by
    rw [BitVec.setWidth_setWidth_of_le _ (by decide), BitVec.setWidth_eq]
  have zero : Reads monoMetadataDecodeValue (monoMetadataEncodeValue 0) 0 :=
    reads_monoMetadataDecodeValue (by decide)
  have none : Reads (many monoMetadataDecodeValue ((0 : BitVec 32).setWidth 8).toNat) [] [] := reads_pure []
  have bounds : Reads (do
      let numlobounds ← monoMetadataDecodeValue
      let _ ← many monoMetadataDecodeValue (numlobounds.setWidth 8).toNat
      pure (TypeData.array rank (monoClassFromMonoType classes etype.data)))
        (monoMetadataEncodeValue 0 ++ []) (.array rank (monoClassFromMonoType classes etype.data)) :=
    reads_bind zero (reads_bind_nothing none (reads_pure _))
  refine reads_bind inside (reads_bind (reads_monoMetadataDecodeValue wideRank) ?_)
  rw [same]
  exact reads_bind zero (reads_bind_nothing none bounds)

mutual

theorem reads_data : ∀ (type : TypeData) (fuel : Nat),
    Readable classes tokens image container type → (encodeData classes tokens type).length ≤ fuel + 1 →
      Reads (doMonoMetadataParseType classes tokens image
        (fun container => monoMetadataParseTypeFull classes tokens image fuel container 0) container)
          (encodeData classes tokens type) (parsedData classes image container type)
  | .simple type, fuel, _, _ => by
      rw [encodeData, encode_simple, parsedData, ← List.append_nil (encodeCode _)]
      apply reads_case (by cases type <;> decide)
      rw [parseCase, simpleOfCode_code]
      exact reads_pure _
  | .named klass, fuel, readable, enough => by
      rw [Readable] at readable
      rw [encodeData] at enough ⊢
      rw [parsedData]
      cases isGeneric : classes.genericContainer klass with
      | none => exact reads_class readable.1
      | some own =>
        rw [isGeneric] at enough
        obtain ⟨few, found⟩ := readable.2 own isGeneric
        simp only [encodeGenericClass, encodeClass, encodeCode_eq (classCode_small klass), List.length_append,
          encodeCode_genericinst, List.length_cons] at enough
        obtain ⟨fuel, rfl⟩ : ∃ n, fuel = n + 1 := ⟨fuel - 1, by omega⟩
        apply reads_genericClass readable.1 isGeneric few
        exact reads_own own.typeArgc 0 fun i small => by rw [Nat.zero_add]; exact found i small
  | .szarray eclass, fuel, readable, enough => by
      rw [encodeData, encodeCode_eq (by decide), List.length_append, List.length_singleton] at enough
      have short : (encodeByref false ++ encodeData classes tokens eclass).length ≤ fuel := by
        change (encodeData classes tokens eclass).length ≤ fuel
        omega
      have element := reads_inside fuel false 0 short fun fuel => reads_data eclass fuel readable
      apply reads_case (by decide)
      exact reads_bind_pure element
  | .array rank eclass, fuel, readable, enough => by
      rw [encodeData, encodeCode_eq (by decide), List.length_append, List.length_append, List.length_singleton] at enough
      have short : (encodeByref false ++ encodeData classes tokens eclass).length ≤ fuel := by
        change (encodeData classes tokens eclass).length ≤ fuel
        omega
      have element := reads_inside fuel false 0 short fun fuel => reads_data eclass fuel readable
      apply reads_case (by decide)
      exact reads_array element
  | .ptr byref type, fuel, readable, enough => by
      rw [encodeData, encodeCode_eq (by decide), List.length_append, List.length_singleton] at enough
      have inside := reads_inside fuel byref 0 (by omega) fun fuel => reads_data type fuel readable
      apply reads_case (by decide)
      exact reads_bind_pure inside
  | .genericinst isDynamic klass args, fuel, readable, enough => by
      obtain ⟨listed, generic, few, inside⟩ := readable
      obtain ⟨own, isGeneric⟩ := Option.ne_none_iff_exists'.mp generic
      rw [encodeData] at enough ⊢
      simp only [encodeGenericClass, encodeClass, encodeCode_eq (classCode_small klass), List.length_append,
        encodeCode_genericinst, List.length_cons] at enough
      obtain ⟨fuel, rfl⟩ : ∃ n, fuel = n + 1 := ⟨fuel - 1, by omega⟩
      exact reads_genericClass listed isGeneric few (reads_args args (fuel + 1) inside (by omega))
  | .var param, fuel, readable, _ => by
      exact reads_var readable
  | .mvar param, fuel, readable, _ => by
      exact reads_mvar readable

theorem reads_args : ∀ (args : TypeArgs) (fuel : Nat),
    ReadableArgs classes tokens image container args → (encodeArgs classes tokens args).length ≤ fuel →
      Reads (monoMetadataParseGenericInst (monoMetadataParseTypeFull classes tokens image fuel container 0)
        args.length) (encodeArgs classes tokens args) (parsedArgs classes image container args)
  | .nil, fuel, _, _ => reads_pure _
  | .cons byref type rest, fuel, readable, enough => by
      rw [encodeArgs, List.length_append] at enough
      have here := reads_inside fuel byref 0 (by omega) fun fuel => reads_data type fuel readable.1
      have others := reads_args rest fuel readable.2 (by omega)
      exact reads_bind here (reads_bind_pure others)

end

/-! ### Signatures -/

variable {methodDef : Nat} {paramAttrs : Nat → BitVec 16}

variable (classes tokens) in
theorem encodeType_head (type : MonoType) :
    ∃ b tail, encodeType classes tokens type = b :: tail ∧ b ≠ monoTypeSentinel := by
  obtain ⟨b, tail, begins, plain⟩ := encodeData_head classes tokens type.data
  unfold encodeType
  cases type.byref with
  | false => exact ⟨b, tail, begins, plain.2.2.2.2⟩
  | true => exact ⟨_, _, rfl, by decide⟩

variable (methodDef) in
theorem parseSentinel_absent (absent : b ≠ monoTypeSentinel) (callConvention : BitVec 6) (i : Nat)
    (sentinelpos : BitVec 16) (tail : List Byte) :
    parseSentinel methodDef callConvention i sentinelpos (b :: tail) = some (sentinelpos, b :: tail) := by
  change (if b = monoTypeSentinel then _ else _ : Reader Byte (BitVec 16)) (b :: tail) = _
  rw [if_neg absent]
  rfl

theorem parseSentinel_present {callConvention : BitVec 6} {sentinelpos : BitVec 16} (i : Nat) (tail : List Byte)
    (allowed : callConvention = monoCallVararg ∧ methodDef = 0) (first : sentinelpos.toInt < 0) :
    parseSentinel methodDef callConvention i sentinelpos (monoTypeSentinel :: tail) = some (BitVec.ofNat 16 i, tail) := by
  obtain ⟨rfl, rfl⟩ := allowed
  have unseen : ¬ 0 ≤ sentinelpos.toInt := Int.not_le.mpr first
  simp [parseSentinel, bind, peek, next, unseen]
  rfl

theorem reads_encodeType (fuel : Nat) {type : MonoType} (optAttrs : BitVec 16)
    (readable : Readable classes tokens image container type.data)
    (enough : (encodeType classes tokens type).length ≤ fuel) :
    Reads (monoMetadataParseTypeFull classes tokens image fuel container optAttrs) (encodeType classes tokens type)
      (parsedType classes image container optAttrs type) :=
  reads_inside fuel type.byref optAttrs enough fun fuel => reads_data type.data fuel readable

/-- The parameters are read back with the sentinel, which may stand before one of them. -/
theorem reads_params {callConvention : BitVec 6} (sentinelpos : BitVec 16) (params : List MonoType)
    (i : Nat) (before : BitVec 16) (readable : ∀ type ∈ params, Readable classes tokens image container type.data)
    (enough : (encodeParams classes tokens sentinelpos i params).length ≤ fuel)
    (allowed : (i : Int) ≤ sentinelpos.toInt → sentinelpos.toInt < (i + params.length : Nat) →
      (callConvention = monoCallVararg ∧ methodDef = 0) ∧ before.toInt < 0) :
    Reads (parseParams methodDef paramAttrs (monoMetadataParseTypeFull classes tokens image fuel container)
      callConvention params.length i before) (encodeParams classes tokens sentinelpos i params)
        (parsedSentinel sentinelpos i params.length before, parsedParams classes image container paramAttrs i params) := by
  induction params generalizing i before with
  | nil =>
    have none : ¬ ((i : Int) ≤ sentinelpos.toInt ∧ sentinelpos.toInt < (i + 0 : Nat)) := by omega
    rw [List.length_nil, parsedSentinel, if_neg none]
    exact reads_pure _
  | cons type params ih =>
    rw [encodeParams, List.length_append, List.length_append] at enough
    have here := reads_encodeType fuel (paramAttrs (i + 1)) (readable type List.mem_cons_self) (by omega)
    have later : ∀ type' ∈ params, Readable classes tokens image container type'.data := fun type' member =>
      readable type' (List.mem_cons_of_mem type member)
    obtain ⟨b, tail, begins, absent⟩ := encodeType_head classes tokens type
    rw [List.length_cons] at allowed
    intro rest
    by_cases isHere : (i : Int) = sentinelpos.toInt
    · obtain ⟨vararg, first⟩ := allowed (by omega) (by omega)
      have same : BitVec.ofNat 16 i = sentinelpos := by
        rw [← BitVec.ofInt_natCast, isHere, BitVec.ofInt_toInt]
      have seen := parseSentinel_present i (encodeType classes tokens type ++
        (encodeParams classes tokens sentinelpos (i + 1) params ++ rest)) vararg first
      have read := ih (i + 1) sentinelpos later (by omega) (by omega) rest
      have inside : (i : Int) ≤ sentinelpos.toInt ∧ sentinelpos.toInt < (i + (params.length + 1) : Nat) := by omega
      have passed : parsedSentinel sentinelpos (i + 1) params.length sentinelpos = sentinelpos := ite_self _
      rw [same] at seen
      rw [encodeParams, if_pos isHere, List.length_cons, parseParams, parsedSentinel, if_pos inside, parsedParams]
      simp only [bind, List.append_assoc, List.cons_append, List.nil_append, seen, here _, read, passed]
      rfl
    · have unseen := parseSentinel_absent methodDef absent callConvention i before
        (tail ++ (encodeParams classes tokens sentinelpos (i + 1) params ++ rest))
      rw [← List.cons_append, ← begins] at unseen
      have read := ih (i + 1) before later (by omega) (fun low high => allowed (by omega) (by omega)) rest
      have passed : parsedSentinel sentinelpos (i + 1) params.length before =
          parsedSentinel sentinelpos i (params.length + 1) before := by
        unfold parsedSentinel
        congr 1
        apply propext
        constructor <;> intro range <;> omega
      rw [encodeParams, if_neg isHere, List.length_cons, parseParams, parsedParams, ← passed]
      simp only [bind, List.append_assoc, List.nil_append, unseen, here _, read]
      rfl

theorem signatureByte_bits (callConvention : BitVec 6) (hasthis generic : Bool) (small : callConvention.toNat < 0x10) :
    let b : Byte := callConvention.setWidth 8 ||| (if hasthis then 0x20 else 0) ||| (if generic then 0x10 else 0)
    (b &&& 0x10 ≠ 0 ↔ generic) ∧ decide (b &&& 0x20 ≠ 0) = hasthis ∧ b &&& 0x40 = 0 ∧
      (b &&& 0x0f).setWidth 6 = callConvention := by
  have all : ∀ n : Fin 64, n.val < 0x10 → ∀ hasthis generic : Bool,
      let b : Byte := (BitVec.ofFin n : BitVec 6).setWidth 8 ||| (if hasthis then 0x20 else 0) |||
        (if generic then 0x10 else 0)
      (b &&& 0x10 ≠ 0 ↔ generic) ∧ decide (b &&& 0x20 ≠ 0) = hasthis ∧ b &&& 0x40 = 0 ∧
        (b &&& 0x0f).setWidth 6 = (BitVec.ofFin n : BitVec 6) := by
    decide
  exact all callConvention.toFin small hasthis generic

/-- The number of generic parameters is read back; the first byte says whether it is there. -/
theorem reads_genericParamCount (isGeneric : b &&& 0x10 ≠ 0 ↔ sig.genericParamCount ≠ 0)
    (small : sig.genericParamCount.toNat < 2 ^ 29) :
    Reads (parseGenericParamCount b) (encodeGenericParamCount sig) (sig.genericParamCount.setWidth 32) := by
  unfold parseGenericParamCount encodeGenericParamCount
  simp only [isGeneric]
  by_cases none : sig.genericParamCount = 0
  · rw [if_neg (not_not.mpr none), if_neg (not_not.mpr none), none]
    exact reads_pure _
  · rw [if_pos none, if_pos none]
    apply reads_monoMetadataDecodeValue
    rw [BitVec.toNat_setWidth]
    omega

theorem reads_signature {ret : MonoType} {blob : List Byte}
    (readable : SignatureReadable classes tokens image container methodDef sig) (hasRet : sig.ret = some ret)
    (written : methodEncodeSignature classes tokens sig = some blob) (enough : blob.length ≤ fuel) :
    Reads (parseSignature methodDef paramAttrs (monoMetadataParseTypeFull classes tokens image fuel container)) blob
      (parsedSignature classes image container methodDef paramAttrs sig ret) := by
  obtain ⟨ret', hasRet', retReadable⟩ := readable.ret
  cases hasRet.symm.trans hasRet'
  rw [methodEncodeSignature, hasRet] at written
  cases written
  simp only [List.length_cons, List.length_append] at enough
  have few := readable.paramCount
  have count : (BitVec.ofNat 32 sig.params.length).toNat = sig.params.length := by
    rw [BitVec.toNat_ofNat]
    omega
  have count16 : (BitVec.ofNat 32 sig.params.length).setWidth 16 = BitVec.ofNat 16 sig.params.length :=
    BitVec.setWidth_ofNat_of_le (by decide) _
  have params16 : (BitVec.ofNat 16 sig.params.length).toNat = sig.params.length := by
    rw [BitVec.toNat_ofNat]
    omega
  have generic30 : (sig.genericParamCount.setWidth 32).setWidth 30 = sig.genericParamCount := by
    rw [BitVec.setWidth_setWidth_of_le _ (by decide), BitVec.setWidth_eq]
  have bits := signatureByte_bits sig.callConvention sig.hasthis (decide (sig.genericParamCount ≠ 0))
    readable.callConvention
  simp only [decide_eq_true_eq] at bits
  obtain ⟨isGeneric, hasthis, explicitThis, callConvention⟩ := bits
  change decide (signatureByte sig &&& 0x20 ≠ 0) = _ at hasthis
  change signatureByte sig &&& 0x40 = 0 at explicitThis
  change (signatureByte sig &&& 0x0f).setWidth 6 = _ at callConvention
  have readRet : Reads (parseRet paramAttrs (monoMetadataParseTypeFull classes tokens image fuel container)
      sig.callConvention) (encodeType classes tokens ret)
        (some (parsedType classes image container (paramAttrs 0) ret)) := by
    rw [parseRet, if_pos readable.hasResult]
    exact reads_bind_pure (reads_encodeType fuel _ retReadable.readable (by omega))
  have readParams : Reads (parseParams methodDef paramAttrs (monoMetadataParseTypeFull classes tokens image fuel
      container) sig.callConvention sig.params.length 0 (-1)) (encodeParams classes tokens sig.sentinelpos 0 sig.params)
        (parsedSentinel sig.sentinelpos 0 sig.params.length (-1),
          parsedParams classes image container paramAttrs 0 sig.params) :=
    reads_params sig.sentinelpos sig.params 0 (-1) (fun type member => (readable.params type member).readable)
      (by omega) fun low high => ⟨readable.sentinel low (by omega), by decide⟩
  rw [parseSignature, ← List.singleton_append]
  refine reads_bind (reads_next _) ?_
  simp only [hasthis, explicitThis, callConvention]
  refine reads_bind (reads_genericParamCount isGeneric readable.genericParamCount) ?_
  refine reads_bind (reads_monoMetadataDecodeValue (by omega)) ?_
  simp only [count16, params16, generic30]
  refine reads_bind readRet ?_
  intro rest
  simp only [bind, readParams rest]
  rfl

theorem reads_methodSignature {ret : MonoType} {blob : List Byte}
    (readable : SignatureReadable classes tokens image container methodDef sig) (hasRet : sig.ret = some ret)
    (written : methodEncodeSignature classes tokens sig = some blob) :
    Reads (monoMetadataParseMethodSignatureFull classes tokens image methodDef paramAttrs container) blob
      (parsedSignature classes image container methodDef paramAttrs sig ret) := by
  intro rest
  have enough : blob.length ≤ (blob ++ rest).length := by
    rw [List.length_append]
    omega
  exact reads_signature readable hasRet written enough rest

end Blob

end MonoRuntime.MethodSignature
