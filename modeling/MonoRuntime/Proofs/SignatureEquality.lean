/-
Module: MonoRuntime.Proofs.SignatureEquality
Purpose: What is read back for a signature is equal to it, where the comparison looks through its types. Generic
  parameters are compared by their numbers, but the elements of arrays that are arrays or pointers are compared as
  pointers.
Trusted boundary: none
Main exports: methodSignature_roundTrips, methodSignature_notReadBack
-/
import MonoRuntime.Proofs.SignatureBlob

namespace MonoRuntime.MethodSignature

open Reader

variable {classes : Classes} {tokens : Tokens} {image : ImageId} {container : Option MonoGenericContainer}

/-! ### Parameters -/

theorem foundParam_num (isMvar : Bool) (param : GenericParam) :
    (foundParam image container isMvar param).num = param.num := by
  have index : BitVec.ofNat 16 param.num.toNat = param.num := by
    rw [BitVec.ofNat_toNat, BitVec.setWidth_eq]
  unfold foundParam findParam
  split
  · rfl
  split
  · exact index
  split
  · rfl
  · exact index

theorem foundParam_kept {isMvar : Bool} {param : GenericParam} (kept : Kept image container isMvar param) :
    foundParam image container isMvar param = param := by
  rw [foundParam, kept.2]
  rfl

/-- The own parameters of a generic class are read as they are where each is kept. -/
theorem parsedOwn_kept {own : MonoGenericContainer} (count first : Nat)
    (kept : ∀ i < count, Kept image container false (own.getParam (first + i))) :
    parsedOwn image container own first count = ownFrom own first count := by
  induction count generalizing first with
  | zero => rfl
  | succ count ih =>
    have here := foundParam_kept (kept 0 (Nat.succ_pos count))
    have later := ih (first + 1) fun i small => by
      rw [Nat.add_assoc, Nat.add_comm 1 i]
      exact kept (i + 1) (Nat.succ_lt_succ small)
    rw [Nat.add_zero] at here
    rw [parsedOwn, ownFrom, here, later]

theorem isTbOpen_loaded (klass : ClassId) (args : TypeArgs) : isTbOpen classes false klass args = false := by
  unfold isTbOpen
  split <;> rfl

/-! ### Types that are kept -/

mutual

theorem parsedData_kept : ∀ (type : TypeData), IsType classes type → AllKept classes image container type →
    parsedData classes image container type = type
  | .simple type, _, _ => rfl
  | .named klass, isType, _ => by
      rw [parsedData, isType]
  | .szarray eclass, isType, kept => by
      rw [parsedData, class_kept eclass isType kept]
  | .array rank eclass, isType, kept => by
      rw [parsedData, class_kept eclass isType kept]
  | .ptr byref type, isType, kept => by
      rw [parsedData, parsedData_kept type isType kept]
  | .genericinst isDynamic klass args, isType, kept => by
      rw [parsedData, parsedArgs_kept args isType kept.2, kept.1]
  | .var param, _, kept => by
      rw [parsedData, foundParam_kept kept]
  | .mvar param, _, kept => by
      rw [parsedData, foundParam_kept kept]

theorem class_kept : ∀ (eclass : TypeData), IsClass classes eclass → AllKept classes image container eclass →
    monoClassFromMonoType classes (parsedData classes image container eclass) = eclass
  | .simple type, _, _ => rfl
  | .named klass, _, kept => by
      rw [parsedData]
      cases isGeneric : classes.genericContainer klass with
      | none => rfl
      | some own =>
        have same : parsedOwn image container own 0 own.typeArgc = own.classInst :=
          parsedOwn_kept own.typeArgc 0 fun i small => by rw [Nat.zero_add]; exact kept own isGeneric i small
        simp only [monoClassFromMonoType, isDefinition, isGeneric, same, isTbOpen_loaded]
        rfl
  | .szarray eclass, isClass, kept => by
      rw [parsedData, monoClassFromMonoType, class_kept eclass isClass kept]
  | .array rank eclass, isClass, kept => by
      rw [parsedData, monoClassFromMonoType, class_kept eclass isClass kept]
  | .ptr byref type, isClass, kept => by
      rw [parsedData, monoClassFromMonoType, class_kept type isClass.2 kept, isClass.1]
  | .genericinst isDynamic klass args, isClass, kept => by
      obtain ⟨notDefinition, areTypes⟩ := isClass
      obtain ⟨rfl, keptArgs⟩ := kept
      rw [parsedData, parsedArgs_kept args areTypes keptArgs, monoClassFromMonoType, notDefinition]
      rfl
  | .var param, _, kept => by
      rw [parsedData, foundParam_kept kept]
      rfl
  | .mvar param, _, kept => by
      rw [parsedData, foundParam_kept kept]
      rfl

theorem parsedArgs_kept : ∀ (args : TypeArgs), AreTypes classes args → AllKeptArgs classes image container args →
    parsedArgs classes image container args = args
  | .nil, _, _ => rfl
  | .cons byref type rest, areTypes, kept => by
      rw [parsedArgs, parsedData_kept type areTypes.1 kept.1, parsedArgs_kept rest areTypes.2 kept.2]

end

/-! ### Open types -/

mutual

theorem open_parsed : ∀ (type : TypeData), IsType classes type → Comparable classes image container type →
    monoClassIsOpenConstructedType (parsedData classes image container type) = monoClassIsOpenConstructedType type
  | .simple type, _, _ => rfl
  | .named klass, isType, _ => by
      rw [parsedData, isType]
  | .szarray eclass, isType, comparable => by
      exact open_class eclass isType comparable
  | .array rank eclass, isType, comparable => by
      exact open_class eclass isType comparable
  | .ptr byref type, isType, comparable => by
      exact open_parsed type isType comparable
  | .genericinst isDynamic klass args, isType, comparable => by
      exact isOpen_parsed args isType comparable.2
  | .var param, _, _ | .mvar param, _, _ => rfl

theorem open_class : ∀ (eclass : TypeData), IsClass classes eclass → ElementComparable classes image container eclass →
    monoClassIsOpenConstructedType (monoClassFromMonoType classes (parsedData classes image container eclass)) =
      monoClassIsOpenConstructedType eclass
  | .simple type, _, _ => rfl
  | .named klass, isClass, comparable => by
      rw [class_kept _ isClass comparable]
  | .szarray eclass, isClass, comparable => by
      exact open_class eclass isClass comparable
  | .array rank eclass, isClass, comparable => by
      rw [class_kept _ isClass comparable]
  | .ptr byref type, isClass, comparable => by
      rw [class_kept _ isClass comparable]
  | .genericinst isDynamic klass args, isClass, comparable => by
      rw [parsedData, monoClassFromMonoType, comparable.2.1]
      exact isOpen_parsed args isClass.2 comparable.2.2
  | .var param, _, _ | .mvar param, _, _ => rfl

theorem isOpen_parsed : ∀ (args : TypeArgs), AreTypes classes args → ComparableArgs classes image container args →
    isOpen (parsedArgs classes image container args) = isOpen args
  | .nil, _, _ => rfl
  | .cons byref type rest, areTypes, comparable => by
      rw [parsedArgs, isOpen, isOpen, open_parsed type areTypes.1 comparable.1,
        isOpen_parsed rest areTypes.2 comparable.2]

end

/-! ### Equality -/

theorem classEqual_self (eclass : TypeData) : classEqual classes eclass eclass = true := by
  unfold classEqual
  rw [decide_eq_true rfl, Bool.true_or]

theorem genericParamEqual_found (isMvar : Bool) (param : GenericParam) :
    genericParamEqual param (foundParam image container isMvar param) = true := by
  rw [genericParamEqual, foundParam_num]
  exact beq_self_eq_true _

/-- Instances of one class are equal when they are both open or not and their arguments are equal. -/
theorem genericClassEqual_of_args (classes : Classes) (klass : ClassId) {args1 args2 : TypeArgs} {equal : Bool}
    (sameOpen : isOpen args1 = isOpen args2) (isEqual : equal = true) :
    genericClassEqual classes false klass args1 false klass args2 (instEqual args1 args2 equal) = true := by
  unfold genericClassEqual instEqual
  rw [sameOpen, isEqual, isTbOpen_loaded, isTbOpen_loaded]
  simp only [beq_self_eq_true, Bool.and_true, Bool.or_true]

mutual

theorem dataEqual_parsed : ∀ (type : TypeData), IsType classes type → Comparable classes image container type →
    dataEqual classes type (parsedData classes image container type) = true
  | .simple type, _, _ => by
      exact beq_self_eq_true type
  | .named klass, isType, _ => by
      rw [parsedData, isType, dataEqual]
      exact beq_self_eq_true klass
  | .szarray eclass, isType, comparable => by
      exact classEqual_parsed eclass isType comparable
  | .array rank eclass, isType, comparable => by
      rw [parsedData, dataEqual, classEqual_parsed eclass isType comparable, beq_self_eq_true]
      rfl
  | .ptr byref type, isType, comparable => by
      rw [parsedData, dataEqual, dataEqual_parsed type isType comparable, beq_self_eq_true]
      rfl
  | .genericinst isDynamic klass args, isType, comparable => by
      obtain ⟨rfl, comparableArgs⟩ := comparable
      have sameOpen := isOpen_parsed args isType comparableArgs
      exact genericClassEqual_of_args classes klass sameOpen.symm (argsEqual_parsed args isType comparableArgs)
  | .var param, _, _ => by
      exact genericParamEqual_found false param
  | .mvar param, _, _ => by
      exact genericParamEqual_found true param

theorem classEqual_parsed : ∀ (eclass : TypeData), IsClass classes eclass →
    ElementComparable classes image container eclass →
      classEqual classes eclass (monoClassFromMonoType classes (parsedData classes image container eclass)) = true
  | .simple type, _, _ => classEqual_self _
  | .named klass, isClass, comparable => by
      rw [class_kept _ isClass comparable]
      exact classEqual_self _
  | .szarray eclass, isClass, comparable => by
      rw [parsedData, monoClassFromMonoType, classEqual]
      simp only [classEqual_parsed eclass isClass comparable, Bool.or_true]
  | .array rank eclass, isClass, comparable => by
      rw [class_kept _ isClass comparable]
      exact classEqual_self _
  | .ptr byref type, isClass, comparable => by
      rw [class_kept _ isClass comparable]
      exact classEqual_self _
  | .genericinst isDynamic klass args, isClass, comparable => by
      obtain ⟨rfl, notDefinition, comparableArgs⟩ := comparable
      have sameOpen := isOpen_parsed args isClass.2 comparableArgs
      have equal := genericClassEqual_of_args classes klass sameOpen.symm
        (argsEqual_parsed args isClass.2 comparableArgs)
      rw [parsedData, monoClassFromMonoType, notDefinition, if_neg Bool.false_ne_true, classEqual]
      simp only [equal, Bool.or_true]
  | .var param, _, _ => by
      rw [parsedData, monoClassFromMonoType, classEqual]
      simp only [genericParamEqual_found, Bool.or_true]
  | .mvar param, _, _ => by
      rw [parsedData, monoClassFromMonoType, classEqual]
      simp only [genericParamEqual_found, Bool.or_true]

theorem argsEqual_parsed : ∀ (args : TypeArgs), AreTypes classes args → ComparableArgs classes image container args →
    argsEqual classes args (parsedArgs classes image container args) = true
  | .nil, _, _ => rfl
  | .cons byref type rest, areTypes, comparable => by
      rw [parsedArgs, argsEqual, dataEqual_parsed type areTypes.1 comparable.1,
        argsEqual_parsed rest areTypes.2 comparable.2, beq_self_eq_true]
      rfl

end

/-! ### Signatures -/

theorem typeEqual_parsed {type : MonoType} (readable : TypeReadable classes tokens image container type)
    (optAttrs : BitVec 16) :
    doMonoMetadataTypeEqual classes type (parsedType classes image container optAttrs type) = true := by
  rw [doMonoMetadataTypeEqual, parsedType, dataEqual_parsed type.data readable.isType readable.comparable,
    beq_self_eq_true]
  rfl

variable {paramAttrs : Nat → BitVec 16}

theorem length_parsedParams (i : Nat) (params : List MonoType) :
    (parsedParams classes image container paramAttrs i params).length = params.length := by
  induction params generalizing i with
  | nil => rfl
  | cons type params ih => exact congrArg (· + 1) (ih (i + 1))

theorem paramsEqual_parsed (i : Nat) (params : List MonoType)
    (readable : ∀ type ∈ params, TypeReadable classes tokens image container type) :
    paramsEqual classes params (parsedParams classes image container paramAttrs i params) = true := by
  induction params generalizing i with
  | nil => rfl
  | cons type params ih =>
    have here := typeEqual_parsed (readable type List.mem_cons_self) (paramAttrs (i + 1))
    have later := ih (i + 1) fun type' member => readable type' (List.mem_cons_of_mem type member)
    rw [parsedParams, paramsEqual, here, later]
    rfl

/-- The blob that is written for a signature is read back, up to its last byte, as a signature that is equal to it,
with the same calling convention and the same counts. -/
theorem methodSignature_roundTrips {methodDef : Nat} {sig : MonoMethodSignature}
    (readable : SignatureReadable classes tokens image container methodDef sig) :
    ∃ blob method, methodEncodeSignature classes tokens sig = some blob ∧
      Reads (monoMetadataParseMethodSignatureFull classes tokens image methodDef paramAttrs container) blob method ∧
      monoMetadataSignatureEqual classes sig method = true ∧ method.hasthis = sig.hasthis ∧
      method.callConvention = sig.callConvention ∧ method.genericParamCount = sig.genericParamCount ∧
      method.params.length = sig.params.length := by
  obtain ⟨ret, hasRet, retReadable⟩ := readable.ret
  have written : ∃ blob, methodEncodeSignature classes tokens sig = some blob := by
    rw [methodEncodeSignature, hasRet]
    exact ⟨_, rfl⟩
  obtain ⟨blob, written⟩ := written
  have counts : (parsedParams classes image container paramAttrs 0 sig.params).length = sig.params.length :=
    length_parsedParams 0 sig.params
  refine ⟨blob, _, written, reads_methodSignature readable hasRet written, ?_, rfl, rfl, rfl, counts⟩
  have sameRet := typeEqual_parsed retReadable (paramAttrs 0)
  have sameParams : paramsEqual classes sig.params (parsedParams classes image container paramAttrs 0 sig.params) = true :=
    paramsEqual_parsed 0 sig.params readable.params
  simp only [monoMetadataSignatureEqual, parsedSignature, hasRet, sameRet, sameParams, counts, beq_self_eq_true,
    Bool.and_true]

/-! ### Samples -/

/-- The generic class 1 has one parameter; the other classes are not generic. -/
def sampleClasses : Classes where
  genericContainer klass := if klass = 1 then some ⟨10, false, 1, none⟩ else none
  valuetype klass := decide (klass = 2)
  wastypebuilder _ := false

/-- Each class is in the table of definitions, one row after the other. -/
def sampleTokens : Tokens where
  typedefOrRef klass := BitVec.ofNat 32 (4 * (klass + 1))
  monoClassGet token := if 0x02000000 < token.toNat then some (token.toNat - 0x02000001) else none

/-- A generic method with one parameter, in a class that is not generic. -/
def sampleContainer : MonoGenericContainer :=
  ⟨20, true, 1, none⟩

/-- A type of a signature. -/
def plainType (byref : Bool) (data : TypeData) : MonoType :=
  ⟨0, false, byref, [], data⟩

/-- A signature with the parameters, and no result. -/
def sampleSignature (callConvention : BitVec 6) (sentinelpos : BitVec 16) (genericParamCount : BitVec 30)
    (params : List MonoType) : MonoMethodSignature where
  hasthis := true
  explicitThis := false
  callConvention := callConvention
  sentinelpos := sentinelpos
  genericParamCount := genericParamCount
  hasTypeParameters := false
  ret := some (plainType false (.simple .void))
  params := params

/-- An instance over the parameter of the method, a reference to an array of pointers, and behind the sentinel an array
of a rank that takes two bytes. -/
def sampleParams : List MonoType :=
  [plainType false (.genericinst false 1 (.cons false (.mvar (sampleContainer.getParam 0)) .nil)),
    plainType true (.szarray (.ptr false (.named 2))),
    plainType false (.array 200 (.mvar (sampleContainer.getParam 0)))]

theorem sampleParams_readable :
    ∀ type ∈ sampleParams, TypeReadable sampleClasses sampleTokens 0 (some sampleContainer) type := by
  have listed1 : Listed sampleTokens 1 := ⟨by decide, _, rfl, rfl⟩
  have listed2 : Listed sampleTokens 2 := ⟨by decide, _, rfl, rfl⟩
  have isFound : Found 0 (some sampleContainer) true (sampleContainer.getParam 0) := Option.some_ne_none _
  have notGeneric : ∀ own, ¬ sampleClasses.genericContainer 2 = some own := by
    intro own isGeneric
    cases isGeneric
  intro type member
  simp only [sampleParams, List.mem_cons, List.not_mem_nil, or_false] at member
  obtain rfl | rfl | rfl := member
  · exact ⟨⟨trivial, trivial⟩, ⟨listed1, Option.some_ne_none _, by decide, isFound, trivial⟩, rfl, trivial, trivial⟩
  · exact ⟨⟨rfl, trivial⟩, ⟨listed2, fun own isGeneric => absurd isGeneric (notGeneric own)⟩,
      fun own isGeneric => absurd isGeneric (notGeneric own)⟩
  · exact ⟨trivial, isFound, trivial⟩

theorem methodSignature_roundTrips_sample :
    ∃ blob method, methodEncodeSignature sampleClasses sampleTokens (sampleSignature 5 2 1 sampleParams) = some blob ∧
      Reads (monoMetadataParseMethodSignatureFull sampleClasses sampleTokens 0 0 (fun _ => 0) (some sampleContainer))
        blob method ∧
      monoMetadataSignatureEqual sampleClasses (sampleSignature 5 2 1 sampleParams) method = true ∧
      method.hasthis = (sampleSignature 5 2 1 sampleParams).hasthis ∧
      method.callConvention = (sampleSignature 5 2 1 sampleParams).callConvention ∧
      method.genericParamCount = (sampleSignature 5 2 1 sampleParams).genericParamCount ∧
      method.params.length = (sampleSignature 5 2 1 sampleParams).params.length :=
  methodSignature_roundTrips
    { ret := ⟨_, rfl, ⟨trivial, trivial, trivial⟩⟩
      params := sampleParams_readable
      paramCount := by decide
      genericParamCount := by decide
      callConvention := by decide
      hasResult := by decide
      sentinel := fun _ _ => ⟨rfl, rfl⟩ }

/-- Signatures that are not read back as equal ones: a sentinel without variable arguments, a calling convention that
takes the bits of the flags, a number of generic parameters that does not fit into a compressed value, an instance of
a type builder, an array of arrays over a parameter that the reader does not have, and a parameter that is not one
of the method. -/
theorem methodSignature_notReadBack :
    writeAndRead sampleClasses sampleTokens 0 none 0 (fun _ => 0)
        (sampleSignature 0 0 0 [plainType false (.simple .i4)]) = none ∧
      (writeAndRead sampleClasses sampleTokens 0 none 0 (fun _ => 0) (sampleSignature 0x25 (-1) 0 [])).map
        (fun method => method.callConvention) = some 5 ∧
      (writeAndRead sampleClasses sampleTokens 0 none 0 (fun _ => 0) (sampleSignature 0 (-1) 0x20000000 [])).map
        (fun method => method.genericParamCount) = some 0 ∧
      (writeAndRead sampleClasses sampleTokens 0 none 0 (fun _ => 0) (sampleSignature 0 (-1) 0
        [plainType false (.genericinst true 1 (.cons false (.simple .i4) .nil))])).map
          (monoMetadataSignatureEqual sampleClasses (sampleSignature 0 (-1) 0
            [plainType false (.genericinst true 1 (.cons false (.simple .i4) .nil))])) = some false ∧
      (writeAndRead sampleClasses sampleTokens 0 none 0 (fun _ => 0) (sampleSignature 0 (-1) 0
        [plainType false (.szarray (.array 2 (.mvar (sampleContainer.getParam 0))))])).map
          (monoMetadataSignatureEqual sampleClasses (sampleSignature 0 (-1) 0
            [plainType false (.szarray (.array 2 (.mvar (sampleContainer.getParam 0))))])) = some false ∧
      writeAndRead sampleClasses sampleTokens 0 (some sampleContainer) 0 (fun _ => 0)
        (sampleSignature 0 (-1) 0 [plainType false (.mvar ⟨none, some 0, 1⟩)]) = none := by
  decide

end MonoRuntime.MethodSignature
