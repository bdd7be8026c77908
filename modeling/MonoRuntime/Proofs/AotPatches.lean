/-
Module: MonoRuntime.Proofs.AotPatches
Purpose: A patch is rebuilt from what is written for it if and only if its type has a case on both sides, its offset is
  one that a `gint` can hold, and the method of a patch that is read as a token has an image, also in the patches inside
  it. The methods of array classes whose token is not recorded have none.
Trusted boundary: none
Main exports: patch_roundTrips_iff
-/
import MonoRuntime.Mini.AotPatches
import MonoRuntime.Proofs.AotRefs

namespace MonoRuntime.AotRefs

open Reader List BitVec Option
open DebugInfo (encodeValue decodeValue reads_decodeValue)

variable {acfg : MonoAotCompile} {amodule : MonoAotModule} {tables : ClassTables} {monoAotOnly : Bool}

/-! ### Types, names and tables -/

theorem jumpInfoTypeOfCode_code (type : MonoJumpInfoType) : jumpInfoTypeOfCode type.code = some type := by
  cases type with
  | klass type | method type | token type | name type | field type | plain type => cases type <;> rfl
  | methodconst | abs | image | methodRel | switch | ldstr | excName | r4 | r8 | rgctxFetch | mscorlibGotAddr | none => rfl

theorem cString_append {name : List Byte} (noNul : 0 ∉ name) (rest : List Byte) :
    cString (name ++ 0 :: rest) = some (name, name ++ 0 :: rest) := by
  have inside : 0 ∈ name ++ 0 :: rest := mem_append_right _ mem_cons_self
  have front : (name ++ 0 :: rest).takeWhile (fun b => b != 0) = name := by
    rw [takeWhile_append_of_pos]
    · simp
    · intro b member
      rw [bne_iff_ne]
      intro zero
      exact noNul (zero ▸ member)
  unfold cString
  rw [if_pos inside, front]

theorem reads_name (name : CString) : Reads decodeName (encodeName name) name := by
  obtain ⟨bytes, noNul, short⟩ := name
  have len : (BitVec.ofNat 32 bytes.length).toNat = bytes.length := ofNat_toNat (by omega)
  refine reads_bind (reads_decodeValue _) ?_
  intro rest
  rw [len]
  have look := cString_append noNul rest
  have skip := reads_symbols (bytes ++ [0]) rest
  rw [length_append, length_singleton] at skip
  simp only [List.append_assoc, singleton_append, bind] at look skip ⊢
  rw [look]
  dsimp only
  rw [skip]
  rw [dif_pos ⟨noNul, short⟩]
  rfl

theorem reads_switch (table : JumpTable) :
    Reads decodeSwitch (encodeValue (BitVec.ofNat 32 table.1.length) ++ table.1.flatMap encodeValue) table := by
  obtain ⟨entries, few⟩ := table
  have size : (BitVec.ofNat 32 entries.length).toNat = entries.length := ofNat_toNat (by omega)
  refine reads_bind (reads_decodeValue _) ?_
  rw [size, ← append_nil (entries.flatMap encodeValue)]
  refine reads_bind (reads_list entries reads_decodeValue) ?_
  rw [dif_pos few]
  exact reads_pure _

/-! ### Fields -/

theorem tokenCode_eq (token : BitVec 32) : tokenCode token = tokenTable token <<< 24 := by
  have bits : ∀ i < 32, (0xff000000 : BitVec 32).getLsbD i = decide (24 ≤ i) := by decide
  unfold tokenCode tokenTable
  apply eq_of_getLsbD_eq
  intro i inside
  rw [getLsbD_and, bits i inside, getLsbD_shiftLeft, getLsbD_ushiftRight]
  by_cases high : 24 ≤ i
  · have back : 24 + (i - 24) = i := by omega
    simp [high, inside, back]
  · have low : i < 24 := by omega
    simp [low]

theorem monoClassGetField_token {field : MonoClassField} {token : BitVec 32}
    (is : fieldToken tables field = some token) : monoClassGetField tables field.parent token = some field := by
  obtain ⟨parent, index⟩ := field
  obtain ⟨inside, same⟩ := ite_none_right_eq_some.1 is
  have few := tables.fieldsFew parent
  have row : (BitVec.ofNat 32 (tables.fieldFirst parent + index + 1)).toNat = tables.fieldFirst parent + index + 1 := by
    apply ofNat_toNat
    dsimp only at inside
    omega
  have small : (BitVec.ofNat 32 (tables.fieldFirst parent + index + 1)).toNat < 2 ^ 24 := by
    dsimp only at inside
    omega
  have parts : monoTokenFieldDef = (4 : BitVec 32) <<< 24 := by decide
  have lower : token &&& 0xffffff = BitVec.ofNat 32 (tables.fieldFirst parent + index + 1) := by
    rw [← Option.some.inj same, parts]
    exact lower_of_parts small
  have code : tokenCode token = monoTokenFieldDef := by
    have upper : token >>> 24 = 4 := by
      rw [← Option.some.inj same, parts]
      exact upper_of_parts (by decide) small
    rw [tokenCode_eq, tokenTable, upper, parts]
  have idx : ((token &&& 0xffffff).toNat : Int) - 1 = (tables.fieldFirst parent + index : Nat) := by
    rw [lower, row]
    omega
  have found : fieldAt tables (((token &&& 0xffffff).toNat : Int) - 1) parent
      = some { parent := parent, index := index } := by
    unfold fieldAt
    rw [idx, if_pos (by dsimp only at inside; omega)]
    congr 2
    omega
  unfold monoClassGetField
  rw [if_pos code, findSome?_cons, found]

variable {fuel : Nat} {bytes : List Byte} {method : MonoMethod}

theorem reads_fieldInfo (resolves : Resolves acfg amodule) {field : MonoClassField}
    (written : encodeFieldInfo acfg tables field = some bytes) (readable : classReadable acfg field.parent = true)
    (deep : classDepth field.parent ≤ fuel) :
    Reads (decodeFieldInfo tables (decodeKlassRef amodule fuel)) bytes field := by
  obtain ⟨token, is, written⟩ := bind_eq_some_iff.1 written
  obtain ⟨klass, head, written⟩ := bind_eq_some_iff.1 written
  obtain ⟨-, same⟩ := ite_none_right_eq_some.1 written
  cases same
  have reads := reads_klassRef resolves field.parent fuel head deep
  rw [(restoredClass_eq_iff field.parent).2 readable] at reads
  refine reads_bind reads ?_
  refine reads_then_need (reads_decodeValue _) ?_
  rw [add_difference]
  exact monoClassGetField_token is

/-! ### Tokens and methods -/

theorem reads_ldstr (resolves : Resolves acfg amodule) {image : MonoImage} {token : BitVec 32}
    (written : encodeLdstr acfg image token = some bytes) :
    Reads (readImage amodule >>= fun image => decodeValue >>= fun token =>
      pure (MonoJumpInfo.ldstr image (monoTokenString + token))) bytes (.ldstr image token) := by
  obtain ⟨index, is, written⟩ := bind_eq_some_iff.1 written
  obtain ⟨-, same⟩ := ite_none_right_eq_some.1 written
  cases same
  refine reads_bind (reads_readImage resolves is) ?_
  have last : Reads (decodeValue >>= fun token => pure (MonoJumpInfo.ldstr image (monoTokenString + token)))
      (encodeValue (token - monoTokenString)) (.ldstr image (monoTokenString + (token - monoTokenString))) :=
    reads_bind_pure (reads_decodeValue _)
  rwa [add_difference] at last

theorem reads_tokenContext (resolves : Resolves acfg amodule) {context : Option MonoGenericContext}
    (written : encodeTokenContext acfg context = some bytes) (readable : context.all (contextReadable acfg) = true)
    (deep : ∀ c ∈ context, contextInstDepth c.classInst ≤ fuel ∧ contextInstDepth c.methodInst ≤ fuel) :
    Reads (decodeTokenContext (decodeKlassRef amodule fuel)) bytes context := by
  cases context with
  | none =>
    cases written
    refine reads_bind (reads_decodeValue 0) ?_
    exact reads_pure none
  | some context =>
    obtain ⟨inside, is, same⟩ := map_eq_some_iff.1 written
    cases same
    obtain ⟨classDeep, methodDeep⟩ := deep context rfl
    have reads := reads_context resolves is classDeep methodDeep
    rw [(restoredContext_eq_iff context).2 readable] at reads
    refine reads_bind (reads_decodeValue 1) ?_
    exact reads_bind_pure reads

/-- A reference has no image if and only if it is one to a method of an array class without a token. -/
theorem refOf_image (method restored : MonoMethod) :
    (refOf acfg amodule method restored).image = none ↔ arrayWithoutToken acfg method = true := by
  unfold refOf
  cases method with
  | plain d => simp [tokenOf, tokenRef, arrayWithoutToken]
  | inflated m =>
    cases recorded : acfg.tokenInfo (.inflated m) with
    | none => simp [tokenOf, recorded, arrayWithoutToken]
    | some pair => simp [tokenOf, recorded, tokenRef, arrayWithoutToken]
  | arrayMethod shape elementClass method =>
    cases recorded : acfg.tokenInfo (.arrayMethod shape elementClass method) with
    | none => simp [tokenOf, recorded, arrayWithoutToken]
    | some pair => simp [tokenOf, recorded, tokenRef, arrayWithoutToken]
  | wrapperOfMethod type method | wrapperOfClass type klass | wrapper type info | namedWrapper type name =>
    simp [tokenOf, arrayWithoutToken]

/-- A patch of a reference with an image is rebuilt for the method of the reference. -/
theorem reads_methodOfRef (monoAotOnly : Bool) (type : MethodPatch) {ref : MethodRef} (there : ref.image ≠ none)
    (resolved : resolveMethod amodule ref = some method) : ∃ patch, Rebuilt amodule (.method type method) patch ∧
      Reads (methodOfRef amodule monoAotOnly type ref) [] patch := by
  unfold methodOfRef
  cases is : ref.image with
  | none => exact absurd is there
  | some image =>
    dsimp only
    split
    · next trampoline =>
        obtain ⟨looked, -, -, kind, -⟩ := trampoline
        rw [kind]
        refine ⟨_, .trampoline method image ref.token ?_, reads_pure _⟩
        unfold resolveMethod at resolved
        rw [looked, is] at resolved
        exact resolved
    · exact ⟨_, .same _, reads_bind_nothing (reads_need resolved) (reads_pure _)⟩

theorem reads_readable (resolves : Resolves acfg amodule) (written : encodeMethodRef acfg method = some bytes)
    (readable : methodReadable acfg method = true) (deep : methodDepth method ≤ fuel) :
    Reads (decodeMethodRef amodule fuel true) bytes (refOf acfg amodule method method) ∧
      resolveMethod amodule (refOf acfg amodule method method) = some method := by
  have restored : restoredMethod acfg method = some method := (restoredMethod_eq_iff method).2 readable
  exact ⟨reads_methodRef resolves method fuel written deep restored, resolveMethod_refOf resolves written restored⟩

theorem reads_readable2 (resolves : Resolves acfg amodule) (written : encodeMethodRef acfg method = some bytes)
    (readable : methodReadable acfg method = true) (deep : methodDepth method < fuel) :
    Reads (decodeMethodRef2 amodule fuel) bytes method := by
  obtain ⟨fuel, rfl⟩ : ∃ n, fuel = n + 1 := ⟨fuel - 1, by omega⟩
  exact reads_methodRef2 resolves method fuel written (by omega) ((restoredMethod_eq_iff method).2 readable)

theorem reads_readableClass (resolves : Resolves acfg amodule) {klass : MonoClass}
    (written : encodeKlassRef acfg klass = some bytes) (readable : classReadable acfg klass = true)
    (deep : classDepth klass ≤ fuel) : Reads (decodeKlassRef amodule fuel) bytes klass := by
  have reads := reads_klassRef resolves klass fuel written deep
  rwa [(restoredClass_eq_iff klass).2 readable] at reads

/-! ### Patches -/

/-- How deep references are read in the context of a token. -/
def tokenContextDepth : Option MonoGenericContext → Nat
  | none => 0
  | some context => max (contextInstDepth context.classInst) (contextInstDepth context.methodInst)

/-- How deep references and patches are read inside a patch. -/
def patchDepth (tables : ClassTables) : MonoJumpInfo → Nat
  | .klass _ klass => classDepth klass + 1
  | .method _ method => methodDepth method + 1
  | .methodconst method => methodDepth method + 2
  | .token _ _ _ context => tokenContextDepth context + 1
  | .excName name => ((tables.classFromName name).map classDepth).getD 0 + 1
  | .field _ field => classDepth field.parent + 1
  | .rgctxFetch method _ _ data => max (methodDepth method + 2) (patchDepth tables data + 1)
  | _ => 1

theorem fuel_eq_succ {patch : MonoJumpInfo} (deep : patchDepth tables patch ≤ fuel) : ∃ n, fuel = n + 1 := by
  have positive : 0 < patchDepth tables patch := by
    cases patch <;> unfold patchDepth <;> omega
  exact ⟨fuel - 1, by omega⟩

/-- What is written for an entry of the runtime generic context, piece by piece. -/
theorem encodeRgctxFetch_eq_some {inMrgctx infoType : BitVec 32} {data : MonoJumpInfo}
    (written : encodePatch acfg tables (.rgctxFetch method inMrgctx infoType data) = some bytes) :
    ∃ ref inner, encodeMethodRef acfg method = some ref ∧ encodePatch acfg tables data = some inner ∧
      bytes = ref ++ (encodeValue inMrgctx ++ (encodeValue infoType ++ (encodeValue data.type.code ++ inner))) := by
  obtain ⟨ref, one, written⟩ := bind_eq_some_iff.1 written
  obtain ⟨inner, two, same⟩ := bind_eq_some_iff.1 written
  cases same
  exact ⟨ref, inner, one, two, rfl⟩

theorem reads_patch (resolves : Resolves acfg amodule) (patch : MonoJumpInfo) : ∀ (fuel : Nat) {bytes : List Byte},
    encodePatch acfg tables patch = some bytes → PatchReadable acfg tables patch → PatchMeets acfg patch →
      patchDepth tables patch ≤ fuel → ∃ patch', Rebuilt amodule patch patch' ∧
          Reads (decodePatch amodule tables monoAotOnly fuel patch.type) bytes patch' := by
  induction patch with
  | klass type klass =>
    intro fuel bytes written readable _ deep
    obtain ⟨fuel, rfl⟩ := fuel_eq_succ deep
    unfold patchDepth at deep
    exact ⟨_, .same _, reads_bind_pure (reads_readableClass resolves written readable (by omega))⟩
  | method type method =>
    intro fuel bytes written readable meets deep
    obtain ⟨fuel, rfl⟩ := fuel_eq_succ deep
    unfold patchDepth at deep
    have shallow : methodDepth method ≤ fuel := by omega
    obtain ⟨reads, resolved⟩ := reads_readable resolves written readable shallow
    have there : (refOf acfg amodule method method).image ≠ none := by
      intro missing
      have without : arrayWithoutToken acfg method = false := meets
      rw [(refOf_image method method).1 missing] at without
      cases without
    obtain ⟨patch', rebuilt, last⟩ := reads_methodOfRef monoAotOnly type there resolved
    refine ⟨patch', rebuilt, ?_⟩
    rw [← append_nil bytes]
    exact reads_bind reads last
  | methodconst method =>
    intro fuel bytes written readable _ deep
    obtain ⟨fuel, rfl⟩ := fuel_eq_succ deep
    unfold patchDepth at deep
    exact ⟨_, .same _, reads_bind_pure (reads_readable2 resolves written readable (by omega))⟩
  | abs image token =>
    intro fuel bytes written _ meets _
    exact meets.elim
  | image image =>
    intro fuel bytes written _ _ deep
    obtain ⟨fuel, rfl⟩ := fuel_eq_succ deep
    obtain ⟨index, is, same⟩ := map_eq_some_iff.1 written
    cases same
    exact ⟨_, .same _, reads_bind_pure (reads_readImage resolves is)⟩
  | methodRel offset =>
    intro fuel bytes written _ meets deep
    obtain ⟨fuel, rfl⟩ := fuel_eq_succ deep
    cases written
    obtain ⟨low, high⟩ := meets
    have value : (BitVec.ofInt 32 offset).toInt = offset := by
      rw [toInt_ofInt, Int.bmod_eq_of_le (by omega) (by omega)]
    have reads : Reads (decodeValue >>= fun offset => pure (MonoJumpInfo.methodRel offset.toInt))
        (encodeValue (BitVec.ofInt 32 offset)) (.methodRel (BitVec.ofInt 32 offset).toInt) :=
      reads_bind_pure (reads_decodeValue _)
    rw [value] at reads
    exact ⟨_, .same _, reads⟩
  | switch table =>
    intro fuel bytes written _ _ deep
    obtain ⟨fuel, rfl⟩ := fuel_eq_succ deep
    cases written
    exact ⟨_, .same _, reads_bind_pure (reads_switch table)⟩
  | name type name =>
    intro fuel bytes written _ _ deep
    obtain ⟨fuel, rfl⟩ := fuel_eq_succ deep
    cases written
    exact ⟨_, .same _, reads_bind_pure (reads_name name)⟩
  | ldstr image token =>
    intro fuel bytes written _ _ deep
    obtain ⟨fuel, rfl⟩ := fuel_eq_succ deep
    exact ⟨_, .same _, reads_ldstr resolves written⟩
  | token type image token context =>
    intro fuel bytes written readable _ deep
    obtain ⟨fuel, rfl⟩ := fuel_eq_succ deep
    obtain ⟨index, is, written⟩ := bind_eq_some_iff.1 written
    obtain ⟨inside, behind, same⟩ := bind_eq_some_iff.1 written
    cases same
    have deep' : ∀ c ∈ context, contextInstDepth c.classInst ≤ fuel ∧ contextInstDepth c.methodInst ≤ fuel := by
      intro c is
      cases is
      have both : tokenContextDepth (some c) = max (contextInstDepth c.classInst) (contextInstDepth c.methodInst) := rfl
      unfold patchDepth at deep
      omega
    refine ⟨_, .same _, ?_⟩
    refine reads_bind (reads_readImage resolves is) ?_
    refine reads_bind (reads_decodeValue token) ?_
    exact reads_bind_pure (reads_tokenContext resolves behind readable deep')
  | excName name =>
    intro fuel bytes written readable _ deep
    obtain ⟨fuel, rfl⟩ := fuel_eq_succ deep
    obtain ⟨klass, is, written⟩ := bind_eq_some_iff.1 written
    unfold PatchReadable at readable
    unfold patchDepth at deep
    rw [is] at readable deep
    have deep' : classDepth klass ≤ fuel := Nat.le_of_succ_le_succ deep
    have reads : Reads (decodeKlassRef amodule fuel >>= fun klass => pure (MonoJumpInfo.excName (tables.className klass)))
        bytes (.excName (tables.className klass)) :=
      reads_bind_pure (reads_readableClass resolves written readable deep')
    rw [tables.fromName name klass is] at reads
    exact ⟨_, .same _, reads⟩
  | r4 bits =>
    intro fuel bytes written _ _ deep
    obtain ⟨fuel, rfl⟩ := fuel_eq_succ deep
    cases written
    exact ⟨_, .same _, reads_bind_pure (reads_decodeValue bits)⟩
  | r8 first second =>
    intro fuel bytes written _ _ deep
    obtain ⟨fuel, rfl⟩ := fuel_eq_succ deep
    cases written
    exact ⟨_, .same _, reads_bind (reads_decodeValue first) (reads_bind_pure (reads_decodeValue second))⟩
  | field type field =>
    intro fuel bytes written readable _ deep
    obtain ⟨fuel, rfl⟩ := fuel_eq_succ deep
    unfold patchDepth at deep
    exact ⟨_, .same _, reads_bind_pure (reads_fieldInfo resolves written readable (by omega))⟩
  | plain type =>
    intro fuel bytes written _ _ deep
    obtain ⟨fuel, rfl⟩ := fuel_eq_succ deep
    cases written
    exact ⟨_, .same _, reads_pure _⟩
  | rgctxFetch method inMrgctx infoType data ih =>
    intro fuel bytes written readable meets deep
    obtain ⟨fuel, rfl⟩ := fuel_eq_succ deep
    unfold patchDepth at deep
    obtain ⟨ref, inner, one, two, same⟩ := encodeRgctxFetch_eq_some written
    obtain ⟨data', rebuilt, reads⟩ := ih fuel two readable.2 meets (by omega)
    refine ⟨_, .rgctxFetch method inMrgctx infoType rebuilt, ?_⟩
    rw [same]
    refine reads_bind (reads_readable2 resolves one readable.1 (by omega)) ?_
    refine reads_bind (reads_decodeValue _) ?_
    refine reads_bind (reads_decodeValue _) ?_
    refine reads_bind (reads_decodeValue _) ?_
    exact reads_bind_nothing (reads_need (jumpInfoTypeOfCode_code data.type)) (reads_bind_pure reads)
  | mscorlibGotAddr | none =>
    intro fuel bytes written _ meets _
    exact meets.elim

theorem no_case {type : MonoJumpInfoType} (missing : type = .abs ∨ type = .mscorlibGotAddr ∨ type = .none)
    (fuel : Nat) (bytes : List Byte) (patch : MonoJumpInfo) :
    ¬ Reads (decodePatch amodule tables monoAotOnly fuel type) bytes patch := by
  intro reads
  have gaveUp : Fails (decodePatch amodule tables monoAotOnly fuel type) bytes := by
    intro rest
    cases fuel with
    | zero => rfl
    | succ fuel => rcases missing with rfl | rfl | rfl <;> rfl
  exact gaveUp.not_reads reads

theorem meets_of_reads (resolves : Resolves acfg amodule) (patch : MonoJumpInfo) : ∀ (fuel : Nat) {bytes : List Byte}
    {patch' : MonoJumpInfo},
    encodePatch acfg tables patch = some bytes → PatchReadable acfg tables patch → patchDepth tables patch ≤ fuel →
      Rebuilt amodule patch patch' → Reads (decodePatch amodule tables monoAotOnly fuel patch.type) bytes patch' →
        PatchMeets acfg patch := by
  induction patch with
  | method type method =>
    intro fuel bytes patch' written readable deep rebuilt reads
    obtain ⟨fuel, rfl⟩ := fuel_eq_succ deep
    unfold patchDepth at deep
    show arrayWithoutToken acfg method = false
    cases without : arrayWithoutToken acfg method with
    | false => rfl
    | true =>
      obtain ⟨left, -⟩ := reads_readable resolves written readable (show methodDepth method ≤ fuel by omega)
      have gaveUp : Fails (decodeMethodRef amodule fuel true >>= methodOfRef amodule monoAotOnly type) (bytes ++ []) := by
        refine fails_bind left ?_
        unfold methodOfRef
        rw [(refOf_image method method).2 without]
        exact fails_fail []
      rw [append_nil] at gaveUp
      exact absurd reads gaveUp.not_reads
  | methodRel offset =>
    intro fuel bytes patch' written _ deep rebuilt reads
    obtain ⟨fuel, rfl⟩ := fuel_eq_succ deep
    cases written
    cases rebuilt
    have own : Reads (decodeValue >>= fun offset => pure (MonoJumpInfo.methodRel offset.toInt))
        (encodeValue (BitVec.ofInt 32 offset)) (.methodRel (BitVec.ofInt 32 offset).toInt) :=
      reads_bind_pure (reads_decodeValue _)
    have same := own.unique reads
    rw [MonoJumpInfo.methodRel.injEq] at same
    have low := le_toInt (BitVec.ofInt 32 offset)
    have high := toInt_lt (x := BitVec.ofInt 32 offset)
    rw [same] at low high
    exact ⟨low, high⟩
  | rgctxFetch method inMrgctx infoType data ih =>
    intro fuel bytes patch' written readable deep rebuilt reads
    obtain ⟨fuel, rfl⟩ := fuel_eq_succ deep
    unfold patchDepth at deep
    obtain ⟨ref, inner, one, two, same⟩ := encodeRgctxFetch_eq_some written
    rw [same] at reads
    have behind := (reads_readable2 resolves one readable.1 (by omega)).behind reads
    have behind := (reads_decodeValue _).behind behind
    have behind := (reads_decodeValue _).behind behind
    have behind := (reads_decodeValue _).behind behind
    have last := (reads_need (jumpInfoTypeOfCode_code data.type)).behind behind
    obtain ⟨data', is, inside⟩ := Reads.of_bind_pure
      (fun a a' same => (MonoJumpInfo.rgctxFetch.inj same).2.2.2) last
    rw [← is] at rebuilt
    have rebuilt' : Rebuilt amodule data data' := by
      cases rebuilt with
      | same => exact .same data
      | rgctxFetch _ _ _ inside => exact inside
    exact ih fuel two readable.2 (by omega) rebuilt' inside
  | abs image token =>
    intro fuel bytes patch' _ _ _ _ reads
    exact absurd reads (no_case (.inl rfl) fuel bytes patch')
  | mscorlibGotAddr =>
    intro fuel bytes patch' _ _ _ _ reads
    exact absurd reads (no_case (.inr (.inl rfl)) fuel bytes patch')
  | none =>
    intro fuel bytes patch' _ _ _ _ reads
    exact absurd reads (no_case (.inr (.inr rfl)) fuel bytes patch')
  | _ =>
    intros
    trivial

/-- A patch whose references can be read back is rebuilt if and only if it meets the condition. -/
theorem patch_roundTrips_iff (acfg : MonoAotCompile) (amodule : MonoAotModule) (tables : ClassTables) (monoAotOnly : Bool)
    (patch : MonoJumpInfo) (bytes : List Byte)
    (resolves : Resolves acfg amodule)
    (readable : PatchReadable acfg tables patch)
    (written : encodePatch acfg tables patch = some bytes) :
    PatchRoundTrips amodule tables monoAotOnly bytes patch ↔ PatchMeets acfg patch := by
  constructor
  · rintro ⟨depth, each⟩
    obtain ⟨patch', rebuilt, reads⟩ := each (max depth (patchDepth tables patch)) (Nat.le_max_left _ _)
    exact meets_of_reads resolves patch _ written readable (Nat.le_max_right _ _) rebuilt reads
  · intro meets
    exact ⟨patchDepth tables patch, fun fuel deep => reads_patch resolves patch fuel written readable meets deep⟩

/-! ### Samples -/

/-- Classes without names and fields. -/
def sampleTables : ClassTables where
  className := fun _ => ⟨[], by decide⟩
  classFromName := fun _ => none
  fieldFirst := fun _ => 0
  fieldCount := fun _ => 0
  parents := fun _ => []
  fieldsFew := fun _ => Nat.two_pow_pos 24
  fromName := nofun

/-- An entry of the runtime generic context for a method that is called. -/
def sampleFetch (method : MonoMethod) : MonoJumpInfo :=
  .rgctxFetch sampleMethod 1 2 (.method .method method)

theorem patch_roundTrips_iff_sample :
    PatchRoundTrips sampleModule sampleTables false
      ((encodePatch sampleCompile sampleTables (sampleFetch sampleMethod)).getD []) (sampleFetch sampleMethod) :=
  (patch_roundTrips_iff sampleCompile sampleModule sampleTables false (sampleFetch sampleMethod) _ sampleResolves
    ⟨rfl, rfl⟩ rfl).2 rfl

/-- The getter of a two-dimensional array. -/
def arrayGetter : MonoMethod :=
  .arrayMethod { rank := 2, bounded := false, positive := by decide, small := by decide, single := nofun } sampleClass
    .get

theorem patch_arrayGetter (monoAotOnly : Bool) (patch : MonoJumpInfo)
    (is : patch = .method .method arrayGetter ∨ patch = .method .icallAddr arrayGetter ∨ patch = sampleFetch arrayGetter)
    : PatchReadable sampleCompile sampleTables patch ∧ ∃ bytes, encodePatch sampleCompile sampleTables patch = some bytes ∧
        ¬ PatchRoundTrips sampleModule sampleTables monoAotOnly bytes patch := by
  have lost : ∀ bytes, PatchReadable sampleCompile sampleTables patch → ¬ PatchMeets sampleCompile patch →
      encodePatch sampleCompile sampleTables patch = some bytes →
        ¬ PatchRoundTrips sampleModule sampleTables monoAotOnly bytes patch := by
    rintro bytes readable broken written ⟨depth, each⟩
    obtain ⟨patch', rebuilt, reads⟩ := each (max depth (patchDepth sampleTables patch)) (Nat.le_max_left _ _)
    exact broken (meets_of_reads sampleResolves patch _ written readable (Nat.le_max_right _ _) rebuilt reads)
  have broken : ¬ arrayWithoutToken sampleCompile arrayGetter = false := by
    intro recorded
    cases recorded
  rcases is with rfl | rfl | rfl
  · exact ⟨rfl, _, rfl, lost _ rfl broken rfl⟩
  · exact ⟨rfl, _, rfl, lost _ rfl broken rfl⟩
  · exact ⟨⟨rfl, rfl⟩, _, rfl, lost _ ⟨rfl, rfl⟩ broken rfl⟩

/-- Patches for the getter of an array class, whose references can be read back, are not rebuilt. -/
theorem patch_arrayMethod :
    (PatchReadable sampleCompile sampleTables (.method .method arrayGetter) ∧ ∃ bytes,
      encodePatch sampleCompile sampleTables (.method .method arrayGetter) = some bytes ∧
        ¬ PatchRoundTrips sampleModule sampleTables false bytes (.method .method arrayGetter)) ∧
    (PatchReadable sampleCompile sampleTables (sampleFetch arrayGetter) ∧ ∃ bytes,
      encodePatch sampleCompile sampleTables (sampleFetch arrayGetter) = some bytes ∧
        ¬ PatchRoundTrips sampleModule sampleTables false bytes (sampleFetch arrayGetter)) :=
  ⟨patch_arrayGetter false _ (.inl rfl), patch_arrayGetter false _ (.inr (.inr rfl))⟩

end MonoRuntime.AotRefs
