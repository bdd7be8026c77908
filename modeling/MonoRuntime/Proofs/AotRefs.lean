/-
Module: MonoRuntime.Proofs.AotRefs
Purpose: References to classes and methods are read back from what is written for them if and only if nothing in them
  is written that has no reader: array classes with a lower bound and the wrappers for three kinds of calls.
Trusted boundary: none
Main exports: aotRefs_roundTrip_iff, aotRefs_boundedArray
-/
import MonoRuntime.Mini.AotRefs
import MonoRuntime.Proofs.DebugInfo

namespace MonoRuntime.AotRefs

open Reader List BitVec Option
open DebugInfo (encodeValue decodeValue reads_decodeValue)

variable {acfg : MonoAotCompile} {amodule : MonoAotModule}

/-! ### Tokens -/

variable {low token : BitVec 32} {n fuel : Nat} {bytes : List Byte} {image : MonoImage} {method : MonoMethod}

theorem getLsbD_of_small (small : low.toNat < 2 ^ 24) {i : Nat} (above : 24 ≤ i) : low.getLsbD i = false := by
  apply Nat.testBit_lt_two_pow
  exact Nat.lt_of_lt_of_le small (Nat.pow_le_pow_right (by decide) above)

theorem upper_of_parts {high : BitVec 32} (byte : high.toNat < 2 ^ 8) (small : low.toNat < 2 ^ 24) :
    (high <<< 24 ||| low) >>> 24 = high := by
  apply eq_of_getLsbD_eq
  intro i inside
  rw [getLsbD_ushiftRight, getLsbD_or, getLsbD_of_small small (Nat.le_add_right 24 i),
    getLsbD_shiftLeft]
  by_cases fits : 24 + i < 32
  · have back : 24 + i - 24 = i := by omega
    have above : ¬ 24 + i < 24 := by omega
    simp [fits, back, above]
  · have clear : high.getLsbD i = false := by
      apply Nat.testBit_lt_two_pow
      exact Nat.lt_of_lt_of_le byte (Nat.pow_le_pow_right (by decide) (by omega))
    simp [fits, clear]

theorem lower_of_parts {high : BitVec 32} (small : low.toNat < 2 ^ 24) :
    (high <<< 24 ||| low) &&& 0xffffff = low := by
  apply eq_of_getLsbD_eq
  intro i inside
  have mask : (0xffffff : BitVec 32).getLsbD i = decide (i < 24) := by
    have all : ∀ i < 32, (0xffffff : BitVec 32).getLsbD i = decide (i < 24) := by decide
    exact all i inside
  rw [getLsbD_and, getLsbD_or, getLsbD_shiftLeft, mask]
  by_cases below : i < 24
  · simp [below]
  · simp [below, getLsbD_of_small small (Nat.le_of_not_lt below)]

theorem tokenTable_small (small : token.toNat < 2 ^ 24) : tokenTable token = 0 := by
  have parts := upper_of_parts (show (0 : BitVec 32).toNat < 2 ^ 8 by decide) small
  have zero : (0 : BitVec 32) <<< 24 ||| token = token := by simp
  rw [zero] at parts
  exact parts

theorem ofNat_toNat (small : n < 2 ^ 32) : (BitVec.ofNat 32 n).toNat = n := by
  exact Nat.mod_eq_of_lt small

theorem add_difference (last value : BitVec 32) : last + (value - last) = value := by
  rw [BitVec.add_comm, BitVec.sub_add_cancel]

theorem row_spec (few : n + 1 < 2 ^ 24) : BitVec.ofNat 32 (n + 1) ≠ 0 ∧ (BitVec.ofNat 32 (n + 1)).toNat < 2 ^ 24 := by
  have value := ofNat_toNat (Nat.lt_trans few (by decide))
  refine ⟨?_, by rw [value]; exact few⟩
  intro zero
  rw [zero] at value
  simp at value

theorem TypeDef.index_spec (d : TypeDef) : d.index ≠ 0 ∧ d.index.toNat < 2 ^ 24 := by
  have few := d.image.typeDefsFew
  exact row_spec (by omega)

theorem MethodDef.index_spec (d : MethodDef) : d.index ≠ 0 ∧ d.index.toNat < 2 ^ 24 := by
  have few := d.image.methodsFew
  exact row_spec (by omega)

theorem typespec_token (few : n + 1 < 2 ^ 24) :
    tokenTable (monoTokenTypeSpec ||| BitVec.ofNat 32 (n + 1)) = monoTableTypespec ∧
      monoTokenTypeSpec ||| BitVec.ofNat 32 (n + 1) ≠ monoTokenTypeSpec := by
  obtain ⟨nonzero, small⟩ := row_spec few
  have parts : monoTokenTypeSpec = monoTableTypespec <<< 24 := by decide
  refine ⟨?_, ?_⟩
  · rw [parts]
    exact upper_of_parts (by decide) small
  · intro same
    have lower : (monoTableTypespec <<< 24 ||| BitVec.ofNat 32 (n + 1)) &&& 0xffffff = BitVec.ofNat 32 (n + 1) :=
      lower_of_parts small
    rw [← parts, same] at lower
    exact nonzero (lower.symm.trans (by decide))

/-! ### Images -/

theorem reads_need {α : Type} {found : Option α} {a : α} (is : found = some a) : Reads (need found) [] a := by
  rw [is]
  exact reads_pure a

theorem reads_then_need {α β : Type} {r : Reader Byte α} {f : α → Option β} {a : α} {b : β} (first : Reads r bytes a)
    (is : f a = some b) :
    Reads (r >>= fun a => need (f a)) bytes b := by
  have both : Reads (r >>= fun a => need (f a)) (bytes ++ []) b := reads_bind first (reads_need is)
  rwa [append_nil] at both

theorem getElem?_of_idxOf? {α : Type} [DecidableEq α] {items : List α} {item : α} {i : Nat}
    (found : items.idxOf? item = some i) : items[i]? = some item := by
  rw [idxOf?_eq_some_iff] at found
  obtain ⟨inside, value, -⟩ := found
  rw [List.getElem?_eq_getElem inside, value]

theorem getImageIndex_spec (resolves : Resolves acfg amodule) {index : BitVec 32}
    (written : getImageIndex acfg image = some index) :
    amodule.loadImage index = some image ∧ image ∈ acfg.imageTable := by
  obtain ⟨i, found, same⟩ := map_eq_some_iff.1 written
  have there := getElem?_of_idxOf? found
  rw [← same]
  exact ⟨resolves.images i image there, mem_of_getElem? there⟩

theorem reads_readImage (resolves : Resolves acfg amodule) {index : BitVec 32}
    (written : getImageIndex acfg image = some index) : Reads (readImage amodule) (encodeValue index) image :=
  reads_then_need (reads_decodeValue index) (getImageIndex_spec resolves written).1

/-! ### Classes -/

section Classes

variable {klassRef : Reader Byte MonoClass} {methodRef : Reader Byte MonoMethod}

variable {bytes : List Byte} {klass : MonoClass}

theorem reads_typeDef (resolves : Resolves acfg amodule) {d : TypeDef} (written : encodeTypeDef acfg d = some bytes) :
    Reads (klassRefWith amodule klassRef methodRef) bytes (.typeDef d) := by
  obtain ⟨index, image, same⟩ := bind_eq_some_iff.1 written
  cases same
  obtain ⟨nonzero, small⟩ := d.index_spec
  refine reads_bind (reads_decodeValue d.index) ?_
  rw [if_neg nonzero, if_pos (tokenTable_small small)]
  exact reads_then_need (reads_readImage resolves image)
    (resolves.typeDefs d (getImageIndex_spec resolves image).2)

theorem reads_typespec (resolves : Resolves acfg amodule) {token index : BitVec 32}
    (found : findTypespecForClass acfg klass = some token) (image : getImageIndex acfg acfg.image = some index) :
    Reads (klassRefWith amodule klassRef methodRef) (encodeValue token ++ encodeValue index) klass := by
  obtain ⟨i, at_, same⟩ := map_eq_some_iff.1 found
  have there := getElem?_of_idxOf? at_
  have few := acfg.typespecsFew
  have inside := (List.getElem?_eq_some_iff.1 there).1
  obtain ⟨table, notMarker⟩ := typespec_token (n := i) (by omega)
  rw [same] at table notMarker
  have nonzero : token ≠ 0 := by
    intro zero
    rw [zero] at table
    exact absurd table (by decide)
  have notTypeDef : ¬ tokenTable token = 0 := by
    rw [table]
    decide
  refine reads_bind (reads_decodeValue token) ?_
  rw [if_neg nonzero, if_neg notTypeDef, if_pos table, if_neg notMarker]
  refine reads_then_need (reads_readImage resolves image) ?_
  rw [← same]
  exact resolves.typespecs i klass there

theorem reads_marked (behind : Reads (decodeMarked klassRef methodRef) bytes klass) :
    Reads (klassRefWith amodule klassRef methodRef) (encodeValue monoTokenTypeSpec ++ bytes) klass := by
  refine reads_bind (reads_decodeValue monoTokenTypeSpec) ?_
  exact behind

theorem reads_genericInst {inst : MonoGenericInst} {types : List MonoClass} {typeBytes : List Byte}
    (written : withTypeArgc inst typeBytes = some bytes) (each : Reads (many klassRef inst.typeArgc) typeBytes types) :
    Reads (decodeGenericInst klassRef) bytes (.ofTypes types) := by
  unfold withTypeArgc at written
  split at written
  · next few =>
      cases written
      have value : (BitVec.ofNat 32 inst.typeArgc).toNat = inst.typeArgc := ofNat_toNat (by omega)
      have positive : ¬ (BitVec.ofNat 32 inst.typeArgc).toInt < 0 := by
        rw [toInt_eq_toNat_cond, value, if_pos (by omega)]
        omega
      refine reads_bind (reads_decodeValue _) ?_
      rw [if_neg positive, value]
      exact reads_bind_pure each
  · cases written

theorem genericTypeDef_eq (d : GenericTypeDef) : genericTypeDef (.typeDef d.1) = some d :=
  dif_pos d.2

theorem genericMethodDef_eq (d : GenericMethodDef) : genericMethodDef (.plain d.1) = some d :=
  dif_pos d.2

theorem num_restored (num : BitVec 16) : (num.setWidth 32).setWidth 16 = num := by
  apply eq_of_toNat_eq
  simp only [toNat_setWidth]
  omega

theorem reads_typeVar {num : BitVec 16} {owner : GenericTypeDef} (inside : Reads klassRef bytes (.typeDef owner.1)) :
    Reads (decodeParam klassRef methodRef monoTypeVar)
      (encodeValue (num.setWidth 32) ++ (encodeValue 0 ++ bytes)) (.typeVar num owner) := by
  refine reads_bind (reads_decodeValue _) ?_
  refine reads_bind (reads_decodeValue _) ?_
  rw [← append_nil bytes]
  refine reads_bind inside ?_
  refine reads_bind_nothing (reads_need (genericTypeDef_eq owner)) ?_
  rw [num_restored]
  exact reads_pure _

theorem reads_methodVar {num : BitVec 16} {owner : GenericMethodDef}
    (inside : Reads methodRef bytes (.plain owner.1)) : Reads (decodeParam klassRef methodRef monoTypeMvar)
      (encodeValue (num.setWidth 32) ++ (encodeValue 1 ++ bytes)) (.methodVar num owner) := by
  refine reads_bind (reads_decodeValue _) ?_
  refine reads_bind (reads_decodeValue _) ?_
  rw [← append_nil bytes]
  refine reads_bind inside ?_
  refine reads_bind_nothing (reads_need (genericMethodDef_eq owner)) ?_
  rw [num_restored]
  exact reads_pure _

theorem reads_array (resolves : Resolves acfg amodule) {shape : ArrayShape} {elementClass : MonoClass}
    {index : BitVec 32} (image : getImageIndex acfg elementClass.image = some index)
    (inside : Reads klassRef bytes klass) : Reads (klassRefWith amodule klassRef methodRef)
      (encodeValue monoTokenTypeDef ++ (encodeValue index ++ (encodeValue (BitVec.ofNat 32 shape.rank) ++ bytes)))
      (.array shape.vector klass) := by
  have small := shape.small
  have rank : (BitVec.ofNat 32 shape.rank).toNat = shape.rank := ofNat_toNat (by omega)
  refine reads_bind (reads_decodeValue monoTokenTypeDef) ?_
  refine reads_bind (reads_readImage resolves image) ?_
  refine reads_bind (reads_decodeValue _) ?_
  refine reads_then_need inside ?_
  rw [rank]
  unfold monoArrayClassGet
  rw [dif_pos ⟨shape.positive, shape.small⟩]
  rfl

end Classes

/-! ### Tokens of methods -/

section Kinds

variable {klassRef : Reader Byte MonoClass} {methodRef : Reader Byte MonoMethod} {outMethod : Bool}

theorem reads_noAotTrampoline (acfg : MonoAotCompile) (method : MonoMethod) {value : BitVec 32}
    (other : value >>> 24 ≠ monoAotMethodrefNoAotTrampoline) :
    Reads decodeNoAotTrampoline (encodeNoAotTrampoline acfg method ++ encodeValue value)
      (acfg.needsTrampoline method, value) := by
  unfold encodeNoAotTrampoline
  cases acfg.needsTrampoline method with
  | true =>
    rw [if_pos rfl]
    refine reads_bind (reads_decodeValue _) ?_
    exact reads_bind_pure (reads_decodeValue value)
  | false =>
    rw [if_neg Bool.false_ne_true, nil_append, ← append_nil (encodeValue value)]
    refine reads_bind (reads_decodeValue value) ?_
    rw [if_neg other]
    exact reads_pure _

theorem reads_kind (acfg : MonoAotCompile) (method : MonoMethod) {value : BitVec 32} {bytes : List Byte}
    {ref : MethodRef} (other : value >>> 24 ≠ monoAotMethodrefNoAotTrampoline)
    (kind : Reads (methodKindWith amodule klassRef methodRef outMethod (acfg.needsTrampoline method) value)
      bytes ref) : Reads (methodRefWith amodule klassRef methodRef outMethod)
      (encodeNoAotTrampoline acfg method ++ (encodeValue value ++ bytes)) ref := by
  rw [← List.append_assoc]
  exact reads_bind (reads_noAotTrampoline acfg method other) kind

theorem withMark_eq_some {method : MonoMethod} {kind : Option (List Byte)} {bytes : List Byte}
    (written : withMark acfg method kind = some bytes) :
    ∃ behind, kind = some behind ∧ bytes = encodeNoAotTrampoline acfg method ++ behind := by
  obtain ⟨index, -, written⟩ := bind_eq_some_iff.1 written
  obtain ⟨behind, is, same⟩ := bind_eq_some_iff.1 written
  cases same
  exact ⟨behind, is, rfl⟩

theorem reads_token (resolves : Resolves acfg amodule) {d : MethodDef} {bytes : List Byte}
    (written : encodeToken acfg d = some bytes) : d.image ∈ acfg.imageTable ∧
      Reads (methodRefWith amodule klassRef methodRef outMethod) (encodeNoAotTrampoline acfg (.plain d) ++ bytes)
        (tokenRef d.image (monoTokenMethodDef ||| d.index) (acfg.needsTrampoline (.plain d))) := by
  obtain ⟨index, image, same⟩ := bind_eq_some_iff.1 written
  cases same
  obtain ⟨found, image, below⟩ := bind_eq_some_iff.1 image
  split at below
  · next small =>
      cases below
      obtain ⟨loaded, there⟩ := getImageIndex_spec resolves image
      have bound : index.toNat < 240 := small
      obtain ⟨-, few⟩ := d.index_spec
      have upper := upper_of_parts (show index.toNat < 2 ^ 8 by omega) few
      have lower : (index <<< 24 ||| d.index) &&& 0xffffff = d.index := lower_of_parts few
      have different : ∀ mark : BitVec 32, 240 ≤ mark.toNat → index ≠ mark := by
        intro mark above same
        rw [same] at bound
        omega
      refine ⟨there, ?_⟩
      have kind : Reads (methodKindWith amodule klassRef methodRef outMethod (acfg.needsTrampoline (.plain d))
          (index <<< 24 ||| d.index)) []
          (tokenRef d.image (monoTokenMethodDef ||| d.index) (acfg.needsTrampoline (.plain d))) := by
        unfold methodKindWith
        simp only [upper, lower]
        rw [if_neg (different _ (by decide)), if_neg (different _ (by decide)), if_neg (different _ (by decide)),
          if_neg (different _ (by decide)), if_neg (different _ (by decide)), if_pos small]
        exact reads_bind_nothing (reads_need loaded) (reads_pure _)
      have whole := reads_kind acfg (.plain d) (by rw [upper]; exact different _ (by decide)) kind
      rwa [append_nil] at whole
  · cases below

theorem reads_methodspec (resolves : Resolves acfg amodule) (method : MonoMethod) {image : MonoImage}
    {token : BitVec 32} {bytes : List Byte} (written : encodeMethodspec acfg image token = some bytes) :
    Reads (methodRefWith amodule klassRef methodRef outMethod) (encodeNoAotTrampoline acfg method ++ bytes)
      (tokenRef image token (acfg.needsTrampoline method)) := by
  obtain ⟨index, is, same⟩ := bind_eq_some_iff.1 written
  cases same
  obtain ⟨found, is, below⟩ := bind_eq_some_iff.1 is
  split at below
  · cases below
    refine reads_kind acfg method (by decide) ?_
    refine reads_bind (reads_decodeValue index) ?_
    rw [← append_nil (encodeValue token)]
    refine reads_bind (reads_decodeValue token) ?_
    exact reads_bind_nothing (reads_need (getImageIndex_spec resolves is).1) (reads_pure _)
  · cases below

end Kinds

/-! ### Classes inside classes -/

theorem reads_methodDef (resolves : Resolves acfg amodule) {d : MethodDef} (fuel : Nat)
    (written : encodeMethodDef acfg d = some bytes) : Reads (decodeMethodRef2 amodule (fuel + 1)) bytes (.plain d) := by
  obtain ⟨behind, is, same⟩ := withMark_eq_some written
  rw [same]
  obtain ⟨there, reads⟩ := reads_token resolves is
  exact reads_then_need reads (resolves.methods d there)

mutual

/-- How deep references are read inside a class. -/
def classDepth : MonoClass → Nat
  | .genericInst _ classInst => instDepth classInst + 2
  | .array _ elementClass => classDepth elementClass + 1
  | .typeDef _ => 1
  | .typeVar _ _ => 2
  | .methodVar _ _ => 2

def instDepth : MonoGenericInst → Nat
  | .nil => 0
  | .cons type types => max (classDepth type) (instDepth types)

end

mutual

theorem reads_klassRef (resolves : Resolves acfg amodule) : ∀ (klass : MonoClass) (fuel : Nat) {bytes : List Byte},
    encodeKlassRef acfg klass = some bytes → classDepth klass ≤ fuel →
      Reads (decodeKlassRef amodule fuel) bytes (restoredClass acfg klass)
  | klass, 0, _, _, deep => by
      cases klass <;> simp [classDepth] at deep
  | .typeDef d, fuel + 1, bytes, written, _ => by
      unfold encodeKlassRef at written
      exact reads_typeDef resolves written
  | .typeVar num owner, fuel + 1, bytes, written, deep => by
      unfold encodeKlassRef at written
      obtain ⟨behind, inside, same⟩ := bind_eq_some_iff.1 written
      cases same
      unfold classDepth at deep
      obtain ⟨fuel, rfl⟩ : ∃ n, fuel = n + 1 := ⟨fuel - 1, by omega⟩
      refine reads_marked ?_
      refine reads_bind (reads_decodeValue _) ?_
      rw [if_neg (by decide), if_pos (Or.inl rfl)]
      exact reads_typeVar (reads_typeDef resolves inside)
  | .methodVar num owner, fuel + 1, bytes, written, deep => by
      obtain ⟨behind, inside, same⟩ := bind_eq_some_iff.1 written
      cases same
      unfold classDepth at deep
      obtain ⟨fuel, rfl⟩ : ∃ n, fuel = n + 1 := ⟨fuel - 1, by omega⟩
      refine reads_marked ?_
      refine reads_bind (reads_decodeValue _) ?_
      exact reads_methodVar (reads_methodDef resolves fuel inside)
  | .array shape elementClass, fuel + 1, bytes, written, deep => by
      obtain ⟨index, image, written⟩ := bind_eq_some_iff.1 written
      obtain ⟨behind, inside, same⟩ := bind_eq_some_iff.1 written
      cases same
      exact reads_array resolves image
        (reads_klassRef resolves elementClass fuel inside (Nat.le_of_succ_le_succ deep))
  | .genericInst containerClass classInst, fuel + 1, bytes, written, deep => by
      unfold encodeKlassRef at written
      unfold restoredClass
      cases found : findTypespecForClass acfg (.genericInst containerClass classInst) with
      | some token =>
        rw [found] at written
        obtain ⟨index, image, same⟩ := bind_eq_some_iff.1 written
        cases same
        exact reads_typespec resolves found image
      | none =>
        rw [found] at written
        obtain ⟨gclass, container, written⟩ := bind_eq_some_iff.1 written
        obtain ⟨types, inside, written⟩ := bind_eq_some_iff.1 written
        obtain ⟨inst, counted, same⟩ := bind_eq_some_iff.1 written
        cases same
        unfold classDepth at deep
        obtain ⟨fuel, rfl⟩ : ∃ n, fuel = n + 1 := ⟨fuel - 1, by omega⟩
        obtain ⟨list, all, listed⟩ := reads_types resolves classInst (fuel + 1) inside (by omega)
        refine reads_marked ?_
        refine reads_bind (reads_decodeValue _) ?_
        refine reads_bind (reads_typeDef resolves container) ?_
        refine reads_bind_nothing (reads_need (genericTypeDef_eq containerClass)) ?_
        rw [← listed]
        exact reads_bind_pure (reads_genericInst counted all)

theorem reads_types (resolves : Resolves acfg amodule) : ∀ (inst : MonoGenericInst) (fuel : Nat) {bytes : List Byte},
    encodeTypes acfg inst = some bytes → instDepth inst ≤ fuel →
      ∃ types, Reads (many (decodeKlassRef amodule fuel) inst.typeArgc) bytes types ∧
        MonoGenericInst.ofTypes types = restoredInst acfg inst
  | .nil, fuel, bytes, written, _ => by
      cases written
      exact ⟨[], reads_pure [], by rw [restoredInst]; rfl⟩
  | .cons type types, fuel, bytes, written, deep => by
      obtain ⟨first, inside, written⟩ := bind_eq_some_iff.1 written
      obtain ⟨rest, later, same⟩ := bind_eq_some_iff.1 written
      cases same
      unfold instDepth at deep
      have head := reads_klassRef resolves type fuel inside (by omega)
      obtain ⟨list, all, listed⟩ := reads_types resolves types fuel later (by omega)
      refine ⟨restoredClass acfg type :: list, reads_bind head (reads_bind_pure all), ?_⟩
      rw [restoredInst, ← listed]
      rfl

end

/-! ### Kinds of methods -/

def contextInstDepth : Option MonoGenericInst → Nat
  | none => 0
  | some inst => instDepth inst

/-- How deep references are read inside a method. -/
def methodDepth : MonoMethod → Nat
  | .plain _ => 0
  | .inflated m =>
      max (classDepth m.klass) (max (contextInstDepth m.context.classInst) (contextInstDepth m.context.methodInst))
  | .arrayMethod _ elementClass _ => classDepth elementClass + 1
  | .wrapperOfMethod _ method => methodDepth method + 1
  | .wrapperOfClass _ klass => classDepth klass
  | .wrapper _ _ => 0
  | .namedWrapper _ _ => 0

/-- What `decode_method_ref` leaves for a method that is written: its token, or else the method that is read back. A method
of an array class has no image. -/
def refOf (acfg : MonoAotCompile) (amodule : MonoAotModule) (method restored : MonoMethod) : MethodRef :=
  match tokenOf acfg method with
  | some (image, token) => tokenRef image token (acfg.needsTrampoline method)
  | none =>
      match method with
      | .inflated m =>
          { image := some m.declaring.image, token := monoTokenMethodDef ||| m.declaring.index, method := some restored,
            noAotTrampoline := acfg.needsTrampoline method }
      | .arrayMethod _ _ _ =>
          { image := none, token := 0, method := some restored, noAotTrampoline := acfg.needsTrampoline method }
      | _ =>
          { image := some amodule.corlib, token := 0, method := some restored,
            noAotTrampoline := acfg.needsTrampoline method }

theorem reads_contextInst (resolves : Resolves acfg amodule) {inst : Option MonoGenericInst}
    (written : encodeContextInst acfg inst = some bytes) (deep : contextInstDepth inst ≤ fuel) :
    Reads (decodeContextInst (decodeKlassRef amodule fuel)) bytes (inst.map (restoredInst acfg)) := by
  cases inst with
  | none =>
    cases written
    refine reads_bind (reads_decodeValue 0) ?_
    exact reads_pure _
  | some inst =>
    obtain ⟨types, inside, written⟩ := bind_eq_some_iff.1 written
    obtain ⟨behind, counted, same⟩ := bind_eq_some_iff.1 written
    cases same
    obtain ⟨list, all, listed⟩ := reads_types resolves inst fuel inside deep
    refine reads_bind (reads_decodeValue 1) ?_
    rw [if_neg (by decide), map_some, ← listed]
    exact reads_bind_pure (reads_genericInst counted all)

theorem reads_context (resolves : Resolves acfg amodule) {context : MonoGenericContext}
    (written : encodeGenericContext acfg context = some bytes) (classDeep : contextInstDepth context.classInst ≤ fuel)
    (methodDeep : contextInstDepth context.methodInst ≤ fuel) :
    Reads (decodeGenericContext (decodeKlassRef amodule fuel)) bytes (restoredContext acfg context) := by
  obtain ⟨first, classInst, written⟩ := bind_eq_some_iff.1 written
  obtain ⟨second, methodInst, same⟩ := bind_eq_some_iff.1 written
  cases same
  refine reads_bind (reads_contextInst resolves classInst classDeep) ?_
  exact reads_bind_pure (reads_contextInst resolves methodInst methodDeep)

theorem reads_ginst (resolves : Resolves acfg amodule) {m : MonoMethodInflated}
    (written : encodeGinst acfg m = some bytes) (deep : methodDepth (.inflated m) ≤ fuel) :
    Reads (decodeMethodRef amodule fuel true) (encodeNoAotTrampoline acfg (.inflated m) ++ bytes)
      { image := some m.declaring.image, token := monoTokenMethodDef ||| m.declaring.index,
        method := some (.inflated
          { klass := restoredClass acfg m.klass, declaring := m.declaring, context := restoredContext acfg m.context,
            home := (image_restoredClass acfg m.klass).trans m.home }),
        noAotTrampoline := acfg.needsTrampoline (.inflated m) } := by
  obtain ⟨klass, inside, written⟩ := bind_eq_some_iff.1 written
  obtain ⟨index, is, written⟩ := bind_eq_some_iff.1 written
  obtain ⟨context, around, same⟩ := bind_eq_some_iff.1 written
  cases same
  obtain ⟨found, image, below⟩ := bind_eq_some_iff.1 is
  split at below
  · cases below
    unfold methodDepth at deep
    rw [m.home] at image
    refine reads_kind acfg (.inflated m) (by decide) ?_
    refine reads_bind (reads_klassRef resolves m.klass fuel inside (by omega)) ?_
    refine reads_bind (reads_decodeValue index) ?_
    refine reads_bind (reads_decodeValue _) ?_
    refine reads_bind_nothing (reads_need (getImageIndex_spec resolves image).1) ?_
    refine reads_bind_nothing (reads_need (resolves.methods m.declaring (getImageIndex_spec resolves image).2)) ?_
    refine reads_bind_nothing (reads_pure _) ?_
    rw [← append_nil context]
    refine reads_bind (reads_context resolves around (by omega) (by omega)) ?_
    refine reads_bind_nothing (reads_need (dif_pos ((image_restoredClass acfg m.klass).trans m.home))) ?_
    exact reads_pure _
  · cases below

theorem arrayMethodOfType_eq {shape : ArrayShape} {method : ArrayMethod} {type : BitVec 32}
    (written : arrayMethodType shape method = some type) : arrayMethodOfType shape.rank type = some method := by
  cases method with
  | ctor paramCount =>
    unfold arrayMethodType at written
    dsimp only at written
    by_cases one : paramCount = shape.rank
    · rw [if_pos one] at written
      cases written
      rw [one]
      rfl
    · rw [if_neg one] at written
      by_cases two : paramCount = shape.rank * 2
      · rw [if_pos two] at written
        cases written
        rw [two]
        rfl
      · rw [if_neg two] at written
        cases written
  | get | address | set =>
    cases written
    rfl

theorem reads_arrayMethod (resolves : Resolves acfg amodule) {shape : ArrayShape} {elementClass : MonoClass}
    {method : ArrayMethod} (written : encodeArrayMethod acfg shape elementClass method = some bytes)
    (deep : classDepth elementClass + 1 ≤ fuel) : Reads (decodeMethodRef amodule fuel true)
      (encodeNoAotTrampoline acfg (.arrayMethod shape elementClass method) ++ bytes)
      { image := none, token := 0,
        method := some (.arrayMethod shape.vector (restoredClass acfg elementClass) method),
        noAotTrampoline := acfg.needsTrampoline (.arrayMethod shape elementClass method) } := by
  obtain ⟨klass, inside, written⟩ := bind_eq_some_iff.1 written
  obtain ⟨type, is, same⟩ := bind_eq_some_iff.1 written
  cases same
  have array := reads_klassRef resolves (.array shape elementClass) fuel inside (by rw [classDepth]; exact deep)
  have found : monoArrayMethod (.array shape.vector (restoredClass acfg elementClass)) type
      = some (.arrayMethod shape.vector (restoredClass acfg elementClass) method) := by
    show (arrayMethodOfType shape.rank type).map _ = _
    rw [arrayMethodOfType_eq is, map_some]
  refine reads_kind acfg _ (by decide) ?_
  refine reads_bind array ?_
  rw [← append_nil (encodeValue type)]
  refine reads_bind (reads_decodeValue type) ?_
  refine reads_bind_nothing (reads_need found) ?_
  exact reads_bind_nothing (reads_pure _) (reads_pure _)

/-! ### Wrappers -/

theorem wrapperOfCode_code (type : WrapperType) : wrapperOfCode type.code = some type := by
  cases type <;> rfl

section Wrappers

variable {klassRef : Reader Byte MonoClass} {methodRef : Reader Byte MonoMethod}

variable {type : WrapperType} {bytes : List Byte}

theorem reads_wrapper (acfg : MonoAotCompile) (method : MonoMethod) {restored : MonoMethod}
    (inside : Reads (decodeWrapper klassRef methodRef type) bytes restored) :
    Reads (methodRefWith amodule klassRef methodRef true)
      (encodeNoAotTrampoline acfg method ++ encodeWrapperType type bytes)
      { image := some amodule.corlib, token := 0, method := some restored,
        noAotTrampoline := acfg.needsTrampoline method } := by
  refine reads_kind acfg method (by decide) ?_
  refine reads_bind (reads_decodeValue _) ?_
  refine reads_bind_nothing (reads_need (wrapperOfCode_code type)) ?_
  rw [← append_nil bytes]
  refine reads_bind inside ?_
  exact reads_bind_nothing (reads_pure _) (reads_pure _)

theorem fails_wrapper (acfg : MonoAotCompile) (method : MonoMethod)
    (inside : Fails (decodeWrapper klassRef methodRef type) bytes) : Fails (methodRefWith amodule klassRef methodRef true)
      (encodeNoAotTrampoline acfg method ++ encodeWrapperType type bytes) := by
  unfold encodeWrapperType
  rw [← List.append_assoc]
  refine fails_bind (reads_noAotTrampoline acfg method (by decide)) ?_
  dsimp only
  refine fails_bind (reads_decodeValue _) ?_
  refine fails_bind (reads_need (wrapperOfCode_code type)) ?_
  exact fails_bind_first inside

theorem decodeWrapper_method (wraps : wrapsMethod type = true) (read : unreadWrapper type = false) :
    decodeWrapper klassRef methodRef type = (methodRef >>= fun m => pure (.wrapperOfMethod type m)) := by
  unfold wrapsMethod at wraps
  split at wraps
  · cases read
  · rfl
  · cases read
  · rfl
  · cases read
  · rfl
  · cases wraps

theorem decodeWrapper_unread (unread : unreadWrapper type = true) : decodeWrapper klassRef methodRef type = fail := by
  unfold unreadWrapper at unread
  split at unread
  · rfl
  · rfl
  · rfl
  · cases unread

theorem decodeWrapper_class (wraps : wrapsClass type = true) :
    decodeWrapper klassRef methodRef type = (klassRef >>= fun klass => pure (.wrapperOfClass type klass)) := by
  unfold wrapsClass at wraps
  split at wraps
  · rfl
  · rfl
  · rfl
  · rfl
  · rfl
  · cases wraps

theorem decodeWrapper_nothing (wraps : wrapsNothing type = true) :
    decodeWrapper klassRef methodRef type = pure (.wrapper type .nothing) := by
  unfold wrapsNothing at wraps
  split at wraps
  · rfl
  · rfl
  · rfl
  · cases wraps

theorem reads_wrapperInfo {info : WrapperInfo} (written : encodeWrapperInfo type info = some bytes) :
    Reads (decodeWrapper klassRef methodRef type) bytes (.wrapper type info) := by
  cases info with
  | nothing =>
    obtain ⟨wraps, same⟩ := ite_none_right_eq_some.1 written
    cases same
    rw [decodeWrapper_nothing wraps]
    exact reads_pure _
  | allocator allocType =>
    obtain ⟨is, same⟩ := ite_none_right_eq_some.1 written
    cases same
    rw [is]
    exact reads_bind_pure (reads_decodeValue _)
  | monitorEnter | monitorExit =>
    obtain ⟨is, same⟩ := ite_none_right_eq_some.1 written
    cases same
    rw [is, ← append_nil (encodeValue _)]
    exact reads_bind (reads_decodeValue _) (reads_pure _)
  | elementAddr rank elemSize =>
    obtain ⟨is, same⟩ := ite_none_right_eq_some.1 written
    cases same
    rw [is]
    refine reads_bind (reads_decodeValue _) ?_
    refine reads_bind (reads_decodeValue _) ?_
    exact reads_bind_pure (reads_decodeValue _)

end Wrappers

/-! ### Methods -/

/-- A method that is written as a token leaves its image and its token, also where no method is asked for. -/
theorem reads_tokenOf (fuel : Nat) (outMethod : Bool) (resolves : Resolves acfg amodule)
    (written : encodeMethodRef acfg method = some bytes) (is : tokenOf acfg method = some (image, token)) :
    Reads (decodeMethodRef amodule fuel outMethod) bytes (tokenRef image token (acfg.needsTrampoline method)) ∧
      amodule.monoGetMethod image token = some method := by
  cases method with
  | plain d =>
    obtain ⟨behind, kind, same⟩ := withMark_eq_some written
    cases is
    rw [same]
    obtain ⟨there, reads⟩ := reads_token resolves kind
    exact ⟨reads, resolves.methods d there⟩
  | inflated m =>
    obtain ⟨behind, kind, same⟩ := withMark_eq_some written
    unfold withTokenInfo at kind
    have recorded : acfg.tokenInfo (.inflated m) = some (image, token) := is
    rw [recorded] at kind
    rw [same]
    exact ⟨reads_methodspec resolves _ kind, resolves.recorded _ image token recorded⟩
  | arrayMethod shape elementClass method =>
    obtain ⟨behind, kind, same⟩ := withMark_eq_some written
    unfold withTokenInfo at kind
    have recorded : acfg.tokenInfo (.arrayMethod shape elementClass method) = some (image, token) := is
    rw [recorded] at kind
    rw [same]
    exact ⟨reads_methodspec resolves _ kind, resolves.recorded _ image token recorded⟩
  | wrapperOfMethod type method | wrapperOfClass type klass | wrapper type info | namedWrapper type name => cases is

theorem restoredMethod_of_token (is : tokenOf acfg method = some (image, token)) :
    restoredMethod acfg method = some method := by
  cases method with
  | plain d => rfl
  | inflated m =>
    have recorded : acfg.tokenInfo (.inflated m) = some (image, token) := is
    unfold restoredMethod
    rw [recorded]
    rfl
  | arrayMethod shape elementClass method =>
    have recorded : acfg.tokenInfo (.arrayMethod shape elementClass method) = some (image, token) := is
    unfold restoredMethod
    rw [recorded]
    rfl
  | wrapperOfMethod type method | wrapperOfClass type klass | wrapper type info | namedWrapper type name => cases is

theorem refOf_of_token {restored : MonoMethod} (is : tokenOf acfg method = some (image, token)) :
    refOf acfg amodule method restored = tokenRef image token (acfg.needsTrampoline method) := by
  unfold refOf
  rw [is]

theorem resolveMethod_refOf (resolves : Resolves acfg amodule) {restored : MonoMethod}
    (written : encodeMethodRef acfg method = some bytes) (is : restoredMethod acfg method = some restored) :
    resolveMethod amodule (refOf acfg amodule method restored) = some restored := by
  cases found : tokenOf acfg method with
  | some pair =>
    obtain ⟨image, token⟩ := pair
    have resolved := (reads_tokenOf 0 true resolves written found).2
    rw [restoredMethod_of_token found] at is
    cases is
    rw [refOf_of_token found]
    exact resolved
  | none =>
    unfold refOf
    rw [found]
    cases method <;> rfl

mutual

theorem reads_methodRef (resolves : Resolves acfg amodule) : ∀ (method : MonoMethod) (fuel : Nat) {bytes : List Byte}
    {restored : MonoMethod},
    encodeMethodRef acfg method = some bytes → methodDepth method ≤ fuel → restoredMethod acfg method = some restored →
      Reads (decodeMethodRef amodule fuel true) bytes (refOf acfg amodule method restored)
  | .plain d, fuel, bytes, restored, written, _, _ => by
      rw [refOf_of_token rfl]
      exact (reads_tokenOf fuel true resolves written rfl).1
  | .inflated m, fuel, bytes, restored, written, deep, is => by
      cases recorded : acfg.tokenInfo (.inflated m) with
      | some pair =>
        have token : tokenOf acfg (.inflated m) = some (pair.1, pair.2) := recorded
        rw [refOf_of_token token]
        exact (reads_tokenOf fuel true resolves written token).1
      | none =>
        unfold encodeMethodRef at written
        obtain ⟨behind, kind, same⟩ := withMark_eq_some written
        unfold withTokenInfo at kind
        rw [recorded] at kind
        unfold restoredMethod at is
        rw [recorded, if_neg (by simp)] at is
        cases is
        unfold refOf
        rw [show tokenOf acfg (.inflated m) = none from recorded, same]
        exact reads_ginst resolves kind deep
  | .arrayMethod shape elementClass method, fuel, bytes, restored, written, deep, is => by
      cases recorded : acfg.tokenInfo (.arrayMethod shape elementClass method) with
      | some pair =>
        have token : tokenOf acfg (.arrayMethod shape elementClass method) = some (pair.1, pair.2) := recorded
        rw [refOf_of_token token]
        exact (reads_tokenOf fuel true resolves written token).1
      | none =>
        unfold encodeMethodRef at written
        obtain ⟨behind, kind, same⟩ := withMark_eq_some written
        unfold withTokenInfo at kind
        rw [recorded] at kind
        unfold restoredMethod at is
        rw [recorded, if_neg (by simp)] at is
        cases is
        unfold refOf
        rw [show tokenOf acfg (.arrayMethod shape elementClass method) = none from recorded, same]
        exact reads_arrayMethod resolves kind deep
  | .wrapperOfMethod type wrapped, fuel, bytes, restored, written, deep, is => by
      obtain ⟨behind, kind, same⟩ := withMark_eq_some written
      unfold restoredMethod at is
      split at is
      · cases is
      · next read =>
          obtain ⟨inner, restores, same'⟩ := map_eq_some_iff.1 is
          cases same'
          split at kind
          · next wraps =>
              obtain ⟨bytes', inside, same'⟩ := map_eq_some_iff.1 kind
              cases same'
              unfold methodDepth at deep
              obtain ⟨fuel, rfl⟩ : ∃ n, fuel = n + 1 := ⟨fuel - 1, by omega⟩
              rw [same]
              apply reads_wrapper
              rw [decodeWrapper_method wraps (by simpa using read)]
              exact reads_bind_pure (reads_methodRef2 resolves wrapped fuel inside (by omega) restores)
          · cases kind
  | .wrapperOfClass type klass, fuel, bytes, restored, written, deep, is => by
      obtain ⟨behind, kind, same⟩ := withMark_eq_some written
      cases is
      split at kind
      · next wraps =>
          obtain ⟨bytes', inside, same'⟩ := map_eq_some_iff.1 kind
          cases same'
          rw [same]
          apply reads_wrapper
          rw [decodeWrapper_class wraps]
          exact reads_bind_pure (reads_klassRef resolves klass fuel inside deep)
      · cases kind
  | .wrapper type info, fuel, bytes, restored, written, _, is => by
      obtain ⟨behind, kind, same⟩ := withMark_eq_some written
      cases is
      obtain ⟨bytes', inside, same'⟩ := map_eq_some_iff.1 kind
      cases same'
      rw [same]
      apply reads_wrapper
      exact reads_wrapperInfo inside
  | .namedWrapper type name, fuel, bytes, restored, written, _, is => by
      cases is

theorem reads_methodRef2 (resolves : Resolves acfg amodule) (method : MonoMethod) (fuel : Nat) {bytes : List Byte}
    {restored : MonoMethod} (written : encodeMethodRef acfg method = some bytes) (deep : methodDepth method ≤ fuel)
    (is : restoredMethod acfg method = some restored) : Reads (decodeMethodRef2 amodule (fuel + 1)) bytes restored :=
  reads_then_need (reads_methodRef resolves method fuel written deep is)
    (resolveMethod_refOf resolves written is)

end

/-- A method that is not read back makes the reader give up, whatever the fuel. -/
theorem fails_methodRef : ∀ (method : MonoMethod) (fuel : Nat) {bytes : List Byte},
    encodeMethodRef acfg method = some bytes → restoredMethod acfg method = none →
      Fails (decodeMethodRef amodule fuel true) bytes
  | .plain d, _, _, _, lost => by cases lost
  | .inflated m, _, _, _, lost => by
      unfold restoredMethod at lost
      split at lost
      · cases lost
      · cases lost
  | .arrayMethod shape elementClass method, _, _, _, lost => by
      unfold restoredMethod at lost
      split at lost
      · cases lost
      · cases lost
  | .wrapperOfClass type klass, _, _, _, lost | .wrapper type info, _, _, _, lost => by cases lost
  | .namedWrapper type name, fuel, bytes, written, _ => by
      obtain ⟨behind, kind, same⟩ := withMark_eq_some written
      cases kind
      rw [same, ← List.append_assoc]
      refine fails_bind (reads_noAotTrampoline acfg _ (by decide)) ?_
      dsimp only
      exact fails_fail _
  | .wrapperOfMethod type wrapped, fuel, bytes, written, lost => by
      obtain ⟨behind, kind, same⟩ := withMark_eq_some written
      obtain ⟨wraps, kind⟩ := ite_none_right_eq_some.1 kind
      obtain ⟨bytes', inside, same'⟩ := map_eq_some_iff.1 kind
      cases same'
      rw [same]
      apply fails_wrapper
      cases read : unreadWrapper type with
      | true =>
        rw [decodeWrapper_unread read]
        exact fails_fail _
      | false =>
        unfold restoredMethod at lost
        rw [read, if_neg Bool.false_ne_true] at lost
        rw [decodeWrapper_method wraps read]
        apply fails_bind_first
        cases fuel with
        | zero => exact fails_fail _
        | succ fuel => exact fails_bind_first (fails_methodRef wrapped fuel inside (map_eq_none_iff.1 lost))

/-! ### What comes back unchanged -/

theorem vector_eq_iff (shape : ArrayShape) : shape.vector = shape ↔ shape.bounded = false := by
  obtain ⟨rank, bounded, positive, small, single⟩ := shape
  unfold ArrayShape.vector
  simp [eq_comm]

mutual

theorem restoredClass_eq_iff : ∀ klass : MonoClass, restoredClass acfg klass = klass ↔ classReadable acfg klass = true
  | .typeDef _ | .typeVar _ _ | .methodVar _ _ => by simp [restoredClass, classReadable]
  | .array shape elementClass => by
      have element := restoredClass_eq_iff elementClass
      simp [restoredClass, classReadable, vector_eq_iff, element]
  | .genericInst containerClass classInst => by
      have types := restoredInst_eq_iff classInst
      unfold restoredClass classReadable
      cases (findTypespecForClass acfg (.genericInst containerClass classInst)).isSome with
      | true => simp
      | false => simp [types]

theorem restoredInst_eq_iff : ∀ inst : MonoGenericInst, restoredInst acfg inst = inst ↔ instReadable acfg inst = true
  | .nil => by simp [restoredInst, instReadable]
  | .cons type types => by
      have head := restoredClass_eq_iff type
      have tail := restoredInst_eq_iff types
      simp [restoredInst, instReadable, head, tail]

end

theorem restoredContext_eq_iff (context : MonoGenericContext) :
    restoredContext acfg context = context ↔ contextReadable acfg context = true := by
  have half : ∀ inst : Option MonoGenericInst,
      inst.map (restoredInst acfg) = inst ↔ inst.all (instReadable acfg) = true := by
    intro inst
    cases inst with
    | none => simp
    | some inst => simp [restoredInst_eq_iff]
  obtain ⟨classInst, methodInst⟩ := context
  unfold restoredContext contextReadable
  simp [half]

theorem restoredMethod_eq_iff : ∀ method : MonoMethod,
    restoredMethod acfg method = some method ↔ methodReadable acfg method = true
  | .plain _ | .wrapper _ _ | .namedWrapper _ _ => by simp [restoredMethod, methodReadable]
  | .wrapperOfClass type klass => by simp [restoredMethod, methodReadable, restoredClass_eq_iff]
  | .wrapperOfMethod type method => by
      have inside := restoredMethod_eq_iff method
      unfold restoredMethod methodReadable
      cases unreadWrapper type with
      | true => simp
      | false =>
        rw [if_neg Bool.false_ne_true, Bool.not_false, Bool.true_and, ← inside, map_eq_some_iff]
        simp
  | .arrayMethod shape elementClass method => by
      unfold restoredMethod methodReadable
      cases (acfg.tokenInfo (.arrayMethod shape elementClass method)).isSome with
      | true => simp
      | false => simp [vector_eq_iff, restoredClass_eq_iff]
  | .inflated m => by
      unfold restoredMethod methodReadable
      cases (acfg.tokenInfo (.inflated m)).isSome with
      | true => simp
      | false =>
        obtain ⟨klass, declaring, context, home⟩ := m
        simp [restoredClass_eq_iff, restoredContext_eq_iff]

/-! ### Round trips -/

theorem classRoundTrips_iff (resolves : Resolves acfg amodule) {klass : MonoClass}
    (written : encodeKlassRef acfg klass = some bytes) :
    ClassRoundTrips amodule bytes klass ↔ classReadable acfg klass = true := by
  rw [← restoredClass_eq_iff]
  constructor
  · rintro ⟨depth, reads⟩
    have own := reads_klassRef resolves klass (depth + classDepth klass) written (by omega)
    exact own.unique (reads _ (by omega))
  · intro same
    refine ⟨classDepth klass, ?_⟩
    intro fuel deep
    have own := reads_klassRef resolves klass fuel written deep
    rwa [same] at own

theorem methodRoundTrips_iff (resolves : Resolves acfg amodule) (written : encodeMethodRef acfg method = some bytes) :
    MethodRoundTrips amodule bytes method ↔ methodReadable acfg method = true := by
  rw [← restoredMethod_eq_iff]
  constructor
  · rintro ⟨depth, reads⟩
    have deep := reads (depth + methodDepth method + 1) (by omega)
    cases is : restoredMethod acfg method with
    | none =>
      have fails : Fails (decodeMethodRef2 amodule (depth + methodDepth method + 1)) bytes :=
        fails_bind_first (fails_methodRef method _ written is)
      exact absurd deep fails.not_reads
    | some restored =>
      have own := reads_methodRef2 resolves method (depth + methodDepth method) written (by omega) is
      rw [own.unique deep]
  · intro same
    refine ⟨methodDepth method + 1, ?_⟩
    intro fuel deep
    obtain ⟨fuel, rfl⟩ : ∃ n, fuel = n + 1 := ⟨fuel - 1, by omega⟩
    exact reads_methodRef2 resolves method fuel written (by omega) same

/-- A class or a method that can be written is read back from its bytes, whatever comes after them, if and only if nothing
in it is written that has no reader. -/
theorem aotRefs_roundTrip_iff (acfg : MonoAotCompile) (amodule : MonoAotModule)
    (resolves : Resolves acfg amodule) :
    (∀ klass bytes, encodeKlassRef acfg klass = some bytes →
        (ClassRoundTrips amodule bytes klass ↔ classReadable acfg klass = true)) ∧
      ∀ method bytes, encodeMethodRef acfg method = some bytes →
        (MethodRoundTrips amodule bytes method ↔ methodReadable acfg method = true) :=
  ⟨fun _ _ written => classRoundTrips_iff resolves written,
    fun _ _ written => methodRoundTrips_iff resolves written⟩

/-! ### References into one image -/

/-- An image that defines a class and a method. -/
def sampleImage : MonoImage where
  name := "mscorlib"
  typeDefs := [false]
  methods := [false]
  typeDefsFew := by decide
  methodsFew := by decide

def sampleClass : MonoClass :=
  .typeDef { image := sampleImage, row := ⟨0, by decide⟩ }

def sampleMethod : MonoMethod :=
  .plain { image := sampleImage, row := ⟨0, by decide⟩ }

def sampleCompile : MonoAotCompile where
  image := sampleImage
  imageTable := [sampleImage]
  typespecClasses := []
  tokenInfo := fun _ => none
  needsTrampoline := fun _ => false
  wrapperImage := fun _ => sampleImage
  imagesFew := by decide
  typespecsFew := by decide

def sampleModule : MonoAotModule where
  loadImage := fun index => if index = 0 then some sampleImage else none
  monoClassGet := fun _ token => if token = 0x02000001 then some sampleClass else none
  monoGetMethod := fun _ token => if token = 0x06000001 then some sampleMethod else none
  corlib := sampleImage

theorem sampleResolves : Resolves sampleCompile sampleModule where
  images := by
    intro i image found
    cases i with
    | zero =>
      cases found
      rfl
    | succ i => cases found
  typeDefs := by
    rintro ⟨image, row⟩ there
    cases mem_singleton.1 there
    obtain ⟨row, inside⟩ := row
    cases row with
    | zero => rfl
    | succ row => exact absurd inside (by simp)
  typespecs := by
    intro i klass found
    cases found
  methods := by
    rintro ⟨image, row⟩ there
    cases mem_singleton.1 there
    obtain ⟨row, inside⟩ := row
    cases row with
    | zero =>
      have index : MethodDef.index { image := sampleImage, row := ⟨0, inside⟩ } = 1 := rfl
      show sampleModule.monoGetMethod sampleImage
        (monoTokenMethodDef ||| MethodDef.index { image := sampleImage, row := ⟨0, inside⟩ }) = some sampleMethod
      have token : monoTokenMethodDef ||| (1 : BitVec 32) = 0x06000001 := by decide
      rw [index, token]
      rfl
    | succ row => exact absurd inside (by simp)
  recorded := by
    intro method image token found
    cases found

/-- The wrapper of a synchronized method is read back. -/
theorem aotRefs_roundTrip_iff_sample :
    MethodRoundTrips sampleModule
      ((encodeMethodRef sampleCompile (.wrapperOfMethod .synchronized sampleMethod)).getD [])
      (.wrapperOfMethod .synchronized sampleMethod) :=
  ((aotRefs_roundTrip_iff sampleCompile sampleModule sampleResolves).2
    (.wrapperOfMethod .synchronized sampleMethod) _ rfl).2 rfl

/-- The one-dimensional array class with a lower bound. -/
def boundedArray : MonoClass :=
  .array { rank := 1, bounded := true, positive := by decide, small := by decide, single := fun _ => rfl } sampleClass

/-- An array class with a lower bound is not read back, and neither are three kinds of wrappers. -/
theorem aotRefs_boundedArray :
    (∃ bytes, encodeKlassRef sampleCompile boundedArray = some bytes ∧
        ¬ ClassRoundTrips sampleModule bytes boundedArray) ∧
      ∀ type ∈ [WrapperType.remotingInvoke, .xdomainInvoke, .managedToNative],
        ∃ bytes, encodeMethodRef sampleCompile (.wrapperOfMethod type sampleMethod) = some bytes ∧
          ¬ MethodRoundTrips sampleModule bytes (.wrapperOfMethod type sampleMethod) := by
  refine ⟨⟨_, rfl, ?_⟩, ?_⟩
  · rw [classRoundTrips_iff sampleResolves rfl]
    decide
  · intro type listed
    have kinds : type = .remotingInvoke ∨ type = .xdomainInvoke ∨ type = .managedToNative := by
      simpa using listed
    rcases kinds with same | same | same
    · subst same
      refine ⟨_, rfl, ?_⟩
      rw [methodRoundTrips_iff sampleResolves rfl]
      decide
    · subst same
      refine ⟨_, rfl, ?_⟩
      rw [methodRoundTrips_iff sampleResolves rfl]
      decide
    · subst same
      refine ⟨_, rfl, ?_⟩
      rw [methodRoundTrips_iff sampleResolves rfl]
      decide

end MonoRuntime.AotRefs
