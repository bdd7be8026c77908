/-
Module: MonoRuntime.Mini.AotKlassInfo
Purpose: The records of classes in AOT images: `emit_klass_info` of `mini/aot-compiler.c` writes what is needed to create
  a vtable, `decode_cached_class_info` and `mono_aot_get_method_from_vt_slot` of `mini/aot-runtime.c` read it, the second
  one by skipping the slots in front of one. A failed assertion and a store through `NULL` are the result `none`; so is
  an image that cannot be loaded, behind which the source goes on.
Trusted boundary: human-reviewed translation of the source
Main exports: MonoKlass
-/
import MonoRuntime.Mini.AotRefs

namespace MonoRuntime.AotRefs

open Reader
open DebugInfo (encodeValue decodeValue)

/-! ### Classes -/

/-- What `emit_klass_info` uses of a `MonoClass`. There is a class constructor where `has_cctor` is set, and a finalizer
where `has_finalize` is, which is the method in a slot of the vtable. -/
structure MonoKlass where
  genericContainer : Bool
  noSpecialStatic : Bool
  hasStaticRefs : Bool
  hasReferences : Bool
  blittable : Bool
  nestedClasses : Bool
  ghcimpl : Bool
  cctor : Option MonoMethod
  finalizer : Option MonoMethod
  instanceSize : BitVec 32
  dataSize : BitVec 32
  packingSize : BitVec 4
  minAlign : BitVec 8
  vtable : List (Option MonoMethod)
  vtableSize : vtable.length < 2 ^ 31
  finalizeSlot : ∀ method ∈ finalizer, some method ∈ vtable

/-- `mono_method_signature (cm)->is_inflated`. -/
def signatureInflated : MonoMethod → Bool
  | .inflated _ => true
  | _ => false

/-! ### Writing -/

section Writer

variable (acfg : MonoAotCompile)

/-- A method that the vtable cannot be written for. -/
def cannotEncode : Option MonoMethod → Bool
  | some cm => signatureInflated cm && (acfg.tokenInfo cm).isNone
  | none => false

/-- `cant_encode`. -/
def cantEncode (klass : MonoKlass) : Bool :=
  klass.vtable.any (cannotEncode acfg)

/-- A flag of a class. -/
def bit (flag : Bool) : BitVec 32 :=
  if flag then 1 else 0

/-- The flags of a class. -/
def klassFlags (klass : MonoKlass) : BitVec 32 :=
  bit klass.noSpecialStatic <<< 7 ||| bit klass.hasStaticRefs <<< 6 ||| bit klass.hasReferences <<< 5 |||
    (bit klass.blittable <<< 4 ||| bit klass.nestedClasses <<< 3) ||| bit klass.cctor.isSome <<< 2 |||
    bit klass.finalizer.isSome <<< 1 ||| bit klass.ghcimpl

/-- A method that is written if there is one. -/
def writeOptional : Option MonoMethod → Option (List Byte)
  | none => some []
  | some method => encodeMethodRef acfg method

/-- A slot of the vtable. -/
def writeSlot : Option MonoMethod → Option (List Byte)
  | none => some (encodeValue 0)
  | some cm => encodeMethodRef acfg cm

/-- The slots of the vtable. -/
def writeVtable : List (Option MonoMethod) → Option (List Byte)
  | [] => some []
  | slot :: slots => do
      let first ← writeSlot acfg slot
      let rest ← writeVtable slots
      pure (first ++ rest)

/-- What is written in front of the slots. -/
def writeKlassHeader (klass : MonoKlass) : Option (List Byte) := do
  let cctor ← writeOptional acfg klass.cctor
  let finalizer ← writeOptional acfg klass.finalizer
  pure (encodeValue (BitVec.ofNat 32 klass.vtable.length) ++ (encodeValue (klassFlags klass) ++ (cctor ++ (finalizer ++
    (encodeValue klass.instanceSize ++ (encodeValue klass.dataSize ++ (encodeValue (klass.packingSize.setWidth 32) ++
      encodeValue (klass.minAlign.setWidth 32))))))))

/-- What `emit_klass_info` writes into its buffer. -/
def writeKlassInfo (klass : MonoKlass) : Option (List Byte) :=
  if klass.genericContainer || cantEncode acfg klass then some (encodeValue (-1))
  else do
    let header ← writeKlassHeader acfg klass
    let slots ← writeVtable acfg klass.vtable
    pure (header ++ slots)

/-- `buf_size`. -/
def klassInfoBufSize (klass : MonoKlass) : BitVec 32 :=
  10240 + BitVec.ofNat 32 klass.vtable.length * 16

/-- `emit_klass_info`: the assertion says that the buffer was large enough. -/
def emitKlassInfo (klass : MonoKlass) : Option (List Byte) := do
  let buf ← writeKlassInfo acfg klass
  if (buf.length : Int) < (klassInfoBufSize klass).toInt then pure buf else none

end Writer

/-! ### Reading -/

/-- `MonoCachedClassInfo`; a token is there if it is stored. -/
structure MonoCachedClassInfo where
  vtableSize : BitVec 32
  hasFinalize : Bool
  ghcimpl : Bool
  hasCctor : Bool
  hasNestedClasses : Bool
  blittable : Bool
  hasReferences : Bool
  hasStaticRefs : Bool
  noSpecialStaticFields : Bool
  cctorToken : Option (BitVec 32)
  finalizeImage : Option MonoImage
  finalizeToken : Option (BitVec 32)
  instanceSize : BitVec 32
  classSize : BitVec 32
  packingSize : BitVec 32
  minAlign : BitVec 32
deriving DecidableEq

/-- A bit of the flags that are read. -/
def flagAt (flags : BitVec 32) (i : Nat) : Bool :=
  flags >>> i &&& 1 == 1

section Reading

variable (amodule : MonoAotModule) (fuel : Nat)

/-- The image and the token of a method that is there if its flag is set; its argument `method` is `NULL`. -/
def decodeOptional (has : Bool) : Reader Byte (Option (MonoImage × BitVec 32)) :=
  if has then do
    let ref ← decodeMethodRef amodule fuel false
    let image ← need ref.image
    pure (some (image, ref.token))
  else pure none

/-- `decode_cached_class_info` behind the size of the vtable. -/
def decodeKlassFields (vtableSize : BitVec 32) : Reader Byte (Option MonoCachedClassInfo) := do
  let flags ← decodeValue
  let cctor ← decodeOptional amodule fuel (flagAt flags 2)
  let finalize ← decodeOptional amodule fuel (flagAt flags 1)
  let instanceSize ← decodeValue
  let classSize ← decodeValue
  let packingSize ← decodeValue
  let minAlign ← decodeValue
  pure (some
    { vtableSize := vtableSize, hasFinalize := flagAt flags 1, ghcimpl := flagAt flags 0, hasCctor := flagAt flags 2,
      hasNestedClasses := flagAt flags 3, blittable := flagAt flags 4, hasReferences := flagAt flags 5,
      hasStaticRefs := flagAt flags 6, noSpecialStaticFields := flagAt flags 7, cctorToken := cctor.map Prod.snd,
      finalizeImage := finalize.map Prod.fst, finalizeToken := finalize.map Prod.snd, instanceSize := instanceSize,
      classSize := classSize, packingSize := packingSize, minAlign := minAlign })

/-- `decode_cached_class_info`, with nothing for the result `FALSE`. -/
def decodeCachedClassInfo : Reader Byte (Option MonoCachedClassInfo) := do
  let vtableSize ← decodeValue
  if vtableSize = -1 then pure none else decodeKlassFields amodule fuel vtableSize

/-- The slots that are skipped. -/
def skipSlots : Nat → Reader Byte Unit
  | 0 => pure ()
  | n + 1 => do
      let _ ← decodeMethodRef amodule fuel false
      skipSlots n

/-- The reference in a slot, behind the record of the class. -/
def decodeSlot (slot : Nat) (info : Option MonoCachedClassInfo) : Reader Byte (Option MethodRef) :=
  match info with
  | none => pure none
  | some _ => do
      let _ ← skipSlots amodule fuel slot
      let ref ← decodeMethodRef amodule fuel false
      pure (some ref)

/-- What `mono_aot_get_method_from_vt_slot` reads, with nothing where the record has no vtable. -/
def decodeVtSlot (slot : Nat) : Reader Byte (Option MethodRef) := do
  let info ← decodeCachedClassInfo amodule fuel
  decodeSlot amodule fuel slot info

/-- The image and the token that `mono_aot_get_method_from_vt_slot` hands to `mono_aot_get_method_from_token`. -/
def tokenOfSlot (ref : MethodRef) : Option (MonoImage × BitVec 32) :=
  match ref.image with
  | none => none
  | some image =>
      if ref.noAotTrampoline then none
      else if ref.token &&& 0xffffff = 0 ∨ tokenTable ref.token ≠ 6 then none
      else some (image, ref.token)

/-- `mono_aot_get_method_from_vt_slot` for the bytes of the record of a class. -/
def monoAotGetMethodFromVtSlot (slot : Nat) (bytes : List Byte) : Option (MonoImage × BitVec 32) :=
  match decodeVtSlot amodule fuel slot bytes with
  | some (some ref, _) => tokenOfSlot ref
  | _ => none

end Reading

/-! ### What is to be restored -/

section Restored

variable (acfg : MonoAotCompile) (amodule : MonoAotModule)

/-- A method that an image defines, with or without a mark, or an instance whose token is recorded. -/
def EncodedByToken : MonoMethod → Prop
  | .plain _ => True
  | .inflated m => (acfg.tokenInfo (.inflated m)).isSome = true
  | _ => False

/-- A method that an image defines or an instance, as the vtable of a class that an image defines has them. -/
def definedOrInflated : MonoMethod → Bool
  | .plain _ => true
  | .inflated _ => true
  | _ => false

/-- The record of a class. -/
def expectedClassInfo (klass : MonoKlass) : MonoCachedClassInfo :=
  { vtableSize := BitVec.ofNat 32 klass.vtable.length, hasFinalize := klass.finalizer.isSome, ghcimpl := klass.ghcimpl,
    hasCctor := klass.cctor.isSome, hasNestedClasses := klass.nestedClasses, blittable := klass.blittable,
    hasReferences := klass.hasReferences, hasStaticRefs := klass.hasStaticRefs,
    noSpecialStaticFields := klass.noSpecialStatic, cctorToken := (klass.cctor.bind (tokenOf acfg)).map Prod.snd,
    finalizeImage := (klass.finalizer.bind (tokenOf acfg)).map Prod.fst,
    finalizeToken := (klass.finalizer.bind (tokenOf acfg)).map Prod.snd, instanceSize := klass.instanceSize,
    classSize := klass.dataSize, packingSize := klass.packingSize.setWidth 32, minAlign := klass.minAlign.setWidth 32 }

/-- The reference is the one that was written for the slot: the token of its method, from which the runtime gets the
method, with the mark that belongs to it. An empty slot refers to the row zero of the first image. -/
def SlotRefers (slot : Option MonoMethod) (ref : MethodRef) : Prop :=
  match slot with
  | some cm => ∃ image token, tokenOf acfg cm = some (image, token) ∧ amodule.monoGetMethod image token = some cm ∧
      ref = tokenRef image token (acfg.needsTrampoline cm)
  | none => ∃ image, amodule.loadImage 0 = some image ∧ ref = tokenRef image monoTokenMethodDef false

/-- The record of a class comes back, and every slot of its vtable is found, whatever comes after the record. -/
def KlassInfoRestored (fuel : Nat) (klass : MonoKlass) (bytes : List Byte) : Prop :=
  ∃ header slots, bytes = header ++ slots ∧
    Reads (decodeCachedClassInfo amodule fuel) header (some (expectedClassInfo acfg klass)) ∧
    ∀ (slot : Nat) (cm : Option MonoMethod), klass.vtable[slot]? = some cm →
      ∀ rest, ∃ ref rest', decodeVtSlot amodule fuel slot (bytes ++ rest) = some (some ref, rest') ∧
        SlotRefers acfg amodule cm ref

end Restored

end MonoRuntime.AotRefs
