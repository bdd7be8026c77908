/-
Module: MonoRuntime.Proofs.AotKlassInfo
Purpose: The record of a class that is written for its vtable comes back with every flag and size, and the reference of
  every slot is found behind the slots in front of it. No method is stored, since what passes the filter of the
  vtable is written as a token.
Trusted boundary: none
Main exports: klassInfo_roundTrips
-/
import MonoRuntime.Mini.AotKlassInfo
import MonoRuntime.Proofs.AotRefs

namespace MonoRuntime.AotRefs

open Reader List
open DebugInfo (encodeValue decodeValue reads_decodeValue)

variable {acfg : MonoAotCompile} {amodule : MonoAotModule} {klass : MonoKlass}

/-! ### The flags -/

theorem flagAt_bits (h g f e d c b a : Bool) : ∀ i, i < 8 →
      flagAt (bit h <<< 7 ||| bit g <<< 6 ||| bit f <<< 5 ||| (bit e <<< 4 ||| bit d <<< 3) ||| bit c <<< 2 |||
        bit b <<< 1 ||| bit a) i = [a, b, c, d, e, f, g, h].getD i false := by
  revert h g f e d c b a
  decide

theorem flagAt_klassFlags (klass : MonoKlass) {i : Nat} (inside : i < 8) : flagAt (klassFlags klass) i
      = [klass.ghcimpl, klass.finalizer.isSome, klass.cctor.isSome, klass.nestedClasses, klass.blittable,
          klass.hasReferences, klass.hasStaticRefs, klass.noSpecialStatic].getD i false :=
  flagAt_bits _ _ _ _ _ _ _ _ i inside

/-! ### References without a method -/

theorem tokenOf_of_encoded {method : MonoMethod} (encoded : EncodedByToken acfg method) :
    ∃ image token, tokenOf acfg method = some (image, token) := by
  cases method with
  | plain d => exact ⟨_, _, rfl⟩
  | inflated m =>
    obtain ⟨⟨image, token⟩, is⟩ := Option.isSome_iff_exists.1 encoded
    exact ⟨image, token, is⟩
  | arrayMethod shape elementClass method | wrapperOfMethod type method | wrapperOfClass type klass
  | wrapper type info | namedWrapper type name => exact encoded.elim

theorem encoded_of_filter (full : cantEncode acfg klass = false) {cm : MonoMethod} (listed : some cm ∈ klass.vtable)
    (kind : definedOrInflated cm = true) : EncodedByToken acfg cm := by
  have passed : cannotEncode acfg (some cm) = false := by
    unfold cantEncode at full
    rw [any_eq_false] at full
    exact Bool.eq_false_iff.2 (full (some cm) listed)
  cases cm with
  | plain d => trivial
  | inflated m =>
    have missing : (true && (acfg.tokenInfo (.inflated m)).isNone) = false := passed
    show (acfg.tokenInfo (.inflated m)).isSome = true
    cases recorded : acfg.tokenInfo (.inflated m) with
    | none =>
      rw [recorded] at missing
      cases missing
    | some pair => rfl
  | arrayMethod shape elementClass method | wrapperOfMethod type method | wrapperOfClass type klass
  | wrapper type info | namedWrapper type name => cases kind

variable {bytes : List Byte} {ref : MethodRef}

theorem reads_optional (fuel : Nat) (resolves : Resolves acfg amodule) {method : Option MonoMethod}
    (written : writeOptional acfg method = some bytes) (encoded : ∀ m ∈ method, EncodedByToken acfg m) :
    Reads (decodeOptional amodule fuel method.isSome) bytes (method.bind (tokenOf acfg)) := by
  unfold decodeOptional
  cases method with
  | none =>
    cases written
    exact reads_pure none
  | some m =>
    obtain ⟨image, token, is⟩ := tokenOf_of_encoded (encoded m rfl)
    obtain ⟨reads, -⟩ := reads_tokenOf fuel false resolves written is
    rw [Option.isSome_some, if_pos rfl, Option.bind_some, is, ← append_nil bytes]
    refine reads_bind reads ?_
    exact reads_bind_pure (reads_need rfl)

/-! ### The record -/

theorem writeKlassInfo_eq_some (generic : klass.genericContainer = false) (full : cantEncode acfg klass = false)
    (written : emitKlassInfo acfg klass = some bytes) :
    ∃ cctor finalizer slots, writeOptional acfg klass.cctor = some cctor ∧
      writeOptional acfg klass.finalizer = some finalizer ∧ writeVtable acfg klass.vtable = some slots ∧
      bytes = (encodeValue (BitVec.ofNat 32 klass.vtable.length) ++ (encodeValue (klassFlags klass) ++ (cctor ++
        (finalizer ++ (encodeValue klass.instanceSize ++ (encodeValue klass.dataSize ++
          (encodeValue (klass.packingSize.setWidth 32) ++ encodeValue (klass.minAlign.setWidth 32)))))))) ++ slots := by
  obtain ⟨buf, is, emitted⟩ := Option.bind_eq_some_iff.1 written
  obtain ⟨-, same⟩ := Option.ite_none_right_eq_some.1 emitted
  cases same
  unfold writeKlassInfo at is
  rw [generic, full, if_neg (by decide)] at is
  obtain ⟨header, one, is⟩ := Option.bind_eq_some_iff.1 is
  obtain ⟨slots, two, same⟩ := Option.bind_eq_some_iff.1 is
  cases same
  obtain ⟨cctor, three, one⟩ := Option.bind_eq_some_iff.1 one
  obtain ⟨finalizer, four, same⟩ := Option.bind_eq_some_iff.1 one
  cases same
  exact ⟨cctor, finalizer, slots, three, four, two, rfl⟩

theorem vtableSize_ne (klass : MonoKlass) : BitVec.ofNat 32 klass.vtable.length ≠ -1 := by
  have small := klass.vtableSize
  intro same
  have value : (BitVec.ofNat 32 klass.vtable.length).toNat = klass.vtable.length := by
    apply Nat.mod_eq_of_lt
    omega
  rw [same] at value
  have mark : (-1 : BitVec 32).toNat = 2 ^ 32 - 1 := by decide
  omega

theorem reads_cachedClassInfo (fuel : Nat) (resolves : Resolves acfg amodule) {cctor finalizer : List Byte}
    (one : writeOptional acfg klass.cctor = some cctor) (two : writeOptional acfg klass.finalizer = some finalizer)
    (cctorEncoded : ∀ method ∈ klass.cctor, EncodedByToken acfg method)
    (finalizerEncoded : ∀ method ∈ klass.finalizer, EncodedByToken acfg method) :
    Reads (decodeCachedClassInfo amodule fuel)
      (encodeValue (BitVec.ofNat 32 klass.vtable.length) ++ (encodeValue (klassFlags klass) ++ (cctor ++ (finalizer ++
        (encodeValue klass.instanceSize ++ (encodeValue klass.dataSize ++
          (encodeValue (klass.packingSize.setWidth 32) ++ encodeValue (klass.minAlign.setWidth 32))))))))
      (some (expectedClassInfo acfg klass)) := by
  refine reads_bind (reads_decodeValue _) ?_
  rw [if_neg (vtableSize_ne klass)]
  refine reads_bind (reads_decodeValue _) ?_
  simp only [flagAt_klassFlags klass (show 0 < 8 by decide), flagAt_klassFlags klass (show 1 < 8 by decide),
    flagAt_klassFlags klass (show 2 < 8 by decide), flagAt_klassFlags klass (show 3 < 8 by decide),
    flagAt_klassFlags klass (show 4 < 8 by decide), flagAt_klassFlags klass (show 5 < 8 by decide),
    flagAt_klassFlags klass (show 6 < 8 by decide), flagAt_klassFlags klass (show 7 < 8 by decide)]
  refine reads_bind (reads_optional fuel resolves one cctorEncoded) ?_
  refine reads_bind (reads_optional fuel resolves two finalizerEncoded) ?_
  refine reads_bind (reads_decodeValue _) ?_
  refine reads_bind (reads_decodeValue _) ?_
  refine reads_bind (reads_decodeValue _) ?_
  exact reads_bind_pure (reads_decodeValue _)

/-! ### The slots -/

theorem reads_slot (fuel : Nat) (resolves : Resolves acfg amodule) {slot : Option MonoMethod}
    (written : writeSlot acfg slot = some bytes) (encoded : ∀ cm ∈ slot, EncodedByToken acfg cm)
    (loadable : slot = none → (amodule.loadImage 0).isSome = true) :
    ∃ ref, Reads (decodeMethodRef amodule fuel false) bytes ref ∧ SlotRefers acfg amodule slot ref := by
  cases slot with
  | none =>
    cases written
    obtain ⟨image, is⟩ := Option.isSome_iff_exists.1 (loadable rfl)
    refine ⟨tokenRef image monoTokenMethodDef false, ?_, image, is, rfl⟩
    have kind : Reads (methodKindWith amodule (decodeKlassRef amodule fuel) (decodeMethodRef2 amodule fuel) false false 0)
        [] (tokenRef image monoTokenMethodDef false) := by
      unfold methodKindWith
      rw [if_neg (by decide), if_neg (by decide), if_neg (by decide), if_neg (by decide), if_neg (by decide),
        if_pos (by decide)]
      exact reads_bind_pure (reads_need is)
    have start : Reads decodeNoAotTrampoline (encodeValue 0) (false, 0) := by
      refine reads_bind (reads_decodeValue 0) ?_
      exact reads_pure _
    exact reads_bind start kind
  | some cm =>
    obtain ⟨image, token, is⟩ := tokenOf_of_encoded (encoded cm rfl)
    obtain ⟨reads, found⟩ := reads_tokenOf fuel false resolves written is
    exact ⟨_, reads, image, token, is, found, rfl⟩

theorem reads_slotAt (fuel : Nat) (resolves : Resolves acfg amodule) : ∀ (slots : List (Option MonoMethod))
    {bytes : List Byte} (slot : Nat) {cm : Option MonoMethod}, writeVtable acfg slots = some bytes →
      (∀ cm, some cm ∈ slots → EncodedByToken acfg cm) →
        (none ∈ slots → (amodule.loadImage 0).isSome = true) → slots[slot]? = some cm →
          ∃ ref front back, bytes = front ++ back ∧
            Reads (skipSlots amodule fuel slot >>= fun _ => decodeMethodRef amodule fuel false) front ref ∧
              SlotRefers acfg amodule cm ref
  | [], _, _, _, _, _, _, at_ => by cases at_
  | cm' :: slots, bytes, slot, cm, written, encoded, loadable, at_ => by
      obtain ⟨first, head, written⟩ := Option.bind_eq_some_iff.1 written
      obtain ⟨rest, tail, same⟩ := Option.bind_eq_some_iff.1 written
      cases same
      have here : ∀ m ∈ cm', EncodedByToken acfg m := by
        intro m is
        cases is
        exact encoded m mem_cons_self
      have loads : cm' = none → (amodule.loadImage 0).isSome = true := by
        intro empty
        rw [empty] at loadable
        exact loadable mem_cons_self
      obtain ⟨ref', reads, refers⟩ := reads_slot fuel resolves head here loads
      cases slot with
      | zero =>
        cases at_
        exact ⟨ref', first, rest, rfl, reads_bind_nothing (reads_pure ()) reads, refers⟩
      | succ slot =>
        obtain ⟨ref, front, back, same, later, refers⟩ := reads_slotAt fuel resolves slots slot tail
          (fun m listed => encoded m (mem_cons_of_mem _ listed))
          (fun empty => loadable (mem_cons_of_mem _ empty)) at_
        refine ⟨ref, first ++ front, back, by rw [same, append_assoc], ?_, refers⟩
        unfold skipSlots
        rw [bind_assoc]
        exact reads_bind reads later

theorem decodeVtSlot_spec {fuel : Nat} {slot : Nat} {header front back rest : List Byte} {info : MonoCachedClassInfo}
    (record : Reads (decodeCachedClassInfo amodule fuel) header (some info))
    (found : Reads (skipSlots amodule fuel slot >>= fun _ => decodeMethodRef amodule fuel false) front ref) :
    decodeVtSlot amodule fuel slot (header ++ (front ++ back) ++ rest) = some (some ref, back ++ rest) := by
  have behind : Reads (decodeSlot amodule fuel slot (some info)) front (some ref) := by
    have last := reads_bind_pure (f := some) found
    rwa [bind_assoc] at last
  have run := reads_bind record behind (back ++ rest)
  rw [← run]
  simp only [append_assoc]
  rfl

/-! ### The round trip -/

/-- The record of a class that has one comes back with every flag and size, and every slot of its vtable is found, without
a method that would be stored. -/
theorem klassInfo_roundTrips (acfg : MonoAotCompile) (amodule : MonoAotModule) (fuel : Nat) (klass : MonoKlass)
    (bytes : List Byte)
    (resolves : Resolves acfg amodule)
    (generic : klass.genericContainer = false)
    (full : cantEncode acfg klass = false)
    (cctor : ∀ method ∈ klass.cctor, EncodedByToken acfg method)
    (slots : ∀ cm, some cm ∈ klass.vtable → definedOrInflated cm = true)
    (loadable : none ∈ klass.vtable → (amodule.loadImage 0).isSome = true)
    (written : emitKlassInfo acfg klass = some bytes) :
    KlassInfoRestored acfg amodule fuel klass bytes := by
  obtain ⟨cctorBytes, finalizerBytes, slotBytes, one, two, three, same⟩ := writeKlassInfo_eq_some generic full written
  have encoded : ∀ cm, some cm ∈ klass.vtable → EncodedByToken acfg cm :=
    fun cm listed => encoded_of_filter full listed (slots cm listed)
  have finalizer : ∀ method ∈ klass.finalizer, EncodedByToken acfg method :=
    fun method is => encoded method (klass.finalizeSlot method is)
  have record := reads_cachedClassInfo fuel resolves one two cctor finalizer
  refine ⟨_, slotBytes, same, record, ?_⟩
  intro slot cm at_ rest
  obtain ⟨ref, front, back, split_, found, refers⟩ :=
    reads_slotAt fuel resolves klass.vtable slot three encoded loadable at_
  refine ⟨ref, back ++ rest, ?_, refers⟩
  rw [same, split_]
  exact decodeVtSlot_spec record found

/-! ### A sample -/

/-- A class with a finalizer and an empty slot behind it. -/
def sampleKlass : MonoKlass where
  genericContainer := false
  noSpecialStatic := true
  hasStaticRefs := false
  hasReferences := true
  blittable := false
  nestedClasses := true
  ghcimpl := false
  cctor := some sampleMethod
  finalizer := some sampleMethod
  instanceSize := 24
  dataSize := 300
  packingSize := 8
  minAlign := 4
  vtable := [none, some sampleMethod, none]
  vtableSize := by decide
  finalizeSlot := by
    intro method is
    cases is
    decide

theorem klassInfo_roundTrips_sample :
    KlassInfoRestored sampleCompile sampleModule 0 sampleKlass ((emitKlassInfo sampleCompile sampleKlass).getD []) :=
  klassInfo_roundTrips sampleCompile sampleModule 0 sampleKlass _ sampleResolves rfl rfl
    (by
      intro method is
      cases is
      trivial)
    (by
      intro cm listed
      simp only [sampleKlass, mem_cons, Option.some.injEq, not_mem_nil, reduceCtorEq, false_or, or_false]
        at listed
      rw [listed]
      rfl)
    (fun _ => rfl) rfl

end MonoRuntime.AotRefs
