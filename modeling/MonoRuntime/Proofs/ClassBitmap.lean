/-
Module: MonoRuntime.Proofs.ClassBitmap
Purpose: When the bitmap of a class marks exactly its references: the walk over the fields as a fold, what a call marks
  when no large value type is embedded, and where the marks go when one is.
Trusted boundary: none
Main exports: isDescribed_iff
-/
import MonoRuntime.Metadata.ClassBitmap
import MonoRuntime.Proofs.FieldLayout

namespace MonoRuntime.ClassBitmap

open Bitmap List

/-! ### The walk as a fold -/

section Fold

variable {b : Build} {o : Objects}

variable {staticFields : Bool} {f : MonoClassField}

theorem sightFields_skipped (fields : List MonoClassField) (skipped : isSkipped staticFields f = true) :
    sightFields staticFields (f :: fields) = sightFields staticFields fields := by
  have dropped : ¬ (!isSkipped staticFields f) = true := by simp [skipped]
  rw [sightFields, filter_cons, if_neg dropped, sightFields]

theorem sightFields_byref (fields : List MonoClassField) (skipped : ¬ isSkipped staticFields f = true)
    (byref : f.byref = true) : sightFields staticFields (f :: fields) = [] := by
  have counted : (!isSkipped staticFields f) = true := by simpa using skipped
  have stops : ¬ (!f.byref) = true := by simp [byref]
  rw [sightFields, filter_cons, if_pos counted, takeWhile_cons, if_neg stops, filter_nil]

theorem sightFields_cons (fields : List MonoClassField) (skipped : ¬ isSkipped staticFields f = true)
    (byref : ¬ f.byref = true) : sightFields staticFields (f :: fields) =
      if (staticFields && f.offset == -1) = true then sightFields staticFields fields
      else f :: sightFields staticFields fields := by
  have counted : (!isSkipped staticFields f) = true := by simpa using skipped
  have passed : (!f.byref) = true := by simpa using byref
  rw [sightFields, filter_cons, if_pos counted, takeWhile_cons, if_pos passed, filter_cons]
  cases special : (staticFields && f.offset == -1) with
  | true | false => rfl

theorem visitFields_eq (visit : BitmapState b.bitmapElSize → MonoClassField → Option (BitmapState b.bitmapElSize))
    (staticFields : Bool) (fields : List MonoClassField) (s : BitmapState b.bitmapElSize) :
    visitFields b visit staticFields fields s = (sightFields staticFields fields).foldlM visit s := by
  induction fields generalizing s with
  | nil => rfl
  | cons f fields ih =>
    rw [visitFields]
    by_cases skipped : isSkipped staticFields f = true
    · rw [if_pos skipped, ih, sightFields_skipped fields skipped]
    · rw [if_neg skipped]
      by_cases byref : f.byref = true
      · rw [if_pos byref, sightFields_byref fields skipped byref]
        rfl
      · rw [if_neg byref, sightFields_cons fields skipped byref]
        by_cases special : (staticFields && f.offset == -1) = true
        · rw [if_pos special, if_pos special, ih]
        · rw [if_neg special, if_neg special, foldlM_cons]
          cases visit s f with
          | none => rfl
          | some s' => exact ih s'

/-- The fields that the walk visits. -/
def walked (o : Objects) (depth : Nat) (c : ClassId) (staticFields : Bool) : List MonoClassField :=
  (if staticFields then [c] else o.lineage depth c).flatMap fun p => sightFields staticFields (o.classes p).fields

theorem visitClasses_eq (visit : BitmapState b.bitmapElSize → MonoClassField → Option (BitmapState b.bitmapElSize))
    (staticFields : Bool) (classes : List ClassId) (s : BitmapState b.bitmapElSize) :
    visitClasses b o visit staticFields classes s =
      (classes.flatMap fun p => sightFields staticFields (o.classes p).fields).foldlM visit s := by
  induction classes generalizing s with
  | nil => rfl
  | cons p classes ih =>
    rw [visitClasses, visitFields_eq, flatMap_cons, foldlM_append]
    cases (sightFields staticFields (o.classes p).fields).foldlM visit s with
    | none => rfl
    | some s' => exact ih s'

/-- The buffer that a call writes to and returns. -/
def targetOf (b : Build) (o : Objects) (c : ClassId) (given size : Nat) (staticFields : Bool)
    (s : BitmapState b.bitmapElSize) : Nat :=
  if size ≤ maxSize b o c staticFields then s.buffers.length else given

/-- The state when the walk of a call begins. -/
def startOf (b : Build) (o : Objects) (c : ClassId) (size : Nat) (staticFields : Bool)
    (s : BitmapState b.bitmapElSize) : BitmapState b.bitmapElSize :=
  if size ≤ maxSize b o c staticFields then s.allocate (maxSize b o c staticFields + 1) else s

/-- What a call does at each field. -/
def visitOf (b : Build) (o : Objects) (depth fuel : Nat) (c : ClassId) (target size : Nat) (offset : Int) :
    BitmapState b.bitmapElSize → MonoClassField → Option (BitmapState b.bitmapElSize) :=
  visitField b o (fun klass pos s => computeClassBitmap b o depth fuel klass target size pos false s)
    (o.classes c).inCorlib target offset

theorem computeClassBitmap_succ (depth fuel : Nat) (c : ClassId) (given size : Nat) (offset : Int)
    (staticFields : Bool) (s : BitmapState b.bitmapElSize) :
    computeClassBitmap b o depth (fuel + 1) c given size offset staticFields s = ((walked o depth c staticFields).foldlM
        (visitOf b o depth fuel c (targetOf b o c given size staticFields s) size offset)
        (startOf b o c size staticFields s)).map fun s' => (targetOf b o c given size staticFields s, s') := by
  rw [computeClassBitmap]
  simp only [visitClasses_eq]
  unfold targetOf startOf visitOf walked
  split
  · next failed =>
    rw [failed]
    rfl
  · next s' done =>
    rw [done]
    rfl

end Fold

/-! ### Fields of a class and its ancestors -/

section Fields

variable {b : Build} (u : LoadedClasses b)

theorem mem_lineage {n : Nat} {c p : ClassId} (enough : u.rank c < n) :
    p ∈ u.lineage n c ↔ IsAncestor u.toObjects c p := by
  induction n generalizing c with
  | zero => omega
  | succ n ih =>
    rw [Objects.lineage]
    cases parent : (u.classes c).parent with
    | none =>
      simp only [mem_singleton]
      constructor
      · intro same
        rw [same]
        exact .self c
      · intro ancestor
        cases ancestor with
        | self => rfl
        | parent found _ => rw [parent] at found; cases found
    | some q =>
      have lower := u.parent_rank c q parent
      simp only [mem_cons, ih (by omega : u.rank q < n)]
      constructor
      · rintro (same | above)
        · rw [same]
          exact .self c
        · exact .parent parent above
      · intro ancestor
        cases ancestor with
        | self => exact .inl rfl
        | parent found above =>
          rw [parent] at found
          cases found
          exact .inr above

theorem mem_walked {c : ClassId} {staticFields : Bool} {f : MonoClassField} :
    f ∈ walked u.toObjects u.depth c staticFields ↔ InSight u.toObjects c staticFields f := by
  unfold walked InSight Declares
  cases staticFields with
  | true => simp
  | false => simp [mem_lineage u (u.rank_lt c)]

theorem InSight.stored {c : ClassId} {staticFields : Bool} {f : MonoClassField}
    (seen : InSight u.toObjects c staticFields f) : Stored u.toObjects c staticFields f := by
  obtain ⟨p, declares, mem⟩ := seen
  obtain ⟨mem, notSpecial⟩ := mem_filter.1 mem
  have notByref : f.byref = false := by simpa using all_eq_true.1 all_takeWhile f mem
  obtain ⟨mem, counted⟩ := mem_filter.1 ((takeWhile_sublist _).subset mem)
  refine ⟨p, declares, mem, ?_⟩
  have rva := u.rva_static p f mem
  cases staticFields with
  | true =>
    simp only [isSkipped, if_true, Bool.not_eq_true', Bool.or_eq_false_iff, Bool.not_eq_false'] at counted
    simp only [Bool.true_and, Bool.not_eq_true'] at notSpecial
    have isStatic : f.isStatic = true := by
      cases h : f.hasFieldRva with
      | true => exact rva h
      | false => simpa [h] using counted.1
    simp [isStored, notByref, isStatic, counted.2, bne, notSpecial]
  | false =>
    simp only [isSkipped, Bool.not_eq_true', if_neg Bool.false_ne_true] at counted
    simp [isStored, notByref, (Bool.or_eq_false_iff.1 counted).1]

end Fields

/-! ### What a call changes -/

section Effects

variable {w : Nat}

/-- The bits of `marks` are set in the buffer `target`, no other bit changes, and `*max_set` follows. -/
structure Marks (s s' : BitmapState w) (target : Nat) (marks : Nat → Prop) : Prop where
  buffers_le : s.buffers.length ≤ s'.buffers.length
  length_eq : ∀ j, j < s.buffers.length → (s'.buffers.getD j []).length = (s.buffers.getD j []).length
  bits : ∀ j k, s'.bit j k = true ↔ s.bit j k = true ∨ (j = target ∧ marks k)
  maxSet_le : s.maxSet ≤ s'.maxSet
  le_maxSet : ∀ k, marks k → k ≤ s'.maxSet
  maxSet_is : s'.maxSet = s.maxSet ∨ marks s'.maxSet

/-- The buffer `target` exists and has at least `room` bits. -/
def HasRoom (s : BitmapState w) (target room : Nat) : Prop :=
  target < s.buffers.length ∧ room ≤ w * (s.buffers.getD target []).length

theorem Marks.refl (s : BitmapState w) (target : Nat) : Marks s s target (fun _ => False) where
  buffers_le := Nat.le_refl _
  length_eq := fun _ _ => rfl
  bits := fun j k => by simp
  maxSet_le := Nat.le_refl _
  le_maxSet := fun _ marked => marked.elim
  maxSet_is := .inl rfl

variable {s s' : BitmapState w} {target room : Nat}

theorem Marks.trans {s'' : BitmapState w} {first second : Nat → Prop} (one : Marks s s' target first)
    (two : Marks s' s'' target second) : Marks s s'' target (fun k => first k ∨ second k) where
  buffers_le := Nat.le_trans one.buffers_le two.buffers_le
  length_eq := fun j inside =>
    (two.length_eq j (Nat.lt_of_lt_of_le inside one.buffers_le)).trans (one.length_eq j inside)
  bits := fun j k => by
    rw [two.bits, one.bits, or_assoc, and_or_left]
  maxSet_le := Nat.le_trans one.maxSet_le two.maxSet_le
  le_maxSet := fun k marked => by
    rcases marked with marked | marked
    · exact Nat.le_trans (one.le_maxSet k marked) two.maxSet_le
    · exact two.le_maxSet k marked
  maxSet_is := by
    rcases two.maxSet_is with same | marked
    · rw [same]
      rcases one.maxSet_is with same' | marked
      · exact .inl same'
      · exact .inr (.inl marked)
    · exact .inr (.inr marked)

/-- The marks only matter as a set, and the buffer only where there are marks. -/
theorem Marks.congr {target' : Nat} {marks marks' : Nat → Prop} (marked : Marks s s' target marks)
    (same : ∀ k, marks k ↔ marks' k) (sameTarget : ∀ k, marks k → target = target') : Marks s s' target' marks' where
  buffers_le := marked.buffers_le
  length_eq := marked.length_eq
  bits := fun j k => by
    rw [marked.bits, ← same]
    constructor
    · rintro (h | ⟨h, hk⟩)
      · exact .inl h
      · exact .inr ⟨h.trans (sameTarget k hk), hk⟩
    · rintro (h | ⟨h, hk⟩)
      · exact .inl h
      · exact .inr ⟨h.trans (sameTarget k hk).symm, hk⟩
  maxSet_le := marked.maxSet_le
  le_maxSet := fun k hk => marked.le_maxSet k ((same k).2 hk)
  maxSet_is := marked.maxSet_is.imp id (same _).1

theorem Marks.hasRoom {marks : Nat → Prop} (marked : Marks s s' target marks)
    (enough : HasRoom s target room) : HasRoom s' target room := by
  refine ⟨Nat.lt_of_lt_of_le enough.1 marked.buffers_le, ?_⟩
  rw [marked.length_eq target enough.1]
  exact enough.2

theorem bit_allocate (s : BitmapState w) (words j k : Nat) : (s.allocate words).bit j k = s.bit j k := by
  unfold BitmapState.bit BitmapState.allocate
  rw [getD_eq_getElem?_getD, getD_eq_getElem?_getD, getElem?_append]
  split
  · rfl
  · next beyond =>
    rw [getElem?_eq_none (Nat.le_of_not_lt beyond)]
    cases position : j - s.buffers.length with
    | zero | succ n => simp

theorem marks_allocate (s : BitmapState w) (words target : Nat) :
    Marks s (s.allocate words) target (fun _ => False) where
  buffers_le := by simp [BitmapState.allocate]
  length_eq := fun j inside => by
    simp [BitmapState.allocate, getElem?_append_left inside]
  bits := fun j k => by simp [bit_allocate]
  maxSet_le := Nat.le_refl _
  le_maxSet := fun _ marked => marked.elim
  maxSet_is := .inl rfl

theorem hasRoom_allocate (s : BitmapState w) (words : Nat) : HasRoom (s.allocate words) s.buffers.length (w * words) := by
  simp [HasRoom, BitmapState.allocate]

theorem marks_of_mark {pos : Nat} (positive : 0 < w)
    (done : s.mark target pos = some s') : Marks s s' target (fun k => k = pos) := by
  unfold BitmapState.mark at done
  cases found : s.buffers[target]? with
  | none => simp [found] at done
  | some words =>
    cases set : setBit words pos with
    | none => simp [found, set] at done
    | some words' =>
      simp only [found, set, Option.some.injEq] at done
      subst done
      obtain ⟨inside, value⟩ := List.getElem?_eq_some_iff.1 found
      obtain ⟨sameLength, bits⟩ := setBit_spec positive set
      have here : (s.buffers.set target words').getD target [] = words' := by
        simp [getElem?_set_self inside]
      have there : s.buffers.getD target [] = words := by
        simp [found]
      have elsewhere : ∀ j, j ≠ target → (s.buffers.set target words').getD j [] = s.buffers.getD j [] := by
        intro j different
        simp [getElem?_set_ne (Ne.symm different)]
      constructor
      · simp
      · intro j _
        by_cases same : j = target
        · rw [same, here, there, sameLength]
        · rw [elsewhere j same]
      · intro j k
        unfold BitmapState.bit
        by_cases same : j = target
        · rw [same, here, there, bits]
          simp
        · rw [elsewhere j same]
          simp [same]
      · exact Nat.le_max_left _ _
      · intro k same
        rw [same]
        exact Nat.le_max_right _ _
      · rcases Nat.le_total s.maxSet pos with le | le
        · exact .inr (Nat.max_eq_right le)
        · exact .inl (Nat.max_eq_left le)

theorem mark_isSome {pos : Nat} (enough : HasRoom s target room)
    (inside : pos < room) : ∃ s', s.mark target pos = some s' := by
  obtain ⟨exists_, large⟩ := enough
  rw [getD_eq_getElem?_getD, getElem?_eq_getElem exists_, Option.getD_some] at large
  obtain ⟨words', set⟩ := setBit_isSome (Nat.lt_of_lt_of_le inside large)
  unfold BitmapState.mark
  rw [getElem?_eq_getElem exists_]
  simp only [set]
  exact ⟨_, rfl⟩

theorem foldlM_marks {visit : BitmapState w → MonoClassField → Option (BitmapState w)}
    {marks : MonoClassField → Nat → Prop} (fields : List MonoClassField)
    (each : ∀ f ∈ fields, ∀ s, HasRoom s target room → ∃ s', visit s f = some s' ∧ Marks s s' target (marks f))
    (s : BitmapState w) (enough : HasRoom s target room) :
    ∃ s', fields.foldlM visit s = some s' ∧ Marks s s' target (fun k => ∃ f ∈ fields, marks f k) := by
  induction fields generalizing s with
  | nil =>
    refine ⟨s, rfl, (Marks.refl s target).congr ?_ ?_⟩
    · simp
    · exact fun _ absurd => absurd.elim
  | cons f fields ih =>
    obtain ⟨s1, visited, first⟩ := each f mem_cons_self s enough
    obtain ⟨s', folded, rest⟩ := ih (fun g mem => each g (mem_cons_of_mem f mem)) s1 (first.hasRoom enough)
    refine ⟨s', ?_, (first.trans rest).congr ?_ (fun _ _ => rfl)⟩
    · rw [foldlM_cons, visited]
      exact folded
    · simp

end Effects

/-! ### Positions -/

section Positions

variable {b : Build} (u : LoadedClasses b)

theorem pointerSize_pos (b : Build) : 0 < b.pointerSize := by
  rcases b.isPointer with h | h <;> omega

theorem bitmapElSize_pos (b : Build) : 0 < b.bitmapElSize := by
  have := pointerSize_pos b
  unfold Build.bitmapElSize
  omega

theorem headerWords_eq (b : Build) : headerWords b = 2 :=
  Nat.mul_div_cancel 2 (pointerSize_pos b)

/-- The words in front of the fields. -/
def startWords (staticFields : Bool) : Nat :=
  if staticFields then 0 else 2

theorem areaStart_eq (b : Build) (staticFields : Bool) :
    areaStart b staticFields = b.pointerSize * startWords staticFields := by
  cases staticFields with
  | true => rfl
  | false => exact Nat.mul_comm 2 b.pointerSize

theorem maxSize_eq (c : ClassId) (staticFields : Bool) :
    maxSize b u.toObjects c staticFields = areaEnd u.toObjects c staticFields / b.pointerSize :=
  rfl

variable {c : ClassId} {staticFields : Bool} {offset : Int}

/-- A part of the area in words: it begins at the word `q` and has `size` bytes. -/
theorem Inside.words {size : Nat} (inside : Inside b u.toObjects c staticFields offset size) :
    ∃ q : Nat, offset = b.pointerSize * q ∧ offset / b.pointerSize = q ∧ startWords staticFields ≤ q ∧
      b.pointerSize * q + size ≤ areaEnd u.toObjects c staticFields := by
  have positive := pointerSize_pos b
  obtain ⟨start, ⟨q, aligned⟩, stop⟩ := inside
  rw [areaStart_eq] at start
  have notNegative : 0 ≤ q := by
    by_contra negative
    have : (b.pointerSize : Int) * q < 0 := Int.mul_neg_of_pos_of_neg (by omega) (by omega)
    omega
  obtain ⟨n, rfl⟩ := Int.eq_ofNat_of_zero_le notNegative
  subst aligned
  have lower : b.pointerSize * startWords staticFields ≤ b.pointerSize * n := by exact_mod_cast start
  refine ⟨n, rfl, ?_, Nat.le_of_mul_le_mul_left lower positive, by exact_mod_cast stop⟩
  exact Int.mul_ediv_cancel_left n (by omega)

theorem wordPos_eq {f : MonoClassField} {size : Nat} (offset : Int)
    (inside : Inside b u.toObjects c staticFields f.offset size) (lower : 0 ≤ f.offset / b.pointerSize + offset)
    (upper : f.offset / b.pointerSize + offset < 2 ^ 32) :
    (wordPos b f offset : Int) = f.offset / b.pointerSize + offset := by
  obtain ⟨q, atWord, _, _, stop⟩ := Inside.words u inside
  have small := u.area_lt c staticFields
  have wide : 2 ^ 32 ≤ 2 ^ b.bitmapElSize := by
    apply Nat.pow_le_pow_right (by decide)
    unfold Build.bitmapElSize
    rcases b.isPointer with h | h <;> omega
  have exactOffset : f.offset % 2 ^ b.bitmapElSize = f.offset := by
    apply Int.emod_eq_of_lt
    · rw [atWord]
      exact_mod_cast Nat.zero_le (b.pointerSize * q)
    · have bound : (b.pointerSize * q : Nat) < 2 ^ b.bitmapElSize := by omega
      rw [atWord]
      exact_mod_cast bound
  unfold wordPos
  rw [exactOffset, Int.emod_eq_of_lt lower upper, Int.toNat_of_nonneg lower]

theorem RefersTo.flag {visible : ClassId → Bool → MonoClassField → Prop}
    (stored : ∀ c staticFields f, visible c staticFields f → Stored u.toObjects c staticFields f) {word : Int}
    (refers : RefersTo b u.toObjects visible c staticFields offset word)
    (inInstance : staticFields = false) : (u.classes c).hasReferences = true := by
  induction refers with
  | reference field isReference =>
    subst inInstance
    exact u.reference_flag _ _ (stored _ _ _ field) isReference
  | embedded field isStruct inner ih =>
    subst inInstance
    exact u.struct_flag _ _ _ (stored _ _ _ field) isStruct (ih rfl)

/-- An embedded value type in words: it begins at the word `q`, and without its header it ends in the object. -/
theorem struct_words {d : ClassId} {f : MonoClassField} (stored : Stored u.toObjects c staticFields f)
    (isStruct : u.fieldCase b (u.classes c).inCorlib f = .struct d) (flag : (u.classes d).hasReferences = true) :
    ∃ q : Nat, f.offset / b.pointerSize = q ∧ startWords staticFields ≤ q ∧ 2 ≤ maxSize b u.toObjects d false ∧
      maxSize b u.toObjects d false + q ≤ maxSize b u.toObjects c staticFields + 2 := by
  have positive := pointerSize_pos b
  have header : b.objectSize = b.pointerSize * 2 := Nat.mul_comm 2 b.pointerSize
  obtain ⟨large, inside⟩ := u.struct_inside c staticFields f d stored isStruct flag
  obtain ⟨q, _, atWord, lower, stop⟩ := Inside.words u inside
  have twoWords : 2 ≤ maxSize b u.toObjects d false := by
    rw [maxSize_eq, Nat.le_div_iff_mul_le positive, Nat.mul_comm, ← header]
    exact large
  have fits : (u.classes d).instanceSize + b.pointerSize * q ≤
      areaEnd u.toObjects c staticFields + b.pointerSize * 2 := by
    omega
  have divided := Nat.div_le_div_right (c := b.pointerSize) fits
  rw [Nat.add_mul_div_left _ _ positive, Nat.add_mul_div_left _ _ positive] at divided
  exact ⟨q, atWord, lower, twoWords, divided⟩

/-- The words with references lie between the header and the end of the object. -/
theorem RefersTo.bounds {visible : ClassId → Bool → MonoClassField → Prop}
    (stored : ∀ c staticFields f, visible c staticFields f → Stored u.toObjects c staticFields f) {word : Int}
    (refers : RefersTo b u.toObjects visible c staticFields offset word) :
    offset + startWords staticFields ≤ word ∧ word < offset + maxSize b u.toObjects c staticFields := by
  have positive := pointerSize_pos b
  induction refers with
  | @reference c staticFields offset f field isReference =>
    have inside := u.reference_inside c staticFields f (stored c staticFields f field) isReference
    obtain ⟨q, _, atWord, lower, stop⟩ := Inside.words u inside
    have upper : q + 1 ≤ maxSize b u.toObjects c staticFields := by
      rw [maxSize_eq, Nat.le_div_iff_mul_le positive, Nat.mul_comm, Nat.mul_succ]
      exact stop
    constructor <;> omega
  | @embedded c d staticFields offset word f field isStruct inner ih =>
    have flag := inner.flag u stored rfl
    obtain ⟨q, atWord, lower, _, upper⟩ := struct_words u (stored c staticFields f field) isStruct flag
    have twoWords : startWords false = 2 := rfl
    rw [atWord, headerWords_eq, twoWords] at ih
    constructor <;> omega

end Positions

/-! ### Calls without large value types -/

section Exact

variable {b : Build} (u : LoadedClasses b)

/-- The words that a field contributes. -/
def FieldWords (b : Build) (o : Objects) (inCorlib : Bool) (offset : Int) (f : MonoClassField) (word : Int) : Prop :=
  (o.fieldCase b inCorlib f = .reference ∧ word = f.offset / b.pointerSize + offset) ∨
    ∃ d, o.fieldCase b inCorlib f = .struct d ∧
      RefersTo b o (InSight o) d false (f.offset / b.pointerSize + offset - headerWords b) word

variable {c : ClassId} {staticFields : Bool} {offset : Int} {fuel target size room : Nat}
  {start s : BitmapState b.bitmapElSize} {f : MonoClassField}

theorem refersTo_iff {o : Objects} {word : Int} : RefersTo b o (InSight o) c staticFields offset word ↔
      ∃ f, InSight o c staticFields f ∧ FieldWords b o (o.classes c).inCorlib offset f word := by
  constructor
  · intro refers
    cases refers with
    | @reference _ _ _ f field isReference => exact ⟨f, field, .inl ⟨isReference, rfl⟩⟩
    | @embedded _ d _ _ _ f field isStruct inner => exact ⟨f, field, .inr ⟨d, isStruct, inner⟩⟩
  · rintro ⟨f, field, ⟨isReference, same⟩ | ⟨d, isStruct, inner⟩⟩
    · rw [same]
      exact .reference field isReference
    · exact .embedded field isStruct inner

/-- What is asked of a call: it is deep enough, the object lies in range, and the buffer has room for its references. -/
structure CallOk (fuel : Nat) (c : ClassId) (target : Nat) (size : Nat) (offset : Int) (staticFields : Bool)
    (start : BitmapState b.bitmapElSize) (room : Nat) : Prop where
  deep : (if staticFields then u.depth else u.rank c) < fuel
  lower : 0 ≤ offset + startWords staticFields
  upper : offset + maxSize b u.toObjects c staticFields < 2 ^ 32
  hasRoom : HasRoom start target room
  inside : ∀ word, RefersTo b u.toObjects (InSight u.toObjects) c staticFields offset word → word < room
  noLarge : ¬ EmbedsLarge b u.toObjects size c staticFields

/-- What a call does when all is well. -/
def CallMarks (fuel : Nat) : Prop :=
  ∀ c given size offset staticFields (s : BitmapState b.bitmapElSize) room,
    CallOk u fuel c (targetOf b u.toObjects c given size staticFields s) size offset staticFields
      (startOf b u.toObjects c size staticFields s) room →
    ∃ s', computeClassBitmap b u.toObjects u.depth fuel c given size offset staticFields s =
        some (targetOf b u.toObjects c given size staticFields s, s') ∧
      Marks s s' (targetOf b u.toObjects c given size staticFields s)
        (fun k => RefersTo b u.toObjects (InSight u.toObjects) c staticFields offset k)

theorem marks_startOf (c : ClassId) (size : Nat) (staticFields : Bool) (s : BitmapState b.bitmapElSize)
    (target : Nat) : Marks s (startOf b u.toObjects c size staticFields s) target (fun _ => False) := by
  unfold startOf
  split
  · exact marks_allocate s _ target
  · exact Marks.refl s target

/-- The nested call for an embedded class. Where it takes a buffer of its own there are no references. -/
theorem nestedCallOk {d : ClassId} (ok : CallOk u (fuel + 1) c target size offset staticFields start room)
    (field : InSight u.toObjects c staticFields f) (isStruct : u.fieldCase b (u.classes c).inCorlib f = .struct d)
    (flag : (u.classes d).hasReferences = true) (enough : HasRoom s target room) :
    CallOk u fuel d (targetOf b u.toObjects d target size false s) size
      (f.offset / b.pointerSize + offset - headerWords b) false (startOf b u.toObjects d size false s)
      (if size ≤ maxSize b u.toObjects d false then b.bitmapElSize * (maxSize b u.toObjects d false + 1)
        else room) := by
  have stored := field.stored u
  obtain ⟨q, atWord, first, twoWords, stop⟩ := struct_words u stored isStruct flag
  have low := ok.lower
  have high := ok.upper
  have deep := ok.deep
  constructor
  · have below := u.rank_lt d
    rw [if_neg Bool.false_ne_true]
    cases staticFields with
    | true =>
      simp only [if_true] at deep
      omega
    | false =>
      have lower := u.struct_rank c f d stored isStruct
      simp only [if_neg Bool.false_ne_true] at deep
      omega
  · rw [headerWords_eq, atWord, show startWords false = 2 from rfl]
    omega
  · rw [headerWords_eq, atWord]
    omega
  · unfold targetOf startOf
    split
    · exact hasRoom_allocate s _
    · exact enough
  · intro word refers
    split
    · next isLarge => exact absurd (.here field isStruct isLarge refers) ok.noLarge
    · exact ok.inside word (.embedded field isStruct refers)
  · intro inner
    exact ok.noLarge (.inside field isStruct inner)

theorem visitOf_struct {d : ClassId} (nested : CallMarks u fuel)
    (ok : CallOk u (fuel + 1) c target size offset staticFields start room)
    (field : InSight u.toObjects c staticFields f) (isStruct : u.fieldCase b (u.classes c).inCorlib f = .struct d)
    (enough : HasRoom s target room) : ∃ s', visitOf b u.toObjects u.depth fuel c target size offset s f = some s' ∧
      Marks s s' target (fun k => RefersTo b u.toObjects (InSight u.toObjects) d false
        (f.offset / b.pointerSize + offset - headerWords b) k) := by
  have stored := field.stored u
  unfold visitOf visitField
  simp only [isStruct]
  by_cases flag : (u.classes d).hasReferences = true
  · rw [if_pos flag]
    obtain ⟨q, atWord, start, twoWords, stop⟩ := struct_words u stored isStruct flag
    have low := ok.lower
    have high := ok.upper
    have exactPos := wordPos_eq u offset (u.struct_inside c staticFields f d stored isStruct flag).2
      (by omega) (by omega)
    rw [exactPos]
    have nestedOk := nestedCallOk u ok field isStruct flag enough
    obtain ⟨s', done, marked⟩ := nested d target size _ false s _ nestedOk
    rw [done]
    refine ⟨s', rfl, marked.congr (fun _ => Iff.rfl) ?_⟩
    intro k refers
    unfold targetOf
    split
    · next isLarge => exact absurd (.here field isStruct isLarge refers) ok.noLarge
    · rfl
  · rw [if_neg flag]
    refine ⟨s, rfl, (Marks.refl s target).congr ?_ (fun _ absurd => absurd.elim)⟩
    intro k
    constructor
    · exact False.elim
    · intro refers
      exact flag (refers.flag u (fun _ _ _ seen => seen.stored u) rfl)

theorem visitOf_reference (ok : CallOk u (fuel + 1) c target size offset staticFields start room)
    (field : InSight u.toObjects c staticFields f) (isReference : u.fieldCase b (u.classes c).inCorlib f = .reference)
    (enough : HasRoom s target room) : ∃ s', visitOf b u.toObjects u.depth fuel c target size offset s f = some s' ∧
      Marks s s' target (fun k => (k : Int) = f.offset / b.pointerSize + offset) := by
  have inside := u.reference_inside c staticFields f (field.stored u) isReference
  have refers : RefersTo b u.toObjects (InSight u.toObjects) c staticFields offset
      (f.offset / b.pointerSize + offset) := .reference field isReference
  obtain ⟨low, high⟩ := refers.bounds u (fun _ _ _ seen => seen.stored u)
  have lower := ok.lower
  have upper := ok.upper
  have exactPos := wordPos_eq u offset inside (by omega) (by omega)
  have fits : wordPos b f offset < room := by
    have := ok.inside _ refers
    omega
  obtain ⟨s', done⟩ := mark_isSome enough fits
  refine ⟨s', ?_, (marks_of_mark (bitmapElSize_pos b) done).congr ?_ (fun _ _ => rfl)⟩
  · unfold visitOf visitField
    simp only [isReference]
    rw [if_pos (Int.emod_eq_zero_of_dvd inside.aligned)]
    exact done
  · intro k
    omega

/-- Without large value types in sight, a call returns its buffer with exactly the references in sight marked. -/
theorem computeClassBitmap_marks (fuel : Nat) : CallMarks u fuel := by
  induction fuel with
  | zero =>
    intro c given size offset staticFields s room ok
    exact absurd ok.deep (Nat.not_lt_zero _)
  | succ fuel ih =>
    intro c given size offset staticFields s room ok
    have each : ∀ f ∈ walked u.toObjects u.depth c staticFields, ∀ s1,
        HasRoom s1 (targetOf b u.toObjects c given size staticFields s) room →
        ∃ s', visitOf b u.toObjects u.depth fuel c (targetOf b u.toObjects c given size staticFields s) size offset
            s1 f = some s' ∧
          Marks s1 s' (targetOf b u.toObjects c given size staticFields s)
            (fun k => FieldWords b u.toObjects (u.classes c).inCorlib offset f k) := by
      intro f mem s1 enough
      have field := (mem_walked u).1 mem
      cases kind : u.fieldCase b (u.classes c).inCorlib f with
      | plain =>
        have nothing := Marks.refl s1 (targetOf b u.toObjects c given size staticFields s)
        refine ⟨s1, ?_, nothing.congr ?_ (fun _ absurd => absurd.elim)⟩
        · unfold visitOf visitField
          simp only [kind]
        · simp [FieldWords, kind]
      | reference =>
        obtain ⟨s', done, marked⟩ := visitOf_reference u ok field kind enough
        exact ⟨s', done, marked.congr (by simp [FieldWords, kind]) (fun _ _ => rfl)⟩
      | struct d =>
        obtain ⟨s', done, marked⟩ := visitOf_struct u ih ok field kind enough
        exact ⟨s', done, marked.congr (by simp [FieldWords, kind]) (fun _ _ => rfl)⟩
      | invalid => exact absurd kind (u.supported c staticFields f (field.stored u))
    obtain ⟨s', folded, marked⟩ := foldlM_marks _ each _ ok.hasRoom
    refine ⟨s', ?_, ((marks_startOf u c size staticFields s _).trans marked).congr ?_ (fun _ _ => rfl)⟩
    · rw [computeClassBitmap_succ, folded]
      rfl
    · intro k
      rw [refersTo_iff]
      simp [mem_walked u]

end Exact

/-! ### Where the marks of large value types go -/

section Lost

variable {b : Build} (u : LoadedClasses b)

/-- Buffers stay and bits stay set. -/
structure Grows {w : Nat} (s s' : BitmapState w) : Prop where
  buffers_le : s.buffers.length ≤ s'.buffers.length
  bits : ∀ j k, s.bit j k = true → s'.bit j k = true

variable {w depth fuel size given bitmap : Nat} {f : MonoClassField} {o : Objects} {c : ClassId} {offset : Int}
  {s s' : BitmapState b.bitmapElSize} {staticFields : Bool}

theorem Grows.refl (s : BitmapState w) : Grows s s :=
  ⟨Nat.le_refl _, fun _ _ h => h⟩

theorem Grows.trans {s s' s'' : BitmapState w} (one : Grows s s') (two : Grows s' s'') : Grows s s'' :=
  ⟨Nat.le_trans one.buffers_le two.buffers_le, fun j k h => two.bits j k (one.bits j k h)⟩

theorem Marks.grows {s s' : BitmapState w} {target : Nat} {marks : Nat → Prop}
    (marked : Marks s s' target marks) : Grows s s' :=
  ⟨marked.buffers_le, fun j k h => (marked.bits j k).2 (.inl h)⟩

theorem foldlM_grows {visit : BitmapState w → MonoClassField → Option (BitmapState w)}
    (each : ∀ s f s', visit s f = some s' → Grows s s') (fields : List MonoClassField) {s s' : BitmapState w}
    (done : fields.foldlM visit s = some s') : Grows s s' := by
  induction fields generalizing s with
  | nil =>
    obtain rfl : s = s' := by simpa using done
    exact Grows.refl s
  | cons f fields ih =>
    obtain ⟨s1, visited, rest⟩ := Option.bind_eq_some_iff.1 done
    exact (each s f s1 visited).trans (ih rest)

theorem foldlM_visit {visit : BitmapState w → MonoClassField → Option (BitmapState w)}
    (each : ∀ s f s', visit s f = some s' → Grows s s') {fields : List MonoClassField} {s s' : BitmapState w}
    (mem : f ∈ fields) (done : fields.foldlM visit s = some s') :
    ∃ s1 s2, Grows s s1 ∧ visit s1 f = some s2 ∧ Grows s2 s' := by
  obtain ⟨before, after, rfl⟩ := append_of_mem mem
  rw [foldlM_append] at done
  obtain ⟨s1, reached, rest⟩ := Option.bind_eq_some_iff.1 done
  obtain ⟨s2, visited, last⟩ := Option.bind_eq_some_iff.1 rest
  exact ⟨s1, s2, foldlM_grows each before reached, visited, foldlM_grows each after last⟩

theorem visitOf_grows {target : Nat} (nested : ∀ d pos (s s' : BitmapState b.bitmapElSize) bitmap,
      computeClassBitmap b o depth fuel d target size pos false s = some (bitmap, s') → Grows s s')
    (visited : visitOf b o depth fuel c target size offset s f = some s') : Grows s s' := by
  unfold visitOf visitField at visited
  cases kind : o.fieldCase b (o.classes c).inCorlib f with
  | plain =>
    simp only [kind, Option.some.injEq] at visited
    rw [visited]
    exact Grows.refl s'
  | reference =>
    simp only [kind] at visited
    split at visited
    · exact (marks_of_mark (bitmapElSize_pos b) visited).grows
    · cases visited
  | struct d =>
    simp only [kind] at visited
    split at visited
    · split at visited
      · cases visited
      · next bitmap s1 called =>
        cases visited
        exact nested d _ s s' bitmap called
    · cases visited
      exact Grows.refl s
  | invalid =>
    simp only [kind] at visited
    cases visited

theorem computeClassBitmap_grows
    (done : computeClassBitmap b o depth fuel c given size offset staticFields s = some (bitmap, s')) : Grows s s' := by
  induction fuel generalizing c given offset staticFields s s' bitmap with
  | zero => cases done
  | succ fuel ih =>
    rw [computeClassBitmap_succ] at done
    obtain ⟨s1, folded, same⟩ := Option.map_eq_some_iff.1 done
    cases same
    have begun : Grows s (startOf b o c size staticFields s) := by
      unfold startOf
      split
      · exact (marks_allocate s _ 0).grows
      · exact Grows.refl s
    refine begun.trans (foldlM_grows ?_ _ folded)
    intro s1 f s2 visited
    exact visitOf_grows (fun _ _ _ _ _ called => ih called) visited

theorem computeClassBitmap_target
    (done : computeClassBitmap b o depth fuel c given size offset staticFields s = some (bitmap, s')) :
    bitmap = targetOf b o c given size staticFields s := by
  cases fuel with
  | zero => cases done
  | succ fuel =>
    rw [computeClassBitmap_succ] at done
    obtain ⟨s1, folded, same⟩ := Option.map_eq_some_iff.1 done
    cases same
    rfl

/-- The visit of a field in sight during a call: what lies before it, the visit, and what comes after it. -/
theorem call_visits
    (done : computeClassBitmap b u.toObjects u.depth (fuel + 1) c given size offset staticFields s = some (bitmap, s'))
    (field : InSight u.toObjects c staticFields f) : ∃ s1 s2, Grows (startOf b u.toObjects c size staticFields s) s1 ∧
      visitOf b u.toObjects u.depth fuel c bitmap size offset s1 f = some s2 ∧ Grows s2 s' := by
  rw [computeClassBitmap_succ] at done
  obtain ⟨last, folded, same⟩ := Option.map_eq_some_iff.1 done
  cases same
  refine foldlM_visit ?_ ((mem_walked u).2 field) folded
  intro s1 f s2 visited
  exact visitOf_grows (fun _ _ _ _ _ called => computeClassBitmap_grows called) visited

theorem call_nests {d : ClassId}
    (done : computeClassBitmap b u.toObjects u.depth (fuel + 1) c given size offset staticFields s = some (bitmap, s'))
    (field : InSight u.toObjects c staticFields f) (isStruct : u.fieldCase b (u.classes c).inCorlib f = .struct d)
    (flag : (u.classes d).hasReferences = true) :
    ∃ s1 s2 pos bitmap', Grows (startOf b u.toObjects c size staticFields s) s1 ∧
      computeClassBitmap b u.toObjects u.depth fuel d bitmap size pos false s1 = some (bitmap', s2) ∧ Grows s2 s' := by
  obtain ⟨s1, s2, before, visited, after⟩ := call_visits u done field
  refine ⟨s1, s2, ?_⟩
  unfold visitOf visitField at visited
  simp only [isStruct] at visited
  rw [if_pos flag] at visited
  split at visited
  · cases visited
  · next bitmap' s3 called =>
    cases visited
    exact ⟨_, bitmap', before, called, after⟩

/-- The buffer of a call lies in front of the buffers that its nested calls allocate. -/
theorem targetOf_lt {s1 : BitmapState b.bitmapElSize} (given_lt : given < s.buffers.length)
    (grown : Grows (startOf b u.toObjects c size staticFields s) s1) :
    targetOf b u.toObjects c given size staticFields s < s1.buffers.length ∧ s.buffers.length ≤ s1.buffers.length := by
  have longer := grown.buffers_le
  unfold startOf at longer
  unfold targetOf
  split
  · next isLarge =>
    rw [if_pos isLarge] at longer
    have added : (s.allocate (maxSize b u.toObjects c staticFields + 1)).buffers.length = s.buffers.length + 1 := by
      simp [BitmapState.allocate]
    omega
  · next isSmall =>
    rw [if_neg isSmall] at longer
    omega

/-- A reference in sight sets a bit, in the buffer that is returned or in a new one. -/
theorem refersTo_sets {at_ word : Int} (refers : RefersTo b u.toObjects (InSight u.toObjects) c staticFields at_ word)
    (given_lt : given < s.buffers.length)
    (done : computeClassBitmap b u.toObjects u.depth fuel c given size offset staticFields s = some (bitmap, s')) :
    ∃ j k, s'.bit j k = true ∧ (j = bitmap ∨ s.buffers.length ≤ j) := by
  induction refers generalizing fuel given offset s s' bitmap with
  | @reference c staticFields at_ f field isReference =>
    cases fuel with
    | zero => cases done
    | succ fuel =>
      obtain ⟨s1, s2, before, visited, after⟩ := call_visits u done field
      unfold visitOf visitField at visited
      simp only [isReference] at visited
      split at visited
      · have marked := marks_of_mark (bitmapElSize_pos b) visited
        exact ⟨bitmap, wordPos b f offset, after.bits _ _ ((marked.bits _ _).2 (.inr ⟨rfl, rfl⟩)), .inl rfl⟩
      · cases visited
  | @embedded c d staticFields at_ word f field isStruct inner ih =>
    cases fuel with
    | zero => cases done
    | succ fuel =>
      have flag := inner.flag u (fun _ _ _ seen => seen.stored u) rfl
      obtain ⟨s1, s2, pos, bitmap', before, called, after⟩ := call_nests u done field isStruct flag
      obtain ⟨inFront, later⟩ := targetOf_lt u given_lt before
      rw [← computeClassBitmap_target done] at inFront
      obtain ⟨j, k, set, place⟩ := ih inFront called
      refine ⟨j, k, after.bits j k set, ?_⟩
      rcases place with same | beyond
      · rw [computeClassBitmap_target called] at same
        unfold targetOf at same
        split at same
        · exact .inr (by omega)
        · exact .inl same
      · exact .inr (by omega)

theorem EmbedsLarge.flag (embeds : EmbedsLarge b u.toObjects size c staticFields)
    (inInstance : staticFields = false) : (u.classes c).hasReferences = true := by
  induction embeds with
  | here field isStruct isLarge refers =>
    subst inInstance
    exact u.struct_flag _ _ _ (field.stored u) isStruct (refers.flag u (fun _ _ _ seen => seen.stored u) rfl)
  | inside field isStruct inner ih =>
    subst inInstance
    exact u.struct_flag _ _ _ (field.stored u) isStruct (ih rfl)

theorem embedsLarge_strays (embeds : EmbedsLarge b u.toObjects size c staticFields) (given_lt : given < s.buffers.length)
    (done : computeClassBitmap b u.toObjects u.depth fuel c given size offset staticFields s = some (bitmap, s')) :
    ∃ j k, s'.bit j k = true ∧ s.buffers.length ≤ j ∧ j ≠ bitmap := by
  induction embeds generalizing fuel given offset s s' bitmap with
  | @here c d staticFields f _ _ field isStruct isLarge refers =>
    cases fuel with
    | zero => cases done
    | succ fuel =>
      have flag := refers.flag u (fun _ _ _ seen => seen.stored u) rfl
      obtain ⟨s1, s2, pos, bitmap', before, called, after⟩ := call_nests u done field isStruct flag
      obtain ⟨inFront, later⟩ := targetOf_lt u given_lt before
      rw [← computeClassBitmap_target done] at inFront
      obtain ⟨j, k, set, place⟩ := refersTo_sets u refers inFront called
      have fresh : bitmap' = s1.buffers.length := by
        rw [computeClassBitmap_target called, targetOf, if_pos isLarge]
      exact ⟨j, k, after.bits j k set, by omega, by omega⟩
  | @inside c d staticFields f field isStruct inner ih =>
    cases fuel with
    | zero => cases done
    | succ fuel =>
      have flag := inner.flag u rfl
      obtain ⟨s1, s2, pos, bitmap', before, called, after⟩ := call_nests u done field isStruct flag
      obtain ⟨inFront, later⟩ := targetOf_lt u given_lt before
      rw [← computeClassBitmap_target done] at inFront
      obtain ⟨j, k, set, beyond, _⟩ := ih inFront called
      exact ⟨j, k, after.bits j k set, by omega, by omega⟩

end Lost

/-! ### The bitmap of a class -/

section Described

variable {b : Build} (u : LoadedClasses b)

variable {c : ClassId} {staticFields : Bool} {offset : Int}

theorem RefersTo.mono {o : Objects} {visible visible' : ClassId → Bool → MonoClassField → Prop}
    (more : ∀ c staticFields f, visible c staticFields f → visible' c staticFields f) {word : Int}
    (refers : RefersTo b o visible c staticFields offset word) : RefersTo b o visible' c staticFields offset word := by
  induction refers with
  | reference field isReference => exact .reference (more _ _ _ field) isReference
  | embedded field isStruct inner ih => exact .embedded (more _ _ _ field) isStruct ih

theorem bit_start (words j k : Nat) :
    (⟨[zeros b.bitmapElSize words], 0⟩ : BitmapState b.bitmapElSize).bit j k = false := by
  unfold BitmapState.bit
  cases j with
  | zero | succ j => simp

/-- The calls that make descriptors mark the references in sight, when no large value type is in sight. -/
theorem describe_marks {words : Nat} (lower : 0 ≤ offset + startWords staticFields) (upper : offset ≤ 0)
    (noLarge : ¬ EmbedsLarge b u.toObjects (b.bitmapElSize * words) c staticFields) :
    ∃ bitmap s, describe u words c offset staticFields = some (bitmap, s) ∧
      Marks ⟨[zeros b.bitmapElSize words], 0⟩ s bitmap
        (fun k => RefersTo b u.toObjects (InSight u.toObjects) c staticFields offset k) := by
  have small := u.area_lt c staticFields
  have fewer : maxSize b u.toObjects c staticFields ≤ areaEnd u.toObjects c staticFields := Nat.div_le_self _ _
  have ok : CallOk u (u.depth + 1) c
      (targetOf b u.toObjects c 0 (b.bitmapElSize * words) staticFields ⟨[zeros b.bitmapElSize words], 0⟩)
      (b.bitmapElSize * words) offset staticFields
      (startOf b u.toObjects c (b.bitmapElSize * words) staticFields ⟨[zeros b.bitmapElSize words], 0⟩)
      (if b.bitmapElSize * words ≤ maxSize b u.toObjects c staticFields then
        b.bitmapElSize * (maxSize b u.toObjects c staticFields + 1) else b.bitmapElSize * words) := by
    constructor
    · have below := u.rank_lt c
      split <;> omega
    · exact lower
    · omega
    · unfold targetOf startOf
      split
      · exact hasRoom_allocate _ _
      · simp [HasRoom]
    · intro word refers
      obtain ⟨_, below⟩ := refers.bounds u (fun _ _ _ seen => seen.stored u)
      have wide := Nat.le_mul_of_pos_left (maxSize b u.toObjects c staticFields + 1) (bitmapElSize_pos b)
      split <;> omega
    · exact noLarge
  obtain ⟨s, done, marked⟩ := computeClassBitmap_marks u _ _ _ _ _ _ _ _ ok
  exact ⟨_, s, done, marked⟩

theorem describes_of_marks {words : Nat} {bitmap : Nat} {s : BitmapState b.bitmapElSize}
    (marked : Marks ⟨[zeros b.bitmapElSize words], 0⟩ s bitmap
      (fun k => RefersTo b u.toObjects (Stored u.toObjects) c staticFields offset k))
    (notNegative : ∀ word, RefersTo b u.toObjects (Stored u.toObjects) c staticFields offset word → 0 ≤ word) :
    Describes b u.toObjects c offset staticFields bitmap s where
  bits := fun k => by
    rw [marked.bits, bit_start]
    simp
  onlyHere := fun j k set => by
    rw [marked.bits, bit_start] at set
    rcases set with absurd | ⟨same, _⟩
    · cases absurd
    · exact same
  last := marked.le_maxSet
  isLast := by
    rcases marked.maxSet_is with none_ | refers
    · have unset : s.maxSet = 0 := none_
      by_cases any : ∃ word, RefersTo b u.toObjects (Stored u.toObjects) c staticFields offset word
      · obtain ⟨word, refers⟩ := any
        obtain ⟨k, rfl⟩ := Int.eq_ofNat_of_zero_le (notNegative word refers)
        have bound := marked.le_maxSet k refers
        have first : k = s.maxSet := by omega
        exact .inl (first ▸ refers)
      · exact .inr ⟨unset, fun word refers => any ⟨word, refers⟩⟩
    · exact .inl refers

/-- The bitmap describes the references of a class if and only if no value type with references that is as large as the
buffer of the caller is embedded in sight, and no byref field hides a reference. -/
theorem isDescribed_iff (words : Nat) (c : ClassId) (offset : Int) (staticFields : Bool)
    (lower : -(headerWords b : Int) ≤ offset)
    (upper : offset ≤ 0)
    (statics : staticFields = true → offset = 0) :
    IsDescribed u words c offset staticFields ↔
      ¬ EmbedsLarge b u.toObjects (b.bitmapElSize * words) c staticFields ∧
        ¬ HidesReference b u.toObjects c staticFields offset := by
  have fromStart : 0 ≤ offset + startWords staticFields := by
    rw [headerWords_eq] at lower
    cases staticFields with
    | true => simp [statics rfl]
    | false =>
      have twoWords : startWords false = 2 := rfl
      omega
  have notNegative : ∀ word, RefersTo b u.toObjects (Stored u.toObjects) c staticFields offset word → 0 ≤ word := by
    intro word refers
    obtain ⟨low, _⟩ := refers.bounds u (fun _ _ _ stored => stored)
    omega
  constructor
  · rintro ⟨bitmap, s, done, describes⟩
    have noLarge : ¬ EmbedsLarge b u.toObjects (b.bitmapElSize * words) c staticFields := by
      intro embeds
      obtain ⟨j, k, set, _, elsewhere⟩ := embedsLarge_strays u embeds (by simp) done
      exact elsewhere (describes.onlyHere j k set)
    refine ⟨noLarge, ?_⟩
    rintro ⟨word, refers, unseen⟩
    obtain ⟨bitmap', s', done', marked⟩ := describe_marks u fromStart upper noLarge
    rw [done] at done'
    cases done'
    obtain ⟨k, rfl⟩ := Int.eq_ofNat_of_zero_le (notNegative word refers)
    have set := (describes.bits k).2 refers
    rw [marked.bits, bit_start] at set
    rcases set with absurd | ⟨_, seen⟩
    · cases absurd
    · exact unseen seen
  · rintro ⟨noLarge, nothingHidden⟩
    obtain ⟨bitmap, s, done, marked⟩ := describe_marks u fromStart upper noLarge
    refine ⟨bitmap, s, done, describes_of_marks u (marked.congr ?_ (fun _ _ => rfl)) notNegative⟩
    intro k
    constructor
    · exact fun seen => seen.mono (fun _ _ _ field => field.stored u)
    · intro refers
      by_contra unseen
      exact nothingHidden ⟨k, refers, unseen⟩

end Described

/-! ### A struct in an object -/

section Sample

/-- A runtime for x86-64 with the conservative collector. -/
def sampleBuild : Build := ⟨FieldLayout.amd64, false⟩

/-- A field of the struct: a string behind the header. -/
def stringField : MonoClassField := ⟨.basic .string, false, false, false, false, 16⟩

/-- The field of the class that holds the struct. -/
def structField : MonoClassField := ⟨.valuetype 1, false, false, false, false, 16⟩

/-- A struct with a declared size, and a class with a field of that type. -/
def sampleClasses (size : Nat) : ClassId → MonoClass
  | 1 => ⟨some 0, false, true, none, 16 + size, 0, true, [stringField]⟩
  | 2 => ⟨some 0, false, false, none, 16 + size, 0, true, [structField]⟩
  | _ => ⟨none, true, false, none, 16, 0, false, []⟩

def sampleObjects (size : Nat) : Objects := ⟨sampleClasses size⟩

theorem ancestor_sample {size : Nat} {c p : ClassId} (ancestor : IsAncestor (sampleObjects size) c p) : p = c ∨ p = 0 := by
  induction ancestor with
  | self c => exact .inl rfl
  | @parent c p q found above ih =>
    have root : p = 0 := by
      match c with
      | 0 => cases found
      | 1 | 2 => cases found; rfl
      | _ + 3 => cases found
    rcases ih with same | zero
    · exact .inr (same.trans root)
    · exact .inr zero

theorem stored_sample {size : Nat} {c : ClassId} {staticFields : Bool} {f : MonoClassField}
    (stored : Stored (sampleObjects size) c staticFields f) :
    staticFields = false ∧ ((c = 1 ∧ f = stringField) ∨ (c = 2 ∧ f = structField)) := by
  obtain ⟨p, declares, mem, storedIn⟩ := stored
  have owner : p = c ∨ p = 0 := by
    unfold Declares at declares
    split at declares
    · exact .inl declares
    · exact ancestor_sample declares
  have field : (p = 1 ∧ f = stringField) ∨ (p = 2 ∧ f = structField) := by
    match p with
    | 0 => cases mem
    | 1 => exact .inl ⟨rfl, mem_singleton.1 mem⟩
    | 2 => exact .inr ⟨rfl, mem_singleton.1 mem⟩
    | _ + 3 => cases mem
  have instance_ : staticFields = false := by
    cases staticFields with
    | false => rfl
    | true =>
      rcases field with ⟨_, rfl⟩ | ⟨_, rfl⟩
      · cases storedIn
      · cases storedIn
  refine ⟨instance_, ?_⟩
  rcases owner with same | root
  · rwa [same] at field
  · rcases field with ⟨one, _⟩ | ⟨two, _⟩
    · exact absurd (root.symm.trans one) (by decide)
    · exact absurd (root.symm.trans two) (by decide)

theorem inSight_sample {size : Nat} {c : ClassId} {staticFields : Bool} {f : MonoClassField}
    (stored : Stored (sampleObjects size) c staticFields f) : InSight (sampleObjects size) c staticFields f := by
  obtain ⟨rfl, ⟨rfl, rfl⟩ | ⟨rfl, rfl⟩⟩ := stored_sample stored
  · refine ⟨1, .self 1, ?_⟩
    show stringField ∈ sightFields false [stringField]
    decide
  · refine ⟨2, .self 2, ?_⟩
    show structField ∈ sightFields false [structField]
    decide

theorem rank_sample {size : Nat} {c p : ClassId} (found : ((sampleObjects size).classes c).parent = some p) :
    p = 0 ∧ (c = 1 ∨ c = 2) := by
  match c with
  | 0 => cases found
  | 1 => cases found; exact ⟨rfl, .inl rfl⟩
  | 2 => cases found; exact ⟨rfl, .inr rfl⟩
  | _ + 3 => cases found

theorem case_string (size : Nat) (inCorlib : Bool) :
    (sampleObjects size).fieldCase sampleBuild inCorlib stringField = .reference := rfl

theorem case_struct (size : Nat) (inCorlib : Bool) :
    (sampleObjects size).fieldCase sampleBuild inCorlib structField = .struct 1 := rfl

/-- The runtime with the struct, which has room for its field. -/
def sampleLoaded (size : Nat) (room : 8 ≤ size) (small : size < 2 ^ 30) : LoadedClasses sampleBuild where
  toObjects := sampleObjects size
  depth := 3
  rank := fun c => if c ≤ 2 then c else 0
  rank_lt := by
    intro c
    split
    · next le => exact Nat.lt_succ_of_le le
    · decide
  parent_rank := by
    intro c p found
    obtain ⟨rfl, rfl | rfl⟩ := rank_sample found
    · decide
    · decide
  struct_rank := by
    intro c f d stored isStruct
    obtain ⟨_, ⟨rfl, rfl⟩ | ⟨rfl, rfl⟩⟩ := stored_sample stored
    · cases isStruct
    · cases isStruct
      decide
  reference_inside := by
    intro c staticFields f stored isReference
    obtain ⟨rfl, ⟨rfl, rfl⟩ | ⟨rfl, rfl⟩⟩ := stored_sample stored
    · refine ⟨by decide, by decide, ?_⟩
      show (16 : Int) + (8 : Nat) ≤ ((16 + size : Nat) : Int)
      omega
    · cases isReference
  struct_inside := by
    intro c staticFields f d stored isStruct flag
    obtain ⟨rfl, ⟨rfl, rfl⟩ | ⟨rfl, rfl⟩⟩ := stored_sample stored
    · cases isStruct
    · cases isStruct
      refine ⟨?_, by decide, by decide, ?_⟩
      · show 16 ≤ 16 + size
        omega
      · show (16 : Int) + ((16 + size - 16 : Nat) : Int) ≤ ((16 + size : Nat) : Int)
        omega
  supported := by
    intro c staticFields f stored
    obtain ⟨_, ⟨_, rfl⟩ | ⟨_, rfl⟩⟩ := stored_sample stored
    · rw [case_string]
      exact FieldCase.noConfusion
    · rw [case_struct]
      exact FieldCase.noConfusion
  reference_flag := by
    intro c f stored isReference
    obtain ⟨_, ⟨rfl, _⟩ | ⟨rfl, _⟩⟩ := stored_sample stored
    · rfl
    · rfl
  struct_flag := by
    intro c f d stored isStruct flag
    obtain ⟨_, ⟨rfl, _⟩ | ⟨rfl, _⟩⟩ := stored_sample stored
    · rfl
    · rfl
  rva_static := by
    intro c f mem rva
    match c with
    | 0 => cases mem
    | 1 =>
      cases mem_singleton.1 mem
      cases rva
    | 2 =>
      cases mem_singleton.1 mem
      cases rva
    | _ + 3 => cases mem
  area_lt := by
    intro c staticFields
    unfold areaEnd
    split
    · match c with
      | 0 => show 0 < 2 ^ 31; decide
      | 1 => show 0 < 2 ^ 31; decide
      | 2 => show 0 < 2 ^ 31; decide
      | _ + 3 => show 0 < 2 ^ 31; decide
    · match c with
      | 0 => show 16 < 2 ^ 31; decide
      | 1 => show 16 + size < 2 ^ 31; omega
      | 2 => show 16 + size < 2 ^ 31; omega
      | _ + 3 => show 16 < 2 ^ 31; decide

/-- A struct of one word is described with the class that holds it. -/
theorem isDescribed_iff_sample :
    IsDescribed (sampleLoaded 8 (by decide) (by decide)) 4 2 0 false := by
  refine (isDescribed_iff _ 4 2 0 false (by decide) (by decide) (fun _ => rfl)).2 ⟨?_, ?_⟩
  · intro embeds
    cases embeds with
    | here field isStruct isLarge _ =>
      obtain ⟨_, ⟨absurd, _⟩ | ⟨_, rfl⟩⟩ := stored_sample (field.stored _)
      · cases absurd
      · cases isStruct
        exact absurd isLarge (by decide)
    | inside field isStruct inner =>
      obtain ⟨_, ⟨absurd, _⟩ | ⟨_, rfl⟩⟩ := stored_sample (field.stored _)
      · cases absurd
      · cases isStruct
        cases inner with
        | here field isStruct _ _ =>
          obtain ⟨_, ⟨_, rfl⟩ | ⟨absurd, _⟩⟩ := stored_sample (field.stored _)
          · cases isStruct
          · cases absurd
        | inside field isStruct _ =>
          obtain ⟨_, ⟨_, rfl⟩ | ⟨absurd, _⟩⟩ := stored_sample (field.stored _)
          · cases isStruct
          · cases absurd
  · rintro ⟨word, refers, unseen⟩
    exact unseen (refers.mono (fun _ _ _ stored => inSight_sample stored))

/-- A struct of 254 words is as large as the buffer of the caller: its bit is set in a buffer that is lost, and the
bitmap that is returned is empty. -/
theorem isDescribed_loses_bits :
    ¬ IsDescribed (sampleLoaded 2032 (by decide) (by decide)) 4 2 0 false ∧
      (describe (sampleLoaded 2032 (by decide) (by decide)) 4 2 0 false).map
        (fun r => (r.1, r.2.bit 1 2, r.2.bit 2 2, r.2.maxSet)) = some (1, false, true, 2) := by
  refine ⟨?_, by decide⟩
  rintro ⟨bitmap, s, done, describes⟩
  have inStruct : InSight (sampleObjects 2032) 1 false stringField :=
    inSight_sample ⟨1, .self 1, mem_singleton_self _, rfl⟩
  have refers : RefersTo sampleBuild (sampleObjects 2032) (InSight (sampleObjects 2032)) 1 false 0 2 :=
    .reference inStruct (case_string 2032 false)
  have embeds : EmbedsLarge sampleBuild (sampleObjects 2032) 256 2 false :=
    .here (inSight_sample ⟨2, .self 2, mem_singleton_self _, rfl⟩) (case_struct 2032 false) (by decide) refers
  obtain ⟨j, k, set, _, elsewhere⟩ := embedsLarge_strays (sampleLoaded 2032 (by decide) (by decide)) embeds
    (by decide) done
  exact elsewhere (describes.onlyHere j k set)

end Sample

end MonoRuntime.ClassBitmap
