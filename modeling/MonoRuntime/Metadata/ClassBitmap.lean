/-
Module: MonoRuntime.Metadata.ClassBitmap
Purpose: The bitmap of the references in an object, `compute_class_bitmap` of `metadata/object.c`, from which the
  descriptors for the collector are made. The buffers of the caller and of every call lie in one list. A failed
  assertion, a type that the walk refuses and a store outside a buffer are the result `none`.
Trusted boundary: human-reviewed translation of the source
Main exports: Objects
-/
import MonoRuntime.Lib.Bitmap
import MonoRuntime.Metadata.FieldLayout

namespace MonoRuntime.ClassBitmap

open Bitmap

/-! ### Classes -/

/-- The pointer size, and whether `HAVE_SGEN_GC` is defined. -/
structure Build extends FieldLayout.Platform where
  haveSgenGc : Bool

/-- `BITMAP_EL_SIZE`: the bits of a `gsize`. -/
def Build.bitmapElSize (b : Build) : Nat :=
  b.pointerSize * 8

abbrev ClassId := Nat

/-- The members of `MonoTypeEnum` that need no class here. -/
inductive MonoTypeEnum where
  | void
  | boolean
  | char
  | i1
  | u1
  | i2
  | u2
  | i4
  | u4
  | i8
  | u8
  | r4
  | r8
  | string
  | ptr
  | class_
  | var
  | array
  | typedbyref
  | i
  | u
  | fnptr
  | object
  | szarray
  | mvar
deriving DecidableEq, Repr

/-- The type of a field. An instance of a generic class has the class that is instantiated and its own class. -/
inductive MonoType where
  | basic (type : MonoTypeEnum)
  | valuetype (klass : ClassId)
  | genericinst (containerClass klass : ClassId)
deriving DecidableEq, Repr

/-- A field with the attributes that the walk looks at. -/
structure MonoClassField where
  type : MonoType
  byref : Bool
  isStatic : Bool
  isLiteral : Bool
  hasFieldRva : Bool
  offset : Int
deriving DecidableEq, Repr

/-- `enumBasetype` is there when `enumtype` is set; `dataSize` is what `mono_class_data_size` returns. -/
structure MonoClass where
  parent : Option ClassId
  inCorlib : Bool
  valuetype : Bool
  enumBasetype : Option MonoTypeEnum
  instanceSize : Nat
  dataSize : Nat
  hasReferences : Bool
  fields : List MonoClassField
deriving DecidableEq, Repr

/-- The classes of a runtime. -/
structure Objects where
  classes : ClassId → MonoClass

/-- `mono_type_get_underlying_type` of the type of a field. -/
def Objects.underlyingType (o : Objects) (f : MonoClassField) : MonoType :=
  if f.byref then f.type
  else
    match f.type with
    | .basic t => .basic t
    | .valuetype klass =>
        match (o.classes klass).enumBasetype with
        | some t => .basic t
        | none => f.type
    | .genericinst container _ =>
        match (o.classes container).enumBasetype with
        | some t => .basic t
        | none => f.type

/-! ### The walk -/

/-- The cases of the switch over the type: nothing to do, one reference, an embedded value type, an error. -/
inductive FieldCase where
  | plain
  | reference
  | struct (klass : ClassId)
  | invalid
deriving DecidableEq, Repr

/-- The case of a field of a class, which is in corlib or not. -/
def Objects.fieldCase (o : Objects) (b : Build) (inCorlib : Bool) (f : MonoClassField) : FieldCase :=
  match o.underlyingType f with
  | .basic .i | .basic .ptr | .basic .fnptr => .plain
  -- only UIntPtr may be tracked by the collector, and only in corlib
  | .basic .u => if b.haveSgenGc then .plain else if inCorlib then .reference else .plain
  | .basic .string | .basic .szarray | .basic .class_ | .basic .object | .basic .array => .reference
  | .genericinst container klass => if (o.classes container).valuetype then .struct klass else .reference
  | .valuetype klass => .struct klass
  | .basic .i1 | .basic .u1 | .basic .i2 | .basic .u2 | .basic .i4 | .basic .u4 | .basic .i8 | .basic .u8
  | .basic .r4 | .basic .r8 | .basic .boolean | .basic .char => .plain
  | .basic .void | .basic .var | .basic .typedbyref | .basic .mvar => .invalid

/-- The buffers that exist, and `*max_set`. -/
structure BitmapState (w : Nat) where
  buffers : List (List (BitVec w))
  maxSet : Nat
deriving DecidableEq, Repr

/-- The bit `k` of the buffer `j`. -/
def BitmapState.bit {w : Nat} (s : BitmapState w) (j k : Nat) : Bool :=
  testBit (s.buffers.getD j []) k

/-- `bitmap = g_malloc0 (sizeof (gsize) * words)`. -/
def BitmapState.allocate {w : Nat} (s : BitmapState w) (words : Nat) : BitmapState w :=
  { s with buffers := s.buffers ++ [zeros w words] }

/-- `bitmap [pos / BITMAP_EL_SIZE] |= ((gsize)1) << (pos % BITMAP_EL_SIZE); *max_set = MAX (*max_set, pos)`. -/
def BitmapState.mark {w : Nat} (s : BitmapState w) (bitmap pos : Nat) : Option (BitmapState w) :=
  match s.buffers[bitmap]? with
  | none => none
  | some words =>
      match setBit words pos with
      | none => none
      | some words' => some ⟨s.buffers.set bitmap words', max s.maxSet pos⟩

/-- `pos = field->offset / sizeof (gpointer); pos += offset`, as a `guint32`. -/
def wordPos (b : Build) (f : MonoClassField) (offset : Int) : Nat :=
  (((f.offset % 2 ^ b.bitmapElSize) / b.pointerSize + offset) % 2 ^ 32).toNat

/-- The fields that the walk continues with, by their attributes. -/
def isSkipped (staticFields : Bool) (f : MonoClassField) : Bool :=
  if staticFields then !(f.isStatic || f.hasFieldRva) || f.isLiteral
  else f.isStatic || f.hasFieldRva

/-- The classes from `c` up, `fuel` at most. -/
def Objects.lineage (o : Objects) : Nat → ClassId → List ClassId
  | 0, _ => []
  | fuel + 1, c =>
      match (o.classes c).parent with
      | none => [c]
      | some p => c :: lineage o fuel p

section Walk

variable (b : Build) (o : Objects)

/-- `max_size`: the words of the instances or of the static fields. -/
def maxSize (c : ClassId) (staticFields : Bool) : Nat :=
  (if staticFields then (o.classes c).dataSize else (o.classes c).instanceSize) / b.pointerSize

/-- The words of an object header, `sizeof (MonoObject) / sizeof (gpointer)`. -/
def headerWords : Nat :=
  b.objectSize / b.pointerSize

/-- The switch for one field. `nested` is the call for an embedded value type, whose result is not used. -/
def visitField (nested : ClassId → Int → BitmapState b.bitmapElSize → Option (Nat × BitmapState b.bitmapElSize))
    (inCorlib : Bool) (bitmap : Nat) (offset : Int) (s : BitmapState b.bitmapElSize) (f : MonoClassField) :
    Option (BitmapState b.bitmapElSize) :=
  let pos := wordPos b f offset
  match o.fieldCase b inCorlib f with
  | .plain => some s
  | .reference => if f.offset % b.pointerSize = 0 then s.mark bitmap pos else none
  | .struct klass =>
      if (o.classes klass).hasReferences then
        -- remove the object header
        match nested klass (pos - headerWords b) s with
        | none => none
        | some (_, s') => some s'
      else some s
  | .invalid => none

/-- The fields of one class. A field that is passed by reference ends the loop. -/
def visitFields (visit : BitmapState b.bitmapElSize → MonoClassField → Option (BitmapState b.bitmapElSize))
    (staticFields : Bool) : List MonoClassField → BitmapState b.bitmapElSize → Option (BitmapState b.bitmapElSize)
  | [], s => some s
  | f :: fields, s =>
      if isSkipped staticFields f then visitFields visit staticFields fields s
      else if f.byref then some s
      -- special static
      else if staticFields && f.offset == -1 then visitFields visit staticFields fields s
      else
        match visit s f with
        | none => none
        | some s' => visitFields visit staticFields fields s'

/-- The classes one after the other. -/
def visitClasses (visit : BitmapState b.bitmapElSize → MonoClassField → Option (BitmapState b.bitmapElSize))
    (staticFields : Bool) : List ClassId → BitmapState b.bitmapElSize → Option (BitmapState b.bitmapElSize)
  | [], s => some s
  | p :: rest, s =>
      match visitFields b visit staticFields (o.classes p).fields s with
      | none => none
      | some s' => visitClasses visit staticFields rest s'

/-- `compute_class_bitmap` with the buffer `bitmap`: the buffer that is returned, and the state. The first argument
bounds the depth of the calls, and `depth` the length of the chain of parents. -/
def computeClassBitmap (depth : Nat) : Nat → ClassId → Nat → Nat → Int → Bool → BitmapState b.bitmapElSize →
    Option (Nat × BitmapState b.bitmapElSize)
  | 0, _, _, _, _, _, _ => none
  | fuel + 1, c, given, size, offset, staticFields, s =>
      let isLarge := size ≤ maxSize b o c staticFields
      let bitmap := if isLarge then s.buffers.length else given
      let start := if isLarge then s.allocate (maxSize b o c staticFields + 1) else s
      let nested := fun klass pos s => computeClassBitmap depth fuel klass bitmap size pos false s
      let visit := visitField b o nested (o.classes c).inCorlib bitmap offset
      let classes := if staticFields then [c] else o.lineage depth c
      match visitClasses b o visit staticFields classes start with
      | none => none
      | some s' => some (bitmap, s')

end Walk

/-! ### References in objects -/

/-- A class and the classes it derives from. -/
inductive IsAncestor (o : Objects) : ClassId → ClassId → Prop where
  | self (c : ClassId) : IsAncestor o c c
  | parent {c p q : ClassId} : (o.classes c).parent = some p → IsAncestor o p q → IsAncestor o c q

/-- The class itself declares its static fields, its ancestors declare instance fields as well. -/
def Declares (o : Objects) (c : ClassId) (staticFields : Bool) (p : ClassId) : Prop :=
  if staticFields then p = c else IsAncestor o c p

/-- The fields with storage in the instance, or in the area of the static fields. There are none of byref type. -/
def isStored (staticFields : Bool) (f : MonoClassField) : Bool :=
  !f.byref && (if staticFields then f.isStatic && !f.isLiteral && f.offset != -1 else !f.isStatic)

/-- The fields stored in an instance of a class, or in its static area. -/
def Stored (o : Objects) (c : ClassId) (staticFields : Bool) (f : MonoClassField) : Prop :=
  ∃ p, Declares o c staticFields p ∧ f ∈ (o.classes p).fields ∧ isStored staticFields f = true

/-- The stored fields that no byref field of the same storage stands before. -/
def sightFields (staticFields : Bool) (fields : List MonoClassField) : List MonoClassField :=
  ((fields.filter fun f => !isSkipped staticFields f).takeWhile fun f => !f.byref).filter
    fun f => !(staticFields && f.offset == -1)

/-- The fields of the object that the walk sees. -/
def InSight (o : Objects) (c : ClassId) (staticFields : Bool) (f : MonoClassField) : Prop :=
  ∃ p, Declares o c staticFields p ∧ f ∈ sightFields staticFields (o.classes p).fields

/-- The word `word` holds a reference that is reached through `visible` fields of the class and of the value types in
it; words are counted from `offset` words before the object. -/
inductive RefersTo (b : Build) (o : Objects) (visible : ClassId → Bool → MonoClassField → Prop) :
    ClassId → Bool → Int → Int → Prop where
  | reference {c : ClassId} {staticFields : Bool} {offset : Int} {f : MonoClassField}
      (field : visible c staticFields f)
      (isReference : o.fieldCase b (o.classes c).inCorlib f = .reference) :
      RefersTo b o visible c staticFields offset (f.offset / b.pointerSize + offset)
  | embedded {c d : ClassId} {staticFields : Bool} {offset word : Int} {f : MonoClassField}
      (field : visible c staticFields f)
      (isStruct : o.fieldCase b (o.classes c).inCorlib f = .struct d)
      (inner : RefersTo b o visible d false (f.offset / b.pointerSize + offset - headerWords b) word) :
      RefersTo b o visible c staticFields offset word

/-- A value type with references whose instances have `size` words at least is embedded in sight of the walk, directly
or in another value type. -/
inductive EmbedsLarge (b : Build) (o : Objects) (size : Nat) : ClassId → Bool → Prop where
  | here {c d : ClassId} {staticFields : Bool} {f : MonoClassField} {offset word : Int}
      (field : InSight o c staticFields f)
      (isStruct : o.fieldCase b (o.classes c).inCorlib f = .struct d)
      (isLarge : size ≤ maxSize b o d false)
      (refers : RefersTo b o (InSight o) d false offset word) : EmbedsLarge b o size c staticFields
  | inside {c d : ClassId} {staticFields : Bool} {f : MonoClassField}
      (field : InSight o c staticFields f)
      (isStruct : o.fieldCase b (o.classes c).inCorlib f = .struct d)
      (inner : EmbedsLarge b o size d false) : EmbedsLarge b o size c staticFields

/-- A word holds a reference that the walk does not see: a byref field stands before the field in its class, and no
field in sight refers to the same word. -/
def HidesReference (b : Build) (o : Objects) (c : ClassId) (staticFields : Bool) (offset : Int) : Prop :=
  ∃ word, RefersTo b o (Stored o) c staticFields offset word ∧
    ¬ RefersTo b o (InSight o) c staticFields offset word

/-! ### Loaded classes -/

section Area

variable (b : Build) (o : Objects)

/-- Where the fields begin: instances have a header, also those of value types. -/
def areaStart (staticFields : Bool) : Nat :=
  if staticFields then 0 else b.objectSize

/-- Where they end. -/
def areaEnd (c : ClassId) (staticFields : Bool) : Nat :=
  if staticFields then (o.classes c).dataSize else (o.classes c).instanceSize

/-- A part of `size` bytes lies in the area, at a multiple of the size of a pointer. -/
structure Inside (c : ClassId) (staticFields : Bool) (offset : Int) (size : Nat) : Prop where
  start : (areaStart b staticFields : Int) ≤ offset
  aligned : (b.pointerSize : Int) ∣ offset
  stop : offset + size ≤ areaEnd o c staticFields

end Area

/-- What holds of classes that are loaded and laid out: value types are not embedded in themselves, references and
value types with references are aligned and lie in the area of the fields, `has_references` is set where there are
references, and no field has a type that is void, open or a typed reference. -/
structure LoadedClasses (b : Build) extends Objects where
  depth : Nat
  rank : ClassId → Nat
  rank_lt : ∀ c, rank c < depth
  parent_rank : ∀ c p, (classes c).parent = some p → rank p < rank c
  struct_rank : ∀ c f d, Stored toObjects c false f →
    toObjects.fieldCase b (classes c).inCorlib f = .struct d → rank d < rank c
  reference_inside : ∀ c staticFields f, Stored toObjects c staticFields f →
    toObjects.fieldCase b (classes c).inCorlib f = .reference →
    Inside b toObjects c staticFields f.offset b.pointerSize
  struct_inside : ∀ c staticFields f d, Stored toObjects c staticFields f →
    toObjects.fieldCase b (classes c).inCorlib f = .struct d → (classes d).hasReferences = true →
    b.objectSize ≤ (classes d).instanceSize ∧
      Inside b toObjects c staticFields f.offset ((classes d).instanceSize - b.objectSize)
  supported : ∀ c staticFields f, Stored toObjects c staticFields f →
    toObjects.fieldCase b (classes c).inCorlib f ≠ .invalid
  reference_flag : ∀ c f, Stored toObjects c false f →
    toObjects.fieldCase b (classes c).inCorlib f = .reference → (classes c).hasReferences = true
  struct_flag : ∀ c f d, Stored toObjects c false f →
    toObjects.fieldCase b (classes c).inCorlib f = .struct d → (classes d).hasReferences = true →
    (classes c).hasReferences = true
  rva_static : ∀ c f, f ∈ (classes c).fields → f.hasFieldRva = true → f.isStatic = true
  area_lt : ∀ c staticFields, areaEnd toObjects c staticFields < 2 ^ 31

/-! ### The bitmap of a class -/

/-- What the collector relies on: the set bits of the returned bitmap are the words with references, no bit of another
buffer is set, and `*max_set` is the last such word. -/
structure Describes (b : Build) (o : Objects) (c : ClassId) (offset : Int) (staticFields : Bool) (bitmap : Nat)
    (s : BitmapState b.bitmapElSize) : Prop where
  bits : ∀ k : Nat, s.bit bitmap k = true ↔ RefersTo b o (Stored o) c staticFields offset k
  onlyHere : ∀ j k, s.bit j k = true → j = bitmap
  last : ∀ k : Nat, RefersTo b o (Stored o) c staticFields offset k → k ≤ s.maxSet
  isLast : RefersTo b o (Stored o) c staticFields offset s.maxSet ∨
    (s.maxSet = 0 ∧ ∀ word, ¬ RefersTo b o (Stored o) c staticFields offset word)

/-- The call of the functions that make descriptors: a buffer of `words` words on the stack, and all its bits as the
size. -/
def describe {b : Build} (u : LoadedClasses b) (words : Nat) (c : ClassId) (offset : Int) (staticFields : Bool) :
    Option (Nat × BitmapState b.bitmapElSize) :=
  computeClassBitmap b u.toObjects u.depth (u.depth + 1) c 0 (b.bitmapElSize * words) offset staticFields
    ⟨[zeros b.bitmapElSize words], 0⟩

/-- The call returns a bitmap that describes the class. -/
def IsDescribed {b : Build} (u : LoadedClasses b) (words : Nat) (c : ClassId) (offset : Int) (staticFields : Bool) :
    Prop :=
  ∃ bitmap s, describe u words c offset staticFields = some (bitmap, s) ∧
    Describes b u.toObjects c offset staticFields bitmap s

end MonoRuntime.ClassBitmap
