/-
Module: MonoRuntime.Metadata.FieldLayout
Purpose: The layout of the fields of a class in `metadata/class.c`: `mono_class_setup_fields` reads the sizes that are
  declared and the offsets of explicit layouts, `mono_class_layout_fields` places the fields. What depends on the type
  of a field, its size from `mono_type_size` and whether it holds references, is part of the field. A class that is
  marked as failed and a failed assertion are the result `none`.
Trusted boundary: human-reviewed translation of the source
Main exports: MonoClassField
-/
import MonoRuntime.Lib.Placement

namespace MonoRuntime.FieldLayout

/-! ### Words -/

/-- A value as a `guint32`; an `int` stands for the same word. -/
def wrap (n : Nat) : Nat :=
  n % 2 ^ 32

/-- The word `a - 1`. -/
def mask (a : Nat) : Nat :=
  wrap (a + (2 ^ 32 - 1))

/-- `x += align - 1; x &= ~(align - 1)`. -/
def roundUp (x align : Nat) : Nat :=
  let sum := wrap (x + mask align)
  sum - (sum &&& mask align)

/-! ### Classes -/

/-- The size of a pointer, and whether the runtime is built for x86-64. -/
structure Platform where
  pointerSize : Nat
  isX8664 : Bool
  isPointer : pointerSize = 4 ∨ pointerSize = 8

/-- `sizeof (MonoObject)`: the vtable and the synchronisation block. -/
def Platform.objectSize (p : Platform) : Nat :=
  2 * p.pointerSize

/-- The bits of `TYPE_ATTRIBUTE_LAYOUT_MASK`. -/
inductive Layout where
  | auto
  | sequential
  | explicit
deriving DecidableEq, Repr

/-- A field with what its type says: `size` and `align` from `mono_type_size`, and the tests of the underlying type.
`specialName` holds for either of the two attributes, and `metadataOffset` is the offset of its field layout. -/
structure MonoClassField where
  name : String
  isStatic : Bool
  isLiteral : Bool
  specialName : Bool
  size : Nat
  align : Nat
  isReference : Bool
  isGcReference : Bool
  structHasReferences : Bool
  typeHasExceptions : Bool
  metadataOffset : Nat
deriving DecidableEq, Repr

/-- `mono_field_is_deleted`. -/
def MonoClassField.isDeleted (f : MonoClassField) : Bool :=
  f.specialName && f.name == "_Deleted"

/-- `MONO_TYPE_IS_REFERENCE (ftype) || IS_GC_REFERENCE (ftype) || ...` -/
def MonoClassField.holdsReferences (f : MonoClassField) : Bool :=
  f.isReference || f.isGcReference || f.structHasReferences

/-- The class before its fields are laid out; `declared` holds the packing size and the size of its row in the table
of class layouts. -/
structure MonoClass where
  name : String
  inCorlib : Bool
  isDynamic : Bool
  valuetype : Bool
  layout : Layout
  declared : Option (Nat × Nat)
  fields : List MonoClassField
deriving DecidableEq, Repr

/-- `class->packing_size`. -/
def MonoClass.packingSize (c : MonoClass) : Nat :=
  match c.declared with
  | some (packing, _) => packing
  | none => 0

/-- What the layout computes; `offset i` is the offset of the field `i`. -/
structure ClassLayout where
  instanceSize : Nat
  minAlign : Nat
  classSize : Nat
  offset : Nat → Nat

/-! ### Instance fields -/

section Instance

variable (p : Platform) (c : MonoClass)

/-- `gc_aware_layout`. -/
def gcAwareLayout : Bool :=
  c.layout == .auto && (!c.inCorlib && !c.valuetype) && c.name != "ProcessStartInfo"

/-- The field that the compiler puts into empty structures. -/
def isFiller (instanceSize : Nat) (f : MonoClassField) : Bool :=
  c.fields.length == 1 && instanceSize == p.objectSize && f.name == "$PRIVATE$"

/-- The fields that a pass continues with. -/
def skipped (pass instanceSize : Nat) (f : MonoClassField) : Bool :=
  f.isDeleted || f.isStatic || (gcAwareLayout c && (if f.holdsReferences then pass == 1 else pass == 0)) ||
    isFiller p c instanceSize f

/-- The alignment that a field gets. -/
def fieldAlign (f : MonoClassField) : Nat :=
  let align := if c.packingSize ≠ 0 then min c.packingSize f.align else f.align
  if f.holdsReferences then max align p.pointerSize else align

/-- What a pass changes at each field. -/
structure PassState where
  realSize : Nat
  minAlign : Nat
  offset : Nat → Nat

/-- The larger alignment, as a `guint8`. -/
def raiseAlign (align minAlign : Nat) : Nat :=
  max align minAlign % 2 ^ 8

/-- Place the field `i`. -/
def placeField (i : Nat) (f : MonoClassField) (s : PassState) : Option PassState :=
  let align := fieldAlign p c f
  let offset := if align = 0 then s.realSize else roundUp s.realSize align
  if c.isDynamic ∨ (0 < offset ∧ offset < 2 ^ 31) then
    some ⟨wrap (offset + f.size), raiseAlign align s.minAlign, Function.update s.offset i offset⟩
  else none

/-- The fields from `i` on. -/
def passLoop (pass instanceSize : Nat) : Nat → List MonoClassField → PassState → Option PassState
  | _, [], s => some s
  | i, f :: fields, s =>
      if skipped p c pass instanceSize f then passLoop pass instanceSize (i + 1) fields s
      else
        match placeField p c i f s with
        | none => none
        | some s' => passLoop pass instanceSize (i + 1) fields s'

/-- The size of the instances after a pass. -/
def passSize (instanceSize : Nat) (s : PassState) : Nat :=
  let size := max s.realSize instanceSize
  if size &&& mask s.minAlign ≠ 0 then roundUp size s.minAlign else size

/-- A pass over all fields: the size of the instances and the state after it. -/
def runPass (pass : Nat) (instanceSize : Nat) (s : PassState) : Option (Nat × PassState) :=
  match passLoop p c pass instanceSize 0 c.fields s with
  | none => none
  | some s' => some (passSize instanceSize s', s')

/-- All passes: the one of the fields with references first when there are two. -/
def runPasses (instanceSize : Nat) (s : PassState) : Option (Nat × PassState) :=
  match runPass p c 0 instanceSize s with
  | none => none
  | some (size, s') => if gcAwareLayout c then runPass p c 1 size s' else some (size, s')

/-- The fields of an explicit layout from `i` on; a reference that is not aligned makes the class fail. -/
def explicitLoop : Nat → List MonoClassField → PassState → Option PassState
  | _, [], s => some s
  | i, f :: fields, s =>
      if f.isDeleted || f.isStatic then explicitLoop (i + 1) fields s
      else
        let offset := wrap (s.offset i + p.objectSize)
        if (f.isReference || f.structHasReferences) && offset % p.pointerSize != 0 then none
        else
          explicitLoop (i + 1) fields
            ⟨max s.realSize (wrap (f.size + offset)), raiseAlign f.align s.minAlign,
              Function.update s.offset i offset⟩

end Instance

/-! ### Static fields -/

/-- The static fields from `i` on: the size of the area for them, and the offsets. -/
def staticLoop : Nat → List MonoClassField → Nat → (Nat → Nat) → Option (Nat × (Nat → Nat))
  | _, [], classSize, offset => some (classSize, offset)
  | i, f :: fields, classSize, offset =>
      if !f.isStatic || f.isLiteral || f.isDeleted then staticLoop (i + 1) fields classSize offset
      else if f.typeHasExceptions then none
      else
        let place := roundUp classSize f.align
        staticLoop (i + 1) fields (wrap (place + f.size)) (Function.update offset i place)

/-! ### The class -/

section Class

variable (p : Platform)

/-- `min_align` of small classes, which is left as it is on x86-64 and for explicit layouts. -/
def smallMinAlign (c : MonoClass) (instanceSize minAlign : Nat) : Nat :=
  if p.isX8664 ∨ c.layout = .explicit then minAlign
  else if instanceSize ≤ p.objectSize + p.pointerSize then raiseAlign (instanceSize - p.objectSize) minAlign
  else minAlign

/-- The size of the instances and the state after the instance fields; `base` is where the fields of the parent
end. -/
def layoutInstance (c : MonoClass) (base : Nat) (start : ClassLayout) : Option (Nat × PassState) :=
  match c.layout with
  | .explicit =>
      match explicitLoop p 0 c.fields ⟨0, start.minAlign, start.offset⟩ with
      | none => none
      | some s => some (max s.realSize start.instanceSize, s)
  | _ => runPasses p c start.instanceSize ⟨base, start.minAlign, start.offset⟩

/-- `mono_class_layout_fields`. -/
def monoClassLayoutFields (c : MonoClass) (base : Nat) (start : ClassLayout) : Option ClassLayout :=
  match layoutInstance p c base start with
  | none => none
  | some (instanceSize, s) =>
      match staticLoop 0 c.fields start.classSize s.offset with
      | none => none
      | some (classSize, offset) =>
          some ⟨instanceSize, smallMinAlign p c instanceSize s.minAlign, classSize, offset⟩

/-- The size of the instances of the parent, or of an object. -/
def baseSize (parent : Option ClassLayout) : Nat :=
  match parent with
  | some q => q.instanceSize
  | none => p.objectSize

def baseAlign (parent : Option ClassLayout) : Nat :=
  match parent with
  | some q => q.minAlign
  | none => 1

/-- The size of the instances before the fields are placed: at least the declared one. -/
def startSize (parent : Option ClassLayout) (c : MonoClass) : Nat :=
  match c.declared with
  | some (_, size) => max (wrap (size + baseSize p parent)) (baseSize p parent)
  | none => baseSize p parent

/-- The offsets before the fields are placed. An instance of a generic class copies the ones of its definition. -/
def startOffset (gtd : Option ClassLayout) (c : MonoClass) (i : Nat) : Nat :=
  match c.fields[i]? with
  | none => 0
  | some f =>
      if f.isDeleted then 0
      else
        match gtd with
        | some g => g.offset i
        | none => if c.layout = .explicit then f.metadataOffset else 0

/-- The checks of a field that is read: its type, and its offset in an explicit layout, where -1 marks special static
fields. -/
def fieldOk (gtd : Option ClassLayout) (c : MonoClass) (f : MonoClassField) : Bool :=
  f.isDeleted ||
    (!f.typeHasExceptions &&
      (gtd.isSome || c.layout != .explicit ||
        (if f.metadataOffset = 2 ^ 32 - 1 then f.isStatic else f.metadataOffset < 2 ^ 31)))

/-- `mono_class_setup_fields`, for a class with the layouts of its parent and of its generic definition. -/
def monoClassSetupFields (parent gtd : Option ClassLayout) (c : MonoClass) : Option ClassLayout :=
  let start : ClassLayout := ⟨startSize p parent c, baseAlign parent, 0, startOffset gtd c⟩
  if 16 ≤ c.packingSize then none
  else if c.fields = [] then some start
  else if c.fields.all (fieldOk gtd c) then monoClassLayoutFields p c (baseSize p parent) start
  else none

end Class

/-! ### Placed fields -/

section Spec

open Placement

variable (p : Platform)

/-- A field by its index. -/
def sizeAt (c : MonoClass) (i : Nat) : Nat :=
  match c.fields[i]? with
  | some f => f.size
  | none => 0

/-- The alignment of an instance field: at most the packing size, at least a pointer where there are references. -/
def alignAt (c : MonoClass) (i : Nat) : Nat :=
  match c.fields[i]? with
  | some f => fieldAlign p c f
  | none => 1

def staticAlignAt (c : MonoClass) (i : Nat) : Nat :=
  match c.fields[i]? with
  | some f => f.align
  | none => 1

/-- The instance fields, apart from the filler of an empty structure. -/
def IsPlaced (parent : Option ClassLayout) (c : MonoClass) (i : Nat) : Prop :=
  ∃ f, c.fields[i]? = some f ∧ f.isDeleted = false ∧ f.isStatic = false ∧
    isFiller p c (startSize p parent c) f = false

/-- The static fields that have storage. -/
def IsStaticPlaced (c : MonoClass) (i : Nat) : Prop :=
  ∃ f, c.fields[i]? = some f ∧ f.isStatic = true ∧ f.isLiteral = false ∧ f.isDeleted = false

/-- Auto and sequential layouts: the instance fields lie apart behind those of the parent. -/
structure AutoPlaced (parent : Option ClassLayout) (c : MonoClass) (l : ClassLayout) : Prop where
  fields : Placed (baseSize p parent) l.instanceSize (sizeAt c) (alignAt p c) l.offset (IsPlaced p parent c)
  rounded : IsAlign l.minAlign → l.minAlign ∣ l.instanceSize

/-- Explicit layouts: the offsets are those of the metadata, behind the header. -/
def ExplicitPlaced (c : MonoClass) (l : ClassLayout) : Prop :=
  ∀ i f, c.fields[i]? = some f → f.isDeleted = false → f.isStatic = false →
    l.offset i = f.metadataOffset + p.objectSize ∧ l.offset i + f.size ≤ l.instanceSize

/-- The static fields lie apart in their area. -/
def StaticPlaced (c : MonoClass) (l : ClassLayout) : Prop :=
  Placed 0 l.classSize (sizeAt c) (staticAlignAt c) l.offset (IsStaticPlaced c)

/-- What the layout says about a class. -/
structure LayoutOk (parent gtd : Option ClassLayout) (c : MonoClass) (l : ClassLayout) : Prop where
  auto : c.layout ≠ .explicit → c.fields ≠ [] → AutoPlaced p parent c l
  explicit_ : c.layout = .explicit → gtd = none → ExplicitPlaced p c l
  static : StaticPlaced c l
  isAlign : p.isX8664 → IsAlign l.minAlign

/-- The room that the fields need at most. -/
def room : List MonoClassField → Nat
  | [] => 0
  | f :: fields => f.size + f.align + p.pointerSize + room fields

/-- What the metadata and `mono_type_size` promise: alignments are powers of two that a `guint8` holds, and so is the
packing size, where 0 means none. The sizes are below `2 ^ 31`. -/
structure WellFormed (parent : Option ClassLayout) (c : MonoClass) : Prop where
  align : ∀ f ∈ c.fields, IsAlign f.align ∧ f.align ≤ 128
  packing : c.packingSize = 0 ∨ IsAlign c.packingSize
  sizes : startSize p parent c + room p c.fields + 256 < 2 ^ 31
  declared : ∀ packing size, c.declared = some (packing, size) → size + baseSize p parent < 2 ^ 31
  offsets : c.layout = .explicit → ∀ f ∈ c.fields, f.metadataOffset + p.objectSize + f.size < 2 ^ 31

/-- The layouts of the classes of a hierarchy, and of the missing parent of its root. -/
inductive Laid : Option ClassLayout → Prop where
  | root : Laid none
  | derived {parent gtd : Option ClassLayout} {c : MonoClass} {l : ClassLayout}
      (above : Laid parent)
      (wellFormed : WellFormed p parent c)
      (setup : monoClassSetupFields p parent gtd c = some l) :
      Laid (some l)

end Spec

end MonoRuntime.FieldLayout
