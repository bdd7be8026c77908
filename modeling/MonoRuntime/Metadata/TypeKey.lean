/-
Module: MonoRuntime.Metadata.TypeKey
Purpose: What the equality of types is about, apart from its code: the trees that it compares, and the states of
  the heap and the pairs of types for which it keeps its promises.
Trusted boundary: human-reviewed specification
Main exports: Key
-/
import MonoRuntime.Metadata.TypeEquality

namespace MonoRuntime.TypeEquality

/-! ### Keys -/

/-- What the mode compares of a generic parameter. -/
structure ParamKey where
  num : Nat
  scope : Option (Option ContainerRef × Option ImageRef)
deriving DecidableEq

/-- The tree of what the equality compares of a type, a class, a generic class, an instantiation or a
signature. -/
inductive Key where
  | simple (byref : Bool) (type : SimpleType)
  | named (code : BitVec 32) (byref : Bool) (klass : Key)
  | ptr (byref : Bool) (type : Key)
  | array (byref : Bool) (rank : Nat) (eklass : Key)
  | genericinst (byref : Bool) (generic : Key)
  | variable (isMvar : Bool) (byref : Bool) (param : ParamKey)
  | fnptr (byref : Bool) (signature : Key)
  | classPlain (c : ClassRef)
  | classGeneric (generic : Key)
  | classVariable (isMvar : Bool) (param : ParamKey)
  | classVector (element : Key)
  | generic (container : ClassRef) (inst : Key) (isTbOpen : Bool) (isDynamic : Option Bool)
  | inst (isOpen : Bool) (args : List Key)
  | signature (callConvention : Nat) (sentinelpos : Int) (hasthis explicitThis : Bool) (ret : Key)
      (params : List Key)

/-- The key of a generic parameter: without regard to its owner where only signatures are compared. -/
def paramKey (h : Objects) (signatureOnly : Bool) (p : GenericParamRef) : ParamKey :=
  { num := (h.param p).num
    scope :=
      if signatureOnly then none
      else some ((h.param p).owner, if (h.param p).owner = none then (h.param p).image else none) }

open Classical in
mutual

/-- The key of a type. -/
noncomputable def keyType (h : Objects) (signatureOnly : Bool) : Nat → MonoType → Key
  | 0, _ => .classPlain 0
  | n + 1, t =>
      match t with
      | .simple byref type => .simple byref type
      | .valuetype byref klass => .named t.code byref (keyClass h signatureOnly n klass)
      | .klass byref klass => .named t.code byref (keyClass h signatureOnly n klass)
      | .szarray byref klass => .named t.code byref (keyClass h signatureOnly n klass)
      | .ptr byref type => .ptr byref (keyType h signatureOnly n type)
      | .array byref eklass rank => .array byref rank (keyClass h signatureOnly n eklass)
      | .genericinst byref g => .genericinst byref (keyGeneric h signatureOnly n g)
      | .var byref param => .variable false byref (paramKey h signatureOnly param)
      | .mvar byref param => .variable true byref (paramKey h signatureOnly param)
      | .fnptr byref method => .fnptr byref (keySignature h signatureOnly n method)

/-- The key of a class: an instance of a generic type and its definition have keys of one form. -/
noncomputable def keyClass (h : Objects) (signatureOnly : Bool) : Nat → ClassRef → Key
  | 0, _ => .classPlain 0
  | n + 1, c =>
      match (h.klass c).kind with
      | .container _ classInst => .classGeneric (keyDefinition h signatureOnly n c classInst)
      | .inflated g => .classGeneric (keyInstance h signatureOnly n g)
      | .var param => .classVariable false (paramKey h signatureOnly param)
      | .mvar param => .classVariable true (paramKey h signatureOnly param)
      | .szarray e => if signatureOnly then .classVector (keyClass h signatureOnly n e) else .classPlain c
      | _ => .classPlain c

/-- The key of a generic class. -/
noncomputable def keyGeneric (h : Objects) (signatureOnly : Bool) : Nat → GenericClassRef → Key
  | 0, _ => .classPlain 0
  | n + 1, g =>
      .generic (h.genericClass g).containerClass
        (keyInst h signatureOnly n (h.genericClass g).context.classInst) (h.genericClass g).isTbOpen
        (some (h.genericClass g).isDynamic)

/-- The key of an instance as a class: one over the parameters of its generic type is compared with the
definition, which knows nothing of `is_dynamic`. -/
noncomputable def keyInstance (h : Objects) (signatureOnly : Bool) : Nat → GenericClassRef → Key
  | 0, _ => .classPlain 0
  | n + 1, g =>
      .generic (h.genericClass g).containerClass
        (keyInst h signatureOnly n (h.genericClass g).context.classInst) (h.genericClass g).isTbOpen
        (if (h.genericClass g).isTbOpen = false ∧
            ∃ i, h.genericContainerOf (h.genericClass g).containerClass = some i ∧
              keyInst h signatureOnly n (h.genericClass g).context.classInst = keyInst h signatureOnly n i
          then none else some (h.genericClass g).isDynamic)

/-- The key of the definition of a generic type: that of an instance over its own parameters. -/
noncomputable def keyDefinition (h : Objects) (signatureOnly : Bool) : Nat → ClassRef → GenericInstRef → Key
  | 0, _, _ => .classPlain 0
  | n + 1, c, classInst => .generic c (keyInst h signatureOnly n classInst) false none

/-- The key of an instantiation; the id has no part in it. -/
noncomputable def keyInst (h : Objects) (signatureOnly : Bool) : Nat → GenericInstRef → Key
  | 0, _ => .classPlain 0
  | n + 1, i => .inst (h.inst i).isOpen ((h.inst i).typeArgv.map fun t => keyType h signatureOnly n t)

/-- The key of a signature. -/
noncomputable def keySignature (h : Objects) (signatureOnly : Bool) : Nat → SignatureRef → Key
  | 0, _ => .classPlain 0
  | n + 1, s =>
      .signature (h.signature s).callConvention (h.signature s).sentinelpos (h.signature s).hasthis
        (h.signature s).explicitThis (keyType h signatureOnly n (h.signature s).ret)
        ((h.signature s).params.map fun t => keyType h signatureOnly n t)

end

/-- The key of a type. -/
noncomputable def typeKey (h : Heap) (signatureOnly : Bool) (t : MonoType) : Key :=
  keyType h.toObjects signatureOnly (h.rank.type t + 1) t

/-- The key of an instantiation. -/
noncomputable def instKey (h : Heap) (signatureOnly : Bool) (i : GenericInstRef) : Key :=
  keyInst h.toObjects signatureOnly (h.rank.inst i + 1) i

/-- The key of a generic class. -/
noncomputable def genericKey (h : Heap) (signatureOnly : Bool) (g : GenericClassRef) : Key :=
  keyGeneric h.toObjects signatureOnly (h.rank.genericClass g + 1) g

/-! ### Conditions on a heap -/

/-- The instantiations that have an id are the entries of the cache: there are no two for one key. -/
def Canonical (h : Heap) : Prop :=
  ∀ i j, (h.inst i).id ≠ 0 → (h.inst j).id ≠ 0 → instKey h false i = instKey h false j → i = j

/-- An instance over the parameters of its generic type, which is equal to the definition of the type. -/
def OverOwnParams (h : Heap) (signatureOnly : Bool) (g : GenericClassRef) : Prop :=
  (h.genericClass g).isTbOpen = false ∧
    ∃ i, h.genericContainerOf (h.genericClass g).containerClass = some i ∧
      instKey h signatureOnly (h.genericClass g).context.classInst = instKey h signatureOnly i

/-- The instances of one generic type over its own parameters are all dynamic or none is. -/
def DynamicDefinitions (h : Heap) (signatureOnly : Bool) : Prop :=
  ∀ c c' g g', (h.klass c).kind = .inflated g → (h.klass c').kind = .inflated g' →
    (h.genericClass g).containerClass = (h.genericClass g').containerClass →
      OverOwnParams h signatureOnly g → OverOwnParams h signatureOnly g' →
        (h.genericClass g).isDynamic = (h.genericClass g').isDynamic

/-! ### Hashes that clash -/

/-- The hashes of two types are made in the same way from those of two others. -/
inductive HashedWith (h : Objects) : MonoType → MonoType → MonoType → MonoType → Prop where
  | here (t1 t2 : MonoType) : HashedWith h t1 t2 t1 t2
  | ptr {byref1 byref2 : Bool} {t1 t2 u1 u2 : MonoType}
      (below : HashedWith h t1 t2 u1 u2) :
      HashedWith h (.ptr byref1 t1) (.ptr byref2 t2) u1 u2
  | array {byref1 byref2 : Bool} {eklass1 eklass2 : ClassRef} {rank1 rank2 : Nat} {u1 u2 : MonoType}
      (below : HashedWith h (h.byvalArg eklass1) (h.byvalArg eklass2) u1 u2) :
      HashedWith h (.array byref1 eklass1 rank1) (.array byref2 eklass2 rank2) u1 u2
  | genericinst {byref1 byref2 : Bool} {g1 g2 : GenericClassRef} {a1 a2 u1 u2 : MonoType} (place : Nat)
      (arg1 : (h.inst (h.genericClass g1).context.classInst).typeArgv[place]? = some a1)
      (arg2 : (h.inst (h.genericClass g2).context.classInst).typeArgv[place]? = some a2)
      (below : HashedWith h a1 a2 u1 u2) :
      HashedWith h (.genericinst byref1 g1) (.genericinst byref2 g2) u1 u2

/-- A class is that of a generic parameter or of vectors of such. -/
inductive EndsInVariable (h : Objects) : ClassRef → Prop where
  | var {c : ClassRef} {param : GenericParamRef} (isVar : (h.klass c).kind = .var param) : EndsInVariable h c
  | mvar {c : ClassRef} {param : GenericParamRef} (isMvar : (h.klass c).kind = .mvar param) : EndsInVariable h c
  | szarray {c e : ClassRef} (isVector : (h.klass c).kind = .szarray e) (element : EndsInVariable h e) :
      EndsInVariable h c

/-- The class whose name is hashed. -/
def MonoType.namedClass : MonoType → Option ClassRef
  | .valuetype _ c | .klass _ c | .szarray _ c => some c
  | _ => none

/-- The names of two generic parameters are hashed, and they differ. -/
def NamesClash (h : Objects) (t1 t2 : MonoType) : Prop :=
  ∃ k1 k2, t1.namedClass = some k1 ∧ t2.namedClass = some k2 ∧ EndsInVariable h k1 ∧
    gStrHash (h.klass k1).name ≠ gStrHash (h.klass k2).name

/-- One class is an instance of a generic type, the other the definition of one. -/
def InstanceAndDefinition (h : Objects) (c1 c2 : ClassRef) : Prop :=
  (h.genericClassOf c1 ≠ none ∧ h.genericContainerOf c2 ≠ none) ∨
    (h.genericContainerOf c1 ≠ none ∧ h.genericClassOf c2 ≠ none)

/-- An array of an instance of a generic type is hashed by the instance, one of the definition by its name. -/
def ElementsClash (h : Objects) (t1 t2 : MonoType) : Prop :=
  ∃ byref1 eklass1 rank1 byref2 eklass2 rank2, t1 = .array byref1 eklass1 rank1 ∧
    t2 = .array byref2 eklass2 rank2 ∧ InstanceAndDefinition h eklass1 eklass2

/-- Parts of two types that are hashed together clash. -/
def HashesClash (h : Objects) (t1 t2 : MonoType) : Prop :=
  ∃ u1 u2, HashedWith h t1 t2 u1 u2 ∧ (NamesClash h u1 u2 ∨ ElementsClash h u1 u2)

/-- Arguments at one place of two instantiations clash. -/
def ArgsClash (h : Objects) (i1 i2 : GenericInstRef) : Prop :=
  ∃ (place : Nat) (a1 a2 : MonoType), (h.inst i1).typeArgv[place]? = some a1 ∧ (h.inst i2).typeArgv[place]? = some a2 ∧
    HashesClash h a1 a2

end MonoRuntime.TypeEquality
