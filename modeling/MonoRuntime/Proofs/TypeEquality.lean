/-
Module: MonoRuntime.Proofs.TypeEquality
Purpose: The equality of types is the equality of keys, in both modes, and so an equivalence relation.
Trusted boundary: none
Main exports: typeEqual_iff
-/
import MonoRuntime.Metadata.TypeKey

namespace MonoRuntime.TypeEquality

open List

/-! ### More fuel leaves a key as it is -/

variable {h : Heap} {i : GenericInstRef} {signatureOnly : Bool} {n : Nat}

theorem below_of_kind {c : ClassRef} {kind : ClassKind} (isKind : (h.klass c).kind = kind) :
    h.rank.BelowClass (h.rank.klass c) kind :=
  isKind ▸ h.class_below c

theorem kind_of_container {c : ClassRef} (isContainer : h.genericContainerOf c = some i) :
    ∃ valuetype, (h.klass c).kind = .container valuetype i := by
  unfold Objects.genericContainerOf at isContainer
  split at isContainer
  · next valuetype classInst isKind =>
      cases isContainer
      exact ⟨valuetype, isKind⟩
  · cases isContainer

/-- The parameters of the generic type of a generic class have a smaller rank. -/
theorem own_below {g : GenericClassRef} (isContainer : h.genericContainerOf (h.genericClass g).containerClass = some i) :
    h.rank.inst i < h.rank.genericClass g := by
  obtain ⟨valuetype, isKind⟩ := kind_of_container isContainer
  have own : h.rank.inst i + 1 < h.rank.klass (h.genericClass g).containerClass := below_of_kind isKind
  have container := h.container_below g
  omega

/-- One unit of fuel more than enough leaves the keys as they are. -/
structure KeyStable (h : Heap) (signatureOnly : Bool) (n : Nat) : Prop where
  types : ∀ t, h.rank.type t < n →
    keyType h.toObjects signatureOnly (n + 1) t = keyType h.toObjects signatureOnly n t
  classes : ∀ c, h.rank.klass c < n →
    keyClass h.toObjects signatureOnly (n + 1) c = keyClass h.toObjects signatureOnly n c
  generics : ∀ g, h.rank.genericClass g < n →
    keyGeneric h.toObjects signatureOnly (n + 1) g = keyGeneric h.toObjects signatureOnly n g
  instances : ∀ g, h.rank.genericClass g < n →
    keyInstance h.toObjects signatureOnly (n + 1) g = keyInstance h.toObjects signatureOnly n g
  definitions : ∀ c i, h.rank.inst i + 1 < n →
    keyDefinition h.toObjects signatureOnly (n + 1) c i = keyDefinition h.toObjects signatureOnly n c i
  insts : ∀ i, h.rank.inst i < n →
    keyInst h.toObjects signatureOnly (n + 1) i = keyInst h.toObjects signatureOnly n i
  signatures : ∀ s, h.rank.signature s < n →
    keySignature h.toObjects signatureOnly (n + 1) s = keySignature h.toObjects signatureOnly n s

open Classical in
theorem keyStable (h : Heap) (signatureOnly : Bool) (n : Nat) : KeyStable h signatureOnly n := by
  induction n with
  | zero =>
    constructor
    all_goals
      intros
      omega
  | succ n ih =>
    constructor
    case types =>
      intro t enough
      cases t <;> simp only [Ranks.type] at enough <;> simp only [keyType]
      case valuetype byref c | klass byref c | szarray byref c | array byref c rank => rw [ih.classes c (by omega)]
      case ptr byref t => rw [ih.types t (by omega)]
      case genericinst byref g => rw [ih.generics g (by omega)]
      case fnptr byref s => rw [ih.signatures s (by omega)]
    case classes =>
      intro c enough
      have below := h.class_below c
      rw [keyClass, keyClass]
      cases kind : (h.klass c).kind <;> rw [kind] at below <;> simp only [Ranks.BelowClass] at below <;>
        simp only
      case container valuetype i => rw [ih.definitions c i (by omega)]
      case inflated g => rw [ih.instances g (by omega)]
      case szarray e => rw [ih.classes e (by omega)]
    case generics =>
      intro g enough
      have inst := h.inst_below g
      simp only [keyGeneric]
      rw [ih.insts (h.genericClass g).context.classInst (by omega)]
    case instances =>
      intro g enough
      have inst := h.inst_below g
      have own : ∀ i, h.genericContainerOf (h.genericClass g).containerClass = some i →
          keyInst h.toObjects signatureOnly (n + 1) i = keyInst h.toObjects signatureOnly n i := by
        intro i isContainer
        have less := own_below isContainer
        exact ih.insts i (by omega)
      simp only [keyInstance]
      rw [ih.insts (h.genericClass g).context.classInst (by omega)]
      congr 1
      apply if_congr _ rfl rfl
      apply and_congr_right
      intro closed
      apply exists_congr
      intro i
      apply and_congr_right
      intro isContainer
      rw [own i isContainer]
    case definitions =>
      intro c i enough
      simp only [keyDefinition]
      rw [ih.insts i (by omega)]
    case insts =>
      intro i enough
      simp only [keyInst]
      congr 1
      apply map_congr_left
      intro t inArgs
      have less := h.arg_below i t inArgs
      exact ih.types t (by omega)
    case signatures =>
      intro s enough
      have ret := h.ret_below s
      simp only [keySignature]
      rw [ih.types (h.signature s).ret (by omega)]
      congr 1
      apply map_congr_left
      intro t inParams
      have less := h.param_below s t inParams
      exact ih.types t (by omega)

theorem keyType_eq {t : MonoType} (enough : h.rank.type t < n) :
    keyType h.toObjects signatureOnly n t = typeKey h signatureOnly t := by
  induction n, enough using Nat.le_induction with
  | base => rfl
  | succ n enough ih => rw [(keyStable h signatureOnly n).types t enough, ih]

theorem keyInst_eq (enough : h.rank.inst i < n) : keyInst h.toObjects signatureOnly n i = instKey h signatureOnly i := by
  induction n, enough using Nat.le_induction with
  | base => rfl
  | succ n enough ih => rw [(keyStable h signatureOnly n).insts i enough, ih]

/-! ### Equality is the equality of keys -/

theorem paramEqual_iff (h : Objects) (signatureOnly : Bool) (p1 p2 : GenericParamRef) :
    monoMetadataGenericParamEqual h signatureOnly p1 p2 = true ↔
      paramKey h signatureOnly p1 = paramKey h signatureOnly p2 := by
  unfold monoMetadataGenericParamEqual paramKey
  simp only [ParamKey.mk.injEq]
  by_cases same : p1 = p2
  · rw [if_pos same, same]
    simp only [and_self]
  · rw [if_neg same]
    by_cases num : (h.param p1).num = (h.param p2).num
    · rw [if_neg (not_not.2 num)]
      cases signatureOnly with
      | true => simp [num]
      | false =>
        simp only [num, Bool.false_eq_true, if_false, true_and, Option.some.injEq, Prod.mk.injEq]
        by_cases owner : (h.param p1).owner = (h.param p2).owner
        · rw [owner]
          cases (h.param p2).owner <;> simp
        · simp [owner]
    · rw [if_pos num]
      simp [num]

theorem allEqual_iff (equal : MonoType → MonoType → Bool) (key : MonoType → Key) :
    ∀ as bs : List MonoType, (∀ a ∈ as, ∀ b ∈ bs, equal a b = true ↔ key a = key b) →
      (allEqual equal as bs = true ↔ as.map key = bs.map key)
  | [], [], _ | [], _ :: _, _ | _ :: _, [], _ => by simp [allEqual]
  | a :: as, b :: bs, agree => by
      have first := agree a mem_cons_self b mem_cons_self
      have rest := allEqual_iff equal key as bs fun a' inAs b' inBs =>
        agree a' (mem_cons_of_mem a inAs) b' (mem_cons_of_mem b inBs)
      rw [allEqual, map_cons, map_cons, List.cons.injEq, ← first, ← rest]
      cases equal a b <;> simp

/-- The simple types in the order of their codes. -/
def simpleTypes : List SimpleType :=
  [.void, .boolean, .char, .i1, .u1, .i2, .u2, .i4, .u4, .i8, .u8, .r4, .r8, .string, .typedbyref, .i, .u, .object]

theorem simpleCode_inj {a b : SimpleType} (same : a.code = b.code) : a = b := by
  have decode : ∀ t : SimpleType, simpleTypes.find? (fun other => other.code = t.code) = some t := by
    intro t
    cases t <;> rfl
  have first := decode a
  rw [same, decode b] at first
  exact (Option.some.inj first).symm

/-- With enough fuel the comparisons are those of the keys. -/
structure EqualSpec (h : Heap) (signatureOnly : Bool) (k : Nat) : Prop where
  types : ∀ t1 t2 n, h.rank.type t1 + h.rank.type t2 < k → h.rank.type t1 < n → h.rank.type t2 < n →
    (doTypeEqual h.toObjects signatureOnly k t1 t2 = true ↔
      keyType h.toObjects signatureOnly n t1 = keyType h.toObjects signatureOnly n t2)
  classes : ∀ c1 c2 n, h.rank.klass c1 + h.rank.klass c2 < k → h.rank.klass c1 < n → h.rank.klass c2 < n →
    (monoMetadataClassEqual h.toObjects signatureOnly k c1 c2 = true ↔
      keyClass h.toObjects signatureOnly n c1 = keyClass h.toObjects signatureOnly n c2)
  generics : ∀ g1 g2 n, h.rank.genericClass g1 + h.rank.genericClass g2 < k →
    h.rank.genericClass g1 < n → h.rank.genericClass g2 < n →
      (monoMetadataGenericClassEqual h.toObjects signatureOnly k g1 g2 = true ↔
        keyGeneric h.toObjects signatureOnly n g1 = keyGeneric h.toObjects signatureOnly n g2)
  instances : ∀ c1 c2 g1 g2 n, (h.klass c1).kind = .inflated g1 → (h.klass c2).kind = .inflated g2 →
    h.rank.genericClass g1 + h.rank.genericClass g2 < k → h.rank.genericClass g1 < n → h.rank.genericClass g2 < n →
      (monoMetadataGenericClassEqual h.toObjects signatureOnly k g1 g2 = true ↔
        keyInstance h.toObjects signatureOnly n g1 = keyInstance h.toObjects signatureOnly n g2)
  definitions : ∀ g1 c2 i2 n, h.rank.genericClass g1 + h.rank.klass c2 < k →
    h.genericContainerOf c2 = some i2 → h.rank.genericClass g1 < n → h.rank.klass c2 < n + 1 →
      (monoMetadataGenericClassContainerEqual h.toObjects signatureOnly k g1 c2 i2 = true ↔
        keyInstance h.toObjects signatureOnly n g1 = keyDefinition h.toObjects signatureOnly n c2 i2)
  insts : ∀ i1 i2 n, h.rank.inst i1 + h.rank.inst i2 < k → h.rank.inst i1 < n → h.rank.inst i2 < n →
    (monoGenericInstEqualFull h.toObjects signatureOnly k i1 i2 = true ↔
      keyInst h.toObjects signatureOnly n i1 = keyInst h.toObjects signatureOnly n i2)
  signatures : ∀ s1 s2 n, h.rank.signature s1 + h.rank.signature s2 < k →
    h.rank.signature s1 < n → h.rank.signature s2 < n →
      (monoMetadataFnptrEqual h.toObjects signatureOnly k s1 s2 = true ↔
        keySignature h.toObjects signatureOnly n s1 = keySignature h.toObjects signatureOnly n s2)

section Step

variable {h : Heap} {signatureOnly : Bool} {k : Nat}

theorem types_step (ih : EqualSpec h signatureOnly k) (t1 t2 : MonoType) (n : Nat)
    (fuel : h.rank.type t1 + h.rank.type t2 < k + 1) (enough1 : h.rank.type t1 < n + 1)
    (enough2 : h.rank.type t2 < n + 1) : doTypeEqual h.toObjects signatureOnly (k + 1) t1 t2 = true ↔
      keyType h.toObjects signatureOnly (n + 1) t1 = keyType h.toObjects signatureOnly (n + 1) t2 := by
  cases t1 <;> cases t2 <;> simp only [Ranks.type] at fuel enough1 enough2
  case simple.simple byref1 type1 byref2 type2 =>
    have parts : type1.code = type2.code ↔ type1 = type2 := ⟨simpleCode_inj, congrArg SimpleType.code⟩
    simp only [doTypeEqual, keyType, Key.simple.injEq, MonoType.code, MonoType.byref, ← parts]
    by_cases same : byref1 = byref2 <;> by_cases codes : type1.code = type2.code <;> simp [same, codes]
  case valuetype.valuetype byref1 klass1 byref2 klass2 | klass.klass byref1 klass1 byref2 klass2 |
      szarray.szarray byref1 klass1 byref2 klass2 =>
    have parts := ih.classes klass1 klass2 n (by omega) (by omega) (by omega)
    simp only [doTypeEqual, keyType, Key.named.injEq, MonoType.code, MonoType.byref, ← parts]
    by_cases same : byref1 = byref2 <;> simp [same]
  case ptr.ptr byref1 type1 byref2 type2 =>
    have parts := ih.types type1 type2 n (by omega) (by omega) (by omega)
    simp only [doTypeEqual, keyType, Key.ptr.injEq, MonoType.code, MonoType.byref, ← parts]
    by_cases same : byref1 = byref2 <;> simp [same]
  case array.array byref1 eklass1 rank1 byref2 eklass2 rank2 =>
    have parts := ih.classes eklass1 eklass2 n (by omega) (by omega) (by omega)
    simp only [doTypeEqual, keyType, Key.array.injEq, MonoType.code, MonoType.byref, ← parts]
    by_cases same : byref1 = byref2 <;> by_cases ranks : rank1 = rank2 <;> simp [same, ranks]
  case genericinst.genericinst byref1 g1 byref2 g2 =>
    have parts := ih.generics g1 g2 n (by omega) (by omega) (by omega)
    simp only [doTypeEqual, keyType, Key.genericinst.injEq, MonoType.code, MonoType.byref, ← parts]
    by_cases same : byref1 = byref2 <;> simp [same]
  case var.var byref1 param1 byref2 param2 | mvar.mvar byref1 param1 byref2 param2 =>
    have parts := paramEqual_iff h.toObjects signatureOnly param1 param2
    simp only [doTypeEqual, keyType, Key.variable.injEq, MonoType.code, MonoType.byref, ← parts]
    by_cases same : byref1 = byref2 <;> simp [same]
  case fnptr.fnptr byref1 method1 byref2 method2 =>
    have parts := ih.signatures method1 method2 n (by omega) (by omega) (by omega)
    simp only [doTypeEqual, keyType, Key.fnptr.injEq, MonoType.code, MonoType.byref, ← parts]
    by_cases same : byref1 = byref2 <;> simp [same]
  -- Types of different constructors have different keys.
  all_goals
    apply iff_of_false
    · simp only [doTypeEqual, ite_self, Bool.false_eq_true, not_false_eq_true]
    · simp [keyType, MonoType.code]

theorem classes_step (ih : EqualSpec h signatureOnly k) (c1 c2 : ClassRef) (n : Nat)
    (fuel : h.rank.klass c1 + h.rank.klass c2 < k + 1) (enough1 : h.rank.klass c1 < n + 1)
    (enough2 : h.rank.klass c2 < n + 1) : monoMetadataClassEqual h.toObjects signatureOnly (k + 1) c1 c2 = true ↔
      keyClass h.toObjects signatureOnly (n + 1) c1 = keyClass h.toObjects signatureOnly (n + 1) c2 := by
  by_cases same : c1 = c2
  · simp [monoMetadataClassEqual, same]
  have below1 := h.class_below c1
  have below2 := h.class_below c2
  simp only [monoMetadataClassEqual, if_neg same]
  have definitions : ∀ i1 i2, h.rank.inst i1 + 1 < h.rank.klass c1 →
      keyDefinition h.toObjects signatureOnly n c1 i1 ≠ keyDefinition h.toObjects signatureOnly n c2 i2 := by
    intro i1 i2 less
    obtain ⟨m, rfl⟩ : ∃ m, n = m + 1 := ⟨n - 1, by omega⟩
    simp [keyDefinition, same]
  rcases kind1 : (h.klass c1).kind with _ | (_ | _) | ⟨(_ | _), i1⟩ | g1 | p1 | p1 | e1 | _ | _ | _ <;>
  rcases kind2 : (h.klass c2).kind with _ | (_ | _) | ⟨(_ | _), i2⟩ | g2 | p2 | p2 | e2 | _ | _ | _ <;>
  rw [kind1] at below1 <;> rw [kind2] at below2 <;>
  simp only [Ranks.BelowClass] at below1 below2 <;>
  simp only [Objects.genericClassOf, Objects.genericContainerOf, Objects.byvalArg, kind1, kind2, keyClass,
    Key.classPlain.injEq, Key.classGeneric.injEq, Key.classVariable.injEq, reduceCtorEq, same,
    Bool.false_eq_true, true_and]
  all_goals first
    -- Two instances, an instance and a definition, two definitions.
    | exact ih.instances c1 c2 g1 g2 n kind1 kind2 (by omega) (by omega) (by omega)
    | exact ih.definitions g1 c2 i2 n (by omega) (by simp only [Objects.genericContainerOf, kind2])
        (by omega) (by omega)
    | exact (ih.definitions g2 c1 i1 n (by omega) (by simp only [Objects.genericContainerOf, kind1])
        (by omega) (by omega)).trans eq_comm
    | exact iff_of_false id (definitions i1 i2 (by omega))
    -- Two parameters.
    | exact paramEqual_iff h.toObjects signatureOnly p1 p2
    -- Two vectors, which are compared by their elements in one of the modes.
    | (have elements := ih.classes e1 e2 n (by omega) (by omega) (by omega)
       cases signatureOnly <;> simp [same, elements])
    -- Classes of different kinds.
    | (cases signatureOnly <;> simp [same])

theorem containerEqual_iff (signatureOnly : Bool) (k : Nat) {c1 c2 : ClassRef} {valuetype1 valuetype2 : Bool} {i1 i2 : GenericInstRef}
    (isContainer1 : (h.klass c1).kind = .container valuetype1 i1)
    (isContainer2 : (h.klass c2).kind = .container valuetype2 i2) (fuel : 0 < k) :
    monoMetadataClassEqual h.toObjects signatureOnly k c1 c2 = true ↔ c1 = c2 := by
  obtain ⟨k, rfl⟩ : ∃ k', k = k' + 1 := ⟨k - 1, by omega⟩
  simp only [monoMetadataClassEqual, Objects.genericClassOf, Objects.genericContainerOf, Objects.byvalArg,
    isContainer1, isContainer2]
  by_cases same : c1 = c2
  · simp [same]
  · cases valuetype1 <;> cases valuetype2 <;> simp [same]

theorem generics_step (ih : EqualSpec h signatureOnly k) (g1 g2 : GenericClassRef) (n : Nat)
    (fuel : h.rank.genericClass g1 + h.rank.genericClass g2 < k + 1) (enough1 : h.rank.genericClass g1 < n + 1)
    (enough2 : h.rank.genericClass g2 < n + 1) :
    monoMetadataGenericClassEqual h.toObjects signatureOnly (k + 1) g1 g2 = true ↔
      keyGeneric h.toObjects signatureOnly (n + 1) g1 = keyGeneric h.toObjects signatureOnly (n + 1) g2 := by
  obtain ⟨_, _, isContainer1⟩ := h.isContainer g1
  obtain ⟨_, _, isContainer2⟩ := h.isContainer g2
  have inst1 := h.inst_below g1
  have inst2 := h.inst_below g2
  have containers := containerEqual_iff signatureOnly k isContainer1 isContainer2
    (by omega)
  have insts := ih.insts (h.genericClass g1).context.classInst (h.genericClass g2).context.classInst n
    (by omega) (by omega) (by omega)
  simp only [monoMetadataGenericClassEqual, keyGeneric, Key.generic.injEq, Option.some.injEq, ← containers,
    ← insts]
  grind

/-- Two instances as classes: those over the parameters of their generic type are both dynamic or both not. -/
theorem instances_step (dynamic : DynamicDefinitions h signatureOnly) (ih : EqualSpec h signatureOnly k)
    (c1 c2 : ClassRef) (g1 g2 : GenericClassRef) (n : Nat) (kind1 : (h.klass c1).kind = .inflated g1)
    (kind2 : (h.klass c2).kind = .inflated g2) (fuel : h.rank.genericClass g1 + h.rank.genericClass g2 < k + 1)
    (enough1 : h.rank.genericClass g1 < n + 1) (enough2 : h.rank.genericClass g2 < n + 1) :
    monoMetadataGenericClassEqual h.toObjects signatureOnly (k + 1) g1 g2 = true ↔
      keyInstance h.toObjects signatureOnly (n + 1) g1 = keyInstance h.toObjects signatureOnly (n + 1) g2 := by
  rw [generics_step ih g1 g2 n fuel enough1 enough2]
  have inst1 := h.inst_below g1
  have inst2 := h.inst_below g2
  simp only [keyGeneric, keyInstance, Key.generic.injEq, Option.some.injEq]
  constructor
  · rintro ⟨containers, insts, tbOpens, dynamics⟩
    rw [containers, insts, tbOpens, dynamics]
    exact ⟨rfl, rfl, rfl, rfl⟩
  · rintro ⟨containers, insts, tbOpens, flags⟩
    refine ⟨containers, insts, tbOpens, ?_⟩
    rw [containers, insts, tbOpens] at flags
    split at flags
    · next own =>
        obtain ⟨closed, i, isContainer, sameInst⟩ := own
        have less := own_below isContainer
        rw [keyInst_eq (by omega), keyInst_eq (by omega)] at sameInst insts
        apply dynamic c1 c2 g1 g2 kind1 kind2 containers
        · exact ⟨tbOpens.trans closed, i, containers ▸ isContainer, insts.trans sameInst⟩
        · exact ⟨closed, i, isContainer, sameInst⟩
    · exact Option.some.inj flags

theorem definitions_step (ih : EqualSpec h signatureOnly k)
    (g1 : GenericClassRef) (c2 : ClassRef) (i2 : GenericInstRef) (n : Nat)
    (fuel : h.rank.genericClass g1 + h.rank.klass c2 < k + 1) (isContainer : h.genericContainerOf c2 = some i2)
    (enough1 : h.rank.genericClass g1 < n + 1) (enough2 : h.rank.klass c2 < n + 2) :
    monoMetadataGenericClassContainerEqual h.toObjects signatureOnly (k + 1) g1 c2 i2 = true ↔
      keyInstance h.toObjects signatureOnly (n + 1) g1 = keyDefinition h.toObjects signatureOnly (n + 1) c2 i2 := by
  obtain ⟨_, _, isContainer1⟩ := h.isContainer g1
  obtain ⟨_, isContainer2⟩ := kind_of_container isContainer
  have inst1 := h.inst_below g1
  have inst2 : h.rank.inst i2 + 1 < h.rank.klass c2 := below_of_kind isContainer2
  have containers := containerEqual_iff signatureOnly k isContainer1 isContainer2
    (by omega)
  have insts := ih.insts (h.genericClass g1).context.classInst i2 n (by omega) (by omega) (by omega)
  simp only [monoMetadataGenericClassContainerEqual, keyInstance, keyDefinition, Key.generic.injEq]
  constructor
  · intro equal
    have sameClass : (h.genericClass g1).containerClass = c2 := containers.1 (by grind)
    have sameInst := insts.1 (by grind)
    have closed : (h.genericClass g1).isTbOpen = false := by grind
    refine ⟨sameClass, sameInst, closed, ?_⟩
    apply if_pos
    exact ⟨closed, i2, sameClass ▸ isContainer, sameInst⟩
  · rintro ⟨sameClass, sameInst, closed, -⟩
    rw [containers.2 sameClass, insts.2 sameInst, closed]
    rfl

theorem insts_step (canonical : signatureOnly = false → Canonical h) (ih : EqualSpec h signatureOnly k)
    (i1 i2 : GenericInstRef) (n : Nat) (fuel : h.rank.inst i1 + h.rank.inst i2 < k + 1)
    (enough1 : h.rank.inst i1 < n + 1) (enough2 : h.rank.inst i2 < n + 1) :
    monoGenericInstEqualFull h.toObjects signatureOnly (k + 1) i1 i2 = true ↔
      keyInst h.toObjects signatureOnly (n + 1) i1 = keyInst h.toObjects signatureOnly (n + 1) i2 := by
  simp only [monoGenericInstEqualFull]
  split
  · next ids =>
      have same := h.sameId i1 i2 ids.1 ids.2.2
      simp [same]
  split
  · next ids others =>
      apply iff_of_false Bool.false_ne_true
      intro keys
      rw [keyInst_eq enough1, keyInst_eq enough2, others.2.2] at keys
      have same := canonical others.2.2 i1 i2 others.1 others.2.1 keys
      exact ids ⟨others.1, others.2.1, congrArg (fun i => (h.inst i).id) same⟩
  have args := allEqual_iff (fun t1 t2 => doTypeEqual h.toObjects signatureOnly k t1 t2)
    (fun t => keyType h.toObjects signatureOnly n t) (h.inst i1).typeArgv (h.inst i2).typeArgv (by
      intro a inAs b inBs
      have below1 := h.arg_below i1 a inAs
      have below2 := h.arg_below i2 b inBs
      exact ih.types a b n (by omega) (by omega) (by omega))
  simp only [keyInst, Key.inst.injEq]
  split
  · next differ =>
      apply iff_of_false Bool.false_ne_true
      rintro ⟨opens, keys⟩
      rcases differ with opensDiffer | lengthsDiffer
      · exact opensDiffer opens
      · have lengths := congrArg List.length keys
        rw [length_map, length_map] at lengths
        exact lengthsDiffer lengths
  · next agree =>
      rw [not_or, not_not, not_not] at agree
      rw [args]
      exact ⟨fun keys => ⟨agree.1, keys⟩, fun keys => keys.2⟩

theorem signatures_step (ih : EqualSpec h signatureOnly k) (s1 s2 : SignatureRef) (n : Nat)
    (fuel : h.rank.signature s1 + h.rank.signature s2 < k + 1) (enough1 : h.rank.signature s1 < n + 1)
    (enough2 : h.rank.signature s2 < n + 1) : monoMetadataFnptrEqual h.toObjects signatureOnly (k + 1) s1 s2 = true ↔
      keySignature h.toObjects signatureOnly (n + 1) s1 = keySignature h.toObjects signatureOnly (n + 1) s2 := by
  by_cases same : s1 = s2
  · simp [monoMetadataFnptrEqual, same]
  have ret1 := h.ret_below s1
  have ret2 := h.ret_below s2
  have rets := ih.types (h.signature s1).ret (h.signature s2).ret n (by omega) (by omega) (by omega)
  have params := allEqual_iff (fun t1 t2 => doTypeEqual h.toObjects signatureOnly k t1 t2)
    (fun t => keyType h.toObjects signatureOnly n t) (h.signature s1).params (h.signature s2).params (by
      intro a inAs b inBs
      have below1 := h.param_below s1 a inAs
      have below2 := h.param_below s2 b inBs
      exact ih.types a b n (by omega) (by omega) (by omega))
  have lengths : (h.signature s1).params.map (fun t => keyType h.toObjects signatureOnly n t)
      = (h.signature s2).params.map (fun t => keyType h.toObjects signatureOnly n t) →
        (h.signature s1).params.length = (h.signature s2).params.length := by
    intro equal
    have length := congrArg List.length equal
    rwa [length_map, length_map] at length
  simp only [monoMetadataFnptrEqual, if_neg same, keySignature, Key.signature.injEq, ← rets, ← params] at lengths ⊢
  grind

end Step

theorem equalSpec (canonical : signatureOnly = false → Canonical h) (dynamic : DynamicDefinitions h signatureOnly)
    (k : Nat) : EqualSpec h signatureOnly k := by
  induction k with
  | zero =>
    constructor
    all_goals
      intros
      omega
  | succ k ih =>
    -- There is fuel for the keys too, as the ranks are smaller.
    constructor
    case types =>
      rintro t1 t2 (_ | n) fuel enough1 enough2
      · omega
      · exact types_step ih t1 t2 n fuel enough1 enough2
    case classes =>
      rintro c1 c2 (_ | n) fuel enough1 enough2
      · omega
      · exact classes_step ih c1 c2 n fuel enough1 enough2
    case generics =>
      rintro g1 g2 (_ | n) fuel enough1 enough2
      · omega
      · exact generics_step ih g1 g2 n fuel enough1 enough2
    case instances =>
      rintro c1 c2 g1 g2 (_ | n) kind1 kind2 fuel enough1 enough2
      · omega
      · exact instances_step dynamic ih c1 c2 g1 g2 n kind1 kind2 fuel enough1 enough2
    case definitions =>
      rintro g1 c2 i2 (_ | n) fuel isContainer enough1 enough2
      · omega
      · exact definitions_step ih g1 c2 i2 n fuel isContainer enough1 enough2
    case insts =>
      rintro i1 i2 (_ | n) fuel enough1 enough2
      · omega
      · exact insts_step canonical ih i1 i2 n fuel enough1 enough2
    case signatures =>
      rintro s1 s2 (_ | n) fuel enough1 enough2
      · omega
      · exact signatures_step ih s1 s2 n fuel enough1 enough2

section Equality

variable {h : Heap} {signatureOnly : Bool}

theorem typeEqual_iff (canonical : signatureOnly = false → Canonical h)
    (dynamic : DynamicDefinitions h signatureOnly) (t1 t2 : MonoType) :
    doMonoMetadataTypeEqual h t1 t2 signatureOnly = true ↔ typeKey h signatureOnly t1 = typeKey h signatureOnly t2 := by
  have spec := (equalSpec canonical dynamic (h.rank.type t1 + h.rank.type t2 + 1)).types t1 t2
    (h.rank.type t1 + h.rank.type t2 + 1) (by omega) (by omega) (by omega)
  rwa [keyType_eq (by omega), keyType_eq (by omega)] at spec

theorem instEqual_iff (canonical : signatureOnly = false → Canonical h)
    (dynamic : DynamicDefinitions h signatureOnly) (i1 i2 : GenericInstRef) :
    monoMetadataGenericInstEqual h i1 i2 signatureOnly = true ↔
      instKey h signatureOnly i1 = instKey h signatureOnly i2 := by
  have spec := (equalSpec canonical dynamic (h.rank.inst i1 + h.rank.inst i2 + 1)).insts i1 i2
    (h.rank.inst i1 + h.rank.inst i2 + 1) (by omega) (by omega) (by omega)
  rwa [keyInst_eq (by omega), keyInst_eq (by omega)] at spec

end Equality

end MonoRuntime.TypeEquality
