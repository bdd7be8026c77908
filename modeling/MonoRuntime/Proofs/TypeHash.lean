/-
Module: MonoRuntime.Proofs.TypeHash
Purpose: Equal types, instantiations and generic classes have equal hashes unless parts of them that are hashed
  together clash: an array of an instance and one of the definition of its generic type, or generic parameters
  of different names.
Trusted boundary: none
Main exports: typeEqual_coherent
-/
import Mathlib.Data.List.Basic
import MonoRuntime.Proofs.TypeEquality

namespace MonoRuntime.TypeEquality

/-! ### One step of the hashes -/

section Step

variable (h : Objects) (n : Nat)

theorem typeHash_ptr (byref : Bool) (t : MonoType) :
    typeHash h (n + 1) (.ptr byref t) = times31 (MonoType.ptr byref t).tagHash ^^^ typeHash h n t :=
  rfl

theorem typeHash_array (byref : Bool) (c : ClassRef) (rank : Nat) : typeHash h (n + 1) (.array byref c rank) =
      times31 (MonoType.array byref c rank).tagHash ^^^ typeHash h n (h.byvalArg c) :=
  rfl

theorem typeHash_genericinst (byref : Bool) (g : GenericClassRef) : typeHash h (n + 1) (.genericinst byref g) =
      times31 (MonoType.genericinst byref g).tagHash ^^^ genericClassHash h n g :=
  rfl

end Step

/-! ### More fuel leaves a hash as it is -/

theorem byvalArg_rank (h : Heap) (c : ClassRef) : h.rank.type (h.byvalArg c) ≤ h.rank.klass c + 1 := by
  have below := h.class_below c
  unfold Objects.byvalArg
  split
  all_goals
    next kind =>
      rw [kind] at below
      simp only [Ranks.BelowClass] at below
      simp only [Ranks.type]
      omega

/-- One unit of fuel more than enough leaves the hashes as they are. -/
structure HashStable (h : Heap) (n : Nat) : Prop where
  types : ∀ t, h.rank.type t < n → typeHash h.toObjects (n + 1) t = typeHash h.toObjects n t
  insts : ∀ i, h.rank.inst i < n → genericInstHash h.toObjects (n + 1) i = genericInstHash h.toObjects n i
  generics : ∀ g, h.rank.genericClass g < n →
    genericClassHash h.toObjects (n + 1) g = genericClassHash h.toObjects n g

theorem hashStable (h : Heap) (n : Nat) : HashStable h n := by
  induction n with
  | zero =>
    constructor
    all_goals
      intros
      omega
  | succ n ih =>
    constructor
    case types =>
      intro t enough
      cases t <;> simp only [Ranks.type] at enough
      case ptr byref t => rw [typeHash_ptr, typeHash_ptr, ih.types t (by omega)]
      case array byref c rank =>
        have below := byvalArg_rank h c
        rw [typeHash_array, typeHash_array, ih.types (h.byvalArg c) (by omega)]
      case genericinst byref g => rw [typeHash_genericinst, typeHash_genericinst, ih.generics g (by omega)]
      all_goals rfl
    case insts =>
      intro i enough
      have args : ∀ t ∈ (h.inst i).typeArgv,
          typeHash h.toObjects (n + 1) t = typeHash h.toObjects n t := by
        intro t inArgs
        have less := h.arg_below i t inArgs
        exact ih.types t (by omega)
      rw [genericInstHash, genericInstHash]
      congr 1
      apply List.foldl_ext
      intro hash t inArgs
      rw [args t inArgs]
    case generics =>
      intro g enough
      have container := h.container_below g
      have below := byvalArg_rank h (h.genericClass g).containerClass
      have inst := h.inst_below g
      rw [genericClassHash, genericClassHash, ih.types _ (by omega)]
      simp only [genericContextHash, h.noMethodInst g]
      rw [ih.insts _ (by omega)]

theorem typeHash_eq {h : Heap} {n : Nat} {t : MonoType} (enough : h.rank.type t < n) :
    typeHash h.toObjects n t = monoMetadataTypeHash h t := by
  induction n, enough using Nat.le_induction with
  | base => rfl
  | succ n enough ih => rw [(hashStable h n).types t enough, ih]

theorem genericInstHash_eq {h : Heap} {n : Nat} {i : GenericInstRef} (enough : h.rank.inst i < n) :
    genericInstHash h.toObjects n i = monoMetadataGenericInstHash h i := by
  induction n, enough using Nat.le_induction with
  | base => rfl
  | succ n enough ih => rw [(hashStable h n).insts i enough, ih]

theorem genericClassHash_eq {h : Heap} {n : Nat} {g : GenericClassRef} (enough : h.rank.genericClass g < n) :
    genericClassHash h.toObjects n g = monoGenericClassHash h g := by
  induction n, enough using Nat.le_induction with
  | base => rfl
  | succ n enough ih => rw [(hashStable h n).generics g enough, ih]

/-! ### The hashes without fuel -/

section Equations

variable (h : Heap)

theorem hash_named {t : MonoType} {c : ClassRef} (named : t.namedClass = some c) :
    monoMetadataTypeHash h t = times31 t.tagHash ^^^ gStrHash (h.klass c).name := by
  cases t <;> simp only [MonoType.namedClass, Option.some.injEq, reduceCtorEq] at named <;>
    simp only [← named, monoMetadataTypeHash, typeHash]

theorem hash_ptr (byref : Bool) (t : MonoType) : monoMetadataTypeHash h (.ptr byref t) =
      times31 (MonoType.ptr byref t).tagHash ^^^ monoMetadataTypeHash h t := by
  rw [monoMetadataTypeHash, typeHash_ptr, typeHash_eq (by simp only [Ranks.type]; omega)]

theorem hash_array (byref : Bool) (c : ClassRef) (rank : Nat) : monoMetadataTypeHash h (.array byref c rank) =
      times31 (MonoType.array byref c rank).tagHash ^^^ monoMetadataTypeHash h (h.byvalArg c) := by
  have below := byvalArg_rank h c
  rw [monoMetadataTypeHash, typeHash_array, typeHash_eq (by simp only [Ranks.type]; omega)]

theorem hash_genericinst (byref : Bool) (g : GenericClassRef) : monoMetadataTypeHash h (.genericinst byref g) =
      times31 (MonoType.genericinst byref g).tagHash ^^^ monoGenericClassHash h g := by
  rw [monoMetadataTypeHash, typeHash_genericinst, genericClassHash_eq (by simp only [Ranks.type]; omega)]

theorem hash_inst (i : GenericInstRef) : monoMetadataGenericInstHash h i =
      ((h.inst i).typeArgv.map (monoMetadataTypeHash h)).foldl (fun hash arg => hash * 13 + arg) 0
        ^^^ flag (h.inst i).isOpen <<< 8 := by
  rw [monoMetadataGenericInstHash, genericInstHash, List.foldl_map]
  congr 1
  apply List.foldl_ext
  intro hash t inArgs
  rw [typeHash_eq (h.arg_below i t inArgs)]

/-- The hash of a generic class is made of those of its generic type and its instantiation. -/
theorem hash_generic (g : GenericClassRef) : monoGenericClassHash h g =
      monoMetadataTypeHash h (h.byvalArg (h.genericClass g).containerClass) * 13 + flag (h.genericClass g).isTbOpen
        + (times31 0xc01dfee7 ^^^ monoMetadataGenericInstHash h (h.genericClass g).context.classInst) := by
  have container := h.container_below g
  have below := byvalArg_rank h (h.genericClass g).containerClass
  have inst := h.inst_below g
  rw [monoGenericClassHash, genericClassHash, typeHash_eq (by omega)]
  simp only [genericContextHash, h.noMethodInst g]
  rw [genericInstHash_eq (by omega)]

end Equations

/-! ### What equal classes are -/

/-- The ways in which two classes are found equal with one unit of fuel more. -/
inductive ClassesEqual (h : Objects) (signatureOnly : Bool) (k : Nat) (c1 c2 : ClassRef) : Prop where
  | same (same : c1 = c2)
  | instances (g1 g2 : GenericClassRef)
      (kind1 : (h.klass c1).kind = .inflated g1)
      (kind2 : (h.klass c2).kind = .inflated g2)
      (equal : monoMetadataGenericClassEqual h signatureOnly k g1 g2 = true)
  | instanceDefinition (g1 : GenericClassRef) (valuetype : Bool) (i2 : GenericInstRef)
      (kind1 : (h.klass c1).kind = .inflated g1)
      (kind2 : (h.klass c2).kind = .container valuetype i2)
      (equal : monoMetadataGenericClassContainerEqual h signatureOnly k g1 c2 i2 = true)
  | definitionInstance (g2 : GenericClassRef) (valuetype : Bool) (i1 : GenericInstRef)
      (kind1 : (h.klass c1).kind = .container valuetype i1)
      (kind2 : (h.klass c2).kind = .inflated g2)
      (equal : monoMetadataGenericClassContainerEqual h signatureOnly k g2 c1 i1 = true)
  | vars (p1 p2 : GenericParamRef)
      (kind1 : (h.klass c1).kind = .var p1)
      (kind2 : (h.klass c2).kind = .var p2)
  | mvars (p1 p2 : GenericParamRef)
      (kind1 : (h.klass c1).kind = .mvar p1)
      (kind2 : (h.klass c2).kind = .mvar p2)
  | vectors (e1 e2 : ClassRef)
      (kind1 : (h.klass c1).kind = .szarray e1)
      (kind2 : (h.klass c2).kind = .szarray e2)
      (equal : monoMetadataClassEqual h signatureOnly k e1 e2 = true)

theorem classesEqual {h : Objects} {signatureOnly : Bool} {k : Nat} {c1 c2 : ClassRef}
    (equal : monoMetadataClassEqual h signatureOnly (k + 1) c1 c2 = true) : ClassesEqual h signatureOnly k c1 c2 := by
  by_cases same : c1 = c2
  · exact .same same
  simp only [monoMetadataClassEqual, if_neg same] at equal
  rcases kind1 : (h.klass c1).kind with _ | (_ | _) | ⟨(_ | _), i1⟩ | g1 | p1 | p1 | e1 | _ | _ | _ <;>
  rcases kind2 : (h.klass c2).kind with _ | (_ | _) | ⟨(_ | _), i2⟩ | g2 | p2 | p2 | e2 | _ | _ | _ <;>
  simp only [Objects.genericClassOf, Objects.genericContainerOf, Objects.byvalArg, kind1, kind2,
    Bool.false_eq_true] at equal
  all_goals first
    | exact .instances g1 g2 kind1 kind2 equal
    | exact .instanceDefinition g1 _ i2 kind1 kind2 equal
    | exact .definitionInstance g2 _ i1 kind1 kind2 equal
    | exact .vars p1 p2 kind1 kind2
    | exact .mvars p1 p2 kind1 kind2
    | (split at equal
       · exact .vectors e1 e2 kind1 kind2 equal
       · cases equal)

section Equal

variable {h : Heap} {signatureOnly : Bool} {k : Nat}

theorem container_of_equal {g1 g2 : GenericClassRef}
    (equal : monoMetadataGenericClassEqual h.toObjects signatureOnly (k + 1) g1 g2 = true) :
    (h.genericClass g1).containerClass = (h.genericClass g2).containerClass ∧
      monoGenericInstEqualFull h.toObjects signatureOnly k (h.genericClass g1).context.classInst
        (h.genericClass g2).context.classInst = true ∧ (h.genericClass g1).isTbOpen = (h.genericClass g2).isTbOpen := by
  obtain ⟨_, _, isContainer1⟩ := h.isContainer g1
  obtain ⟨_, _, isContainer2⟩ := h.isContainer g2
  have classes : monoMetadataClassEqual h.toObjects signatureOnly k (h.genericClass g1).containerClass
      (h.genericClass g2).containerClass = true := by
    grind [monoMetadataGenericClassEqual]
  have positive : 0 < k := by
    cases k with
    | zero => simp [monoMetadataClassEqual] at classes
    | succ k => omega
  refine ⟨(containerEqual_iff signatureOnly _ isContainer1 isContainer2 positive).1 classes, ?_⟩
  grind [monoMetadataGenericClassEqual]

theorem container_of_definition {g : GenericClassRef} {c : ClassRef} {i : GenericInstRef} {valuetype : Bool}
    (isContainer : (h.klass c).kind = .container valuetype i)
    (equal : monoMetadataGenericClassContainerEqual h.toObjects signatureOnly k g c i = true) :
    (h.genericClass g).containerClass = c := by
  cases k with
  | zero => simp [monoMetadataGenericClassContainerEqual] at equal
  | succ k =>
    obtain ⟨_, _, isContainer1⟩ := h.isContainer g
    have classes : monoMetadataClassEqual h.toObjects signatureOnly k (h.genericClass g).containerClass c
        = true := by
      grind [monoMetadataGenericClassContainerEqual]
    have positive : 0 < k := by
      cases k with
      | zero => simp [monoMetadataClassEqual] at classes
      | succ k => omega
    exact (containerEqual_iff signatureOnly _ isContainer1 isContainer positive).1 classes

/-- Equal classes have one name, apart from generic parameters and vectors of them. -/
theorem name_of_classesEqual {c1 c2 : ClassRef} (equal : monoMetadataClassEqual h.toObjects signatureOnly k c1 c2 = true)
    (named : ¬ EndsInVariable h.toObjects c1) : (h.klass c1).name = (h.klass c2).name := by
  induction k generalizing c1 c2 with
  | zero => simp [monoMetadataClassEqual] at equal
  | succ k ih =>
    cases classesEqual equal with
    | same same => rw [same]
    | instances g1 g2 kind1 kind2 equal =>
      have containers : (h.genericClass g1).containerClass = (h.genericClass g2).containerClass := by
        cases k with
        | zero => simp [monoMetadataGenericClassEqual] at equal
        | succ k => exact (container_of_equal equal).1
      rw [h.inflatedName c1 g1 kind1, h.inflatedName c2 g2 kind2, containers]
    | instanceDefinition g1 valuetype i2 kind1 kind2 equal =>
      rw [h.inflatedName c1 g1 kind1, container_of_definition kind2 equal]
    | definitionInstance g2 valuetype i1 kind1 kind2 equal =>
      rw [h.inflatedName c2 g2 kind2, container_of_definition kind1 equal]
    | vars p1 p2 kind1 kind2 => exact absurd (.var kind1) named
    | mvars p1 p2 kind1 kind2 => exact absurd (.mvar kind1) named
    | vectors e1 e2 kind1 kind2 equal =>
      have elements := ih equal fun ends => named (.szarray kind1 ends)
      rw [h.szarrayName c1 e1 kind1, h.szarrayName c2 e2 kind2, elements]

end Equal

/-! ### Coherence -/

/-- The loop over two arrays maps the types to one list where what it finds equal is mapped to one value. -/
theorem map_of_allEqual {α : Type} {equal : MonoType → MonoType → Bool} {f : MonoType → α} :
    ∀ {as bs : List MonoType}, allEqual equal as bs = true →
      (∀ (place : Nat) (a b : MonoType), as[place]? = some a → bs[place]? = some b → equal a b = true → f a = f b) →
        as.map f = bs.map f
  | [], [], _, _ => rfl
  | [], _ :: _, all, _ | _ :: _, [], all, _ => by simp [allEqual] at all
  | a :: as, b :: bs, all, same => by
      have first : equal a b = true := by
        rw [allEqual] at all
        split at all
        · assumption
        · cases all
      rw [allEqual, if_pos first] at all
      have rest := map_of_allEqual all fun place a' b' inAs inBs => same (place + 1) a' b' inAs inBs
      rw [List.map_cons, List.map_cons, same 0 a b rfl rfl first, rest]

/-- What is found equal with some fuel has one hash, unless parts that are hashed together clash. -/
structure HashSpec (h : Heap) (signatureOnly : Bool) (k : Nat) : Prop where
  types : ∀ t1 t2, doTypeEqual h.toObjects signatureOnly k t1 t2 = true → ¬ HashesClash h.toObjects t1 t2 →
    monoMetadataTypeHash h t1 = monoMetadataTypeHash h t2
  elements : ∀ c1 c2, monoMetadataClassEqual h.toObjects signatureOnly k c1 c2 = true →
    ¬ InstanceAndDefinition h.toObjects c1 c2 → ¬ HashesClash h.toObjects (h.byvalArg c1) (h.byvalArg c2) →
      monoMetadataTypeHash h (h.byvalArg c1) = monoMetadataTypeHash h (h.byvalArg c2)
  generics : ∀ g1 g2, monoMetadataGenericClassEqual h.toObjects signatureOnly k g1 g2 = true →
    ¬ ArgsClash h.toObjects (h.genericClass g1).context.classInst (h.genericClass g2).context.classInst →
      monoGenericClassHash h g1 = monoGenericClassHash h g2
  insts : ∀ i1 i2, monoGenericInstEqualFull h.toObjects signatureOnly k i1 i2 = true →
    ¬ ArgsClash h.toObjects i1 i2 → monoMetadataGenericInstHash h i1 = monoMetadataGenericInstHash h i2

section HashStep

variable {h : Heap} {signatureOnly : Bool} {k : Nat}

variable {t1 t2 : MonoType} {byref1 byref2 : Bool}

theorem tag_of_equal (equal : doTypeEqual h.toObjects signatureOnly (k + 1) t1 t2 = true) :
    t1.code = t2.code ∧ t1.byref = t2.byref := by
  unfold doTypeEqual at equal
  split at equal
  · cases equal
  · next agree => rwa [not_or, not_not, not_not] at agree

theorem tagHash_of_equal (equal : doTypeEqual h.toObjects signatureOnly (k + 1) t1 t2 = true) :
    t1.tagHash = t2.tagHash := by
  obtain ⟨codes, byrefs⟩ := tag_of_equal equal
  rw [MonoType.tagHash, MonoType.tagHash, codes, byrefs]

theorem clash_ptr {h : Objects} (clash : HashesClash h t1 t2) : HashesClash h (.ptr byref1 t1) (.ptr byref2 t2) := by
  obtain ⟨u1, u2, part, clash⟩ := clash
  exact ⟨u1, u2, .ptr part, clash⟩

theorem clash_array {h : Objects} {c1 c2 : ClassRef} {rank1 rank2 : Nat}
    (clash : HashesClash h (h.byvalArg c1) (h.byvalArg c2)) :
    HashesClash h (.array byref1 c1 rank1) (.array byref2 c2 rank2) := by
  obtain ⟨u1, u2, part, clash⟩ := clash
  exact ⟨u1, u2, .array part, clash⟩

theorem clash_genericinst {h : Objects} {g1 g2 : GenericClassRef}
    (clash : ArgsClash h (h.genericClass g1).context.classInst (h.genericClass g2).context.classInst) :
    HashesClash h (.genericinst byref1 g1) (.genericinst byref2 g2) := by
  obtain ⟨place, a1, a2, arg1, arg2, u1, u2, part, clash⟩ := clash
  exact ⟨u1, u2, .genericinst place arg1 arg2 part, clash⟩

theorem hash_of_named {c1 c2 : ClassRef} {l : Nat} (named1 : t1.namedClass = some c1)
    (named2 : t2.namedClass = some c2) (tags : t1.tagHash = t2.tagHash)
    (classes : monoMetadataClassEqual h.toObjects signatureOnly l c1 c2 = true)
    (clean : ¬ HashesClash h.toObjects t1 t2) : monoMetadataTypeHash h t1 = monoMetadataTypeHash h t2 := by
  rw [hash_named h named1, hash_named h named2, tags]
  congr 1
  by_cases ends : EndsInVariable h.toObjects c1
  · apply Classical.byContradiction
    intro differ
    exact clean ⟨t1, t2, .here t1 t2, .inl ⟨c1, c2, named1, named2, ends, differ⟩⟩
  · rw [name_of_classesEqual classes ends]

theorem hash_types_step (ih : HashSpec h signatureOnly k) (t1 t2 : MonoType)
    (equal : doTypeEqual h.toObjects signatureOnly (k + 1) t1 t2 = true) (clean : ¬ HashesClash h.toObjects t1 t2) :
    monoMetadataTypeHash h t1 = monoMetadataTypeHash h t2 := by
  have tags := tagHash_of_equal equal
  cases t1 <;> cases t2
  case simple.simple => exact tags
  case valuetype.valuetype byref1 c1 byref2 c2 =>
    have classes : monoMetadataClassEqual h.toObjects signatureOnly k c1 c2 = true := by grind [doTypeEqual]
    exact hash_of_named rfl rfl tags classes clean
  case klass.klass byref1 c1 byref2 c2 =>
    have classes : monoMetadataClassEqual h.toObjects signatureOnly k c1 c2 = true := by grind [doTypeEqual]
    exact hash_of_named rfl rfl tags classes clean
  case szarray.szarray byref1 c1 byref2 c2 =>
    have classes : monoMetadataClassEqual h.toObjects signatureOnly k c1 c2 = true := by grind [doTypeEqual]
    exact hash_of_named rfl rfl tags classes clean
  case ptr.ptr byref1 t1 byref2 t2 =>
    have below := ih.types t1 t2 (by grind [doTypeEqual]) fun clash => clean (clash_ptr clash)
    rw [hash_ptr, hash_ptr, tags, below]
  case array.array byref1 c1 rank1 byref2 c2 rank2 =>
    have below := ih.elements c1 c2 (by grind [doTypeEqual])
      (fun mixed => clean ⟨_, _, .here _ _, .inr ⟨byref1, c1, rank1, byref2, c2, rank2, rfl, rfl, mixed⟩⟩)
      fun clash => clean (clash_array clash)
    rw [hash_array, hash_array, tags, below]
  case genericinst.genericinst byref1 g1 byref2 g2 =>
    have below := ih.generics g1 g2 (by grind [doTypeEqual]) fun clash => clean (clash_genericinst clash)
    rw [hash_genericinst, hash_genericinst, tags, below]
  case var.var => exact tags
  case mvar.mvar => exact tags
  case fnptr.fnptr => exact tags
  -- Types of different constructors are not equal.
  all_goals simp [doTypeEqual] at equal

theorem hash_elements_step (ih : HashSpec h signatureOnly k) (c1 c2 : ClassRef)
    (equal : monoMetadataClassEqual h.toObjects signatureOnly (k + 1) c1 c2 = true)
    (unmixed : ¬ InstanceAndDefinition h.toObjects c1 c2)
    (clean : ¬ HashesClash h.toObjects (h.byvalArg c1) (h.byvalArg c2)) :
    monoMetadataTypeHash h (h.byvalArg c1) = monoMetadataTypeHash h (h.byvalArg c2) := by
  cases classesEqual equal with
  | same same => rw [same]
  | instances g1 g2 kind1 kind2 equal =>
    have byval1 : h.byvalArg c1 = .genericinst false g1 := by simp only [Objects.byvalArg, kind1]
    have byval2 : h.byvalArg c2 = .genericinst false g2 := by simp only [Objects.byvalArg, kind2]
    rw [byval1, byval2] at clean
    have below := ih.generics g1 g2 equal fun clash => clean (clash_genericinst clash)
    rw [byval1, byval2, hash_genericinst, hash_genericinst, below]
    rfl
  | instanceDefinition g1 valuetype i2 kind1 kind2 equal =>
    exfalso
    apply unmixed
    left
    constructor
    · simp [Objects.genericClassOf, kind1]
    · simp [Objects.genericContainerOf, kind2]
  | definitionInstance g2 valuetype i1 kind1 kind2 equal =>
    exfalso
    apply unmixed
    right
    constructor
    · simp [Objects.genericContainerOf, kind1]
    · simp [Objects.genericClassOf, kind2]
  | vars p1 p2 kind1 kind2 =>
    have byval1 : h.byvalArg c1 = .var false p1 := by simp only [Objects.byvalArg, kind1]
    have byval2 : h.byvalArg c2 = .var false p2 := by simp only [Objects.byvalArg, kind2]
    rw [byval1, byval2]
    rfl
  | mvars p1 p2 kind1 kind2 =>
    have byval1 : h.byvalArg c1 = .mvar false p1 := by simp only [Objects.byvalArg, kind1]
    have byval2 : h.byvalArg c2 = .mvar false p2 := by simp only [Objects.byvalArg, kind2]
    rw [byval1, byval2]
    rfl
  | vectors e1 e2 kind1 kind2 equal =>
    have byval1 : h.byvalArg c1 = .szarray false e1 := by simp only [Objects.byvalArg, kind1]
    have byval2 : h.byvalArg c2 = .szarray false e2 := by simp only [Objects.byvalArg, kind2]
    rw [byval1, byval2] at clean ⊢
    exact hash_of_named rfl rfl rfl equal clean

theorem hash_generics_step (ih : HashSpec h signatureOnly k) (g1 g2 : GenericClassRef)
    (equal : monoMetadataGenericClassEqual h.toObjects signatureOnly (k + 1) g1 g2 = true)
    (clean : ¬ ArgsClash h.toObjects (h.genericClass g1).context.classInst (h.genericClass g2).context.classInst) :
    monoGenericClassHash h g1 = monoGenericClassHash h g2 := by
  obtain ⟨containers, insts, tbOpens⟩ := container_of_equal equal
  rw [hash_generic, hash_generic, containers, tbOpens, ih.insts _ _ insts clean]

theorem hash_insts_step (ih : HashSpec h signatureOnly k) (i1 i2 : GenericInstRef)
    (equal : monoGenericInstEqualFull h.toObjects signatureOnly (k + 1) i1 i2 = true)
    (clean : ¬ ArgsClash h.toObjects i1 i2) : monoMetadataGenericInstHash h i1 = monoMetadataGenericInstHash h i2 := by
  rw [monoGenericInstEqualFull] at equal
  split at equal
  · next ids => rw [h.sameId i1 i2 ids.1 ids.2.2]
  split at equal
  · cases equal
  split at equal
  · cases equal
  next agree =>
    rw [not_or, not_not, not_not] at agree
    have args := map_of_allEqual equal fun place a b inFirst inSecond equal =>
      ih.types a b equal fun clash => clean ⟨place, a, b, inFirst, inSecond, clash⟩
    rw [hash_inst, hash_inst, args, agree.1]

end HashStep

theorem hashSpec (h : Heap) (signatureOnly : Bool) (k : Nat) : HashSpec h signatureOnly k := by
  induction k with
  | zero =>
    constructor
    case types =>
      intro t1 t2 equal
      simp [doTypeEqual] at equal
    case elements =>
      intro c1 c2 equal
      simp [monoMetadataClassEqual] at equal
    case generics =>
      intro g1 g2 equal
      simp [monoMetadataGenericClassEqual] at equal
    case insts =>
      intro i1 i2 equal
      simp [monoGenericInstEqualFull] at equal
  | succ k ih =>
    constructor
    case types => exact hash_types_step ih
    case elements => exact hash_elements_step ih
    case generics => exact hash_generics_step ih
    case insts => exact hash_insts_step ih

/-- In both modes the equality of types is an equivalence relation as long as the cached instantiations have
different keys and the instances of a definition agree on being dynamic; and what is equal has one hash as long
as no parts that are hashed together clash. -/
theorem typeEqual_coherent (h : Heap) (signatureOnly : Bool)
    (canonical : signatureOnly = false → Canonical h)
    (dynamic : DynamicDefinitions h signatureOnly) :
    Equivalence (fun t1 t2 => doMonoMetadataTypeEqual h t1 t2 signatureOnly = true) ∧
      (∀ t1 t2, doMonoMetadataTypeEqual h t1 t2 signatureOnly = true → ¬ HashesClash h.toObjects t1 t2 →
        monoMetadataTypeHash h t1 = monoMetadataTypeHash h t2) ∧
      (∀ i1 i2, monoMetadataGenericInstEqual h i1 i2 signatureOnly = true → ¬ ArgsClash h.toObjects i1 i2 →
        monoMetadataGenericInstHash h i1 = monoMetadataGenericInstHash h i2) ∧
      (∀ g1 g2, monoGenericClassEqual h g1 g2 signatureOnly = true →
        ¬ ArgsClash h.toObjects (h.genericClass g1).context.classInst (h.genericClass g2).context.classInst →
          monoGenericClassHash h g1 = monoGenericClassHash h g2) := by
  refine ⟨⟨?refl, ?symm, ?trans⟩, ?types, ?insts, ?generics⟩
  case refl =>
    intro t
    exact (typeEqual_iff canonical dynamic t t).2 rfl
  case symm =>
    intro t1 t2 equal
    exact (typeEqual_iff canonical dynamic t2 t1).2 ((typeEqual_iff canonical dynamic t1 t2).1 equal).symm
  case trans =>
    intro t1 t2 t3 equal12 equal23
    have keys12 := (typeEqual_iff canonical dynamic t1 t2).1 equal12
    have keys23 := (typeEqual_iff canonical dynamic t2 t3).1 equal23
    exact (typeEqual_iff canonical dynamic t1 t3).2 (keys12.trans keys23)
  case types =>
    intro t1 t2 equal clean
    exact (hashSpec h signatureOnly _).types t1 t2 equal clean
  case insts =>
    intro i1 i2 equal clean
    exact (hashSpec h signatureOnly _).insts i1 i2 equal clean
  case generics =>
    intro g1 g2 equal clean
    exact (hashSpec h signatureOnly _).generics g1 g2 equal clean

/-! ### A heap on which hashes clash -/

/-- The classes: the definition of a generic type, its instance over its own parameter, and the classes of two
generic parameters of methods. -/
def sampleClass : ClassRef → MonoClass
  | 0 => { name := [0x48, 0x60, 0x31], kind := .container false 0 }
  | 1 => { name := [0x48, 0x60, 0x31], kind := .inflated 0 }
  | 2 => { name := [0x54, 0x4b, 0x65, 0x79], kind := .mvar 1 }
  | 3 => { name := [0x54, 0x56, 0x61, 0x6c, 0x75, 0x65], kind := .mvar 2 }
  | _ => { name := [0x43], kind := .plain false }

/-- The ranks of the classes. -/
def sampleRank : ClassRef → Nat
  | 0 => 3
  | 1 => 6
  | _ => 0

/-- A heap with one generic type and the generic parameters of two methods. -/
def sample : Heap where
  klass := sampleClass
  genericClass _ :=
    { containerClass := 0, context := { classInst := 0, methodInst := none }, isDynamic := false, isTbOpen := false }
  inst i := { id := if i = 0 then 1 else 0, isOpen := true, typeArgv := [.var false 0] }
  param p := { owner := some p, image := none, num := 0 }
  signature _ :=
    { callConvention := 0, sentinelpos := -1, hasthis := false, explicitThis := false, ret := .simple false .void,
      params := [] }
  rank :=
    { klass := sampleRank, genericClass := fun _ => 5, inst := fun _ => 1, signature := fun _ => 1 }
  class_below c := by
    match c with
    | 0 => exact (by decide : 1 + 1 < 3)
    | 1 => exact (by decide : 5 < 6)
    | 2 | 3 | _ + 4 => trivial
  container_below _ := (by decide : 3 + 1 < 5)
  inst_below _ := (by decide : 1 < 5)
  arg_below _ t inArgs := by
    rw [List.mem_singleton] at inArgs
    rw [inArgs]
    exact (by decide : 0 < 1)
  ret_below _ := (by decide : 0 < 1)
  param_below _ _ inParams := by cases inParams
  isContainer _ := ⟨false, 0, rfl⟩
  noMethodInst _ := rfl
  inflatedName c g isInflated := by
    match c with
    | 1 => rfl
    | 0 | 2 | 3 | _ + 4 => cases isInflated
  szarrayName c e isVector := by
    match c with
    | 0 | 1 | 2 | 3 | _ + 4 => cases isVector
  sameId i j hasId same := by
    have first : i = 0 := by
      apply Classical.byContradiction
      intro other
      rw [if_neg other] at hasId
      exact hasId rfl
    have second : j = 0 := by
      apply Classical.byContradiction
      intro other
      rw [if_pos first, if_neg other] at same
      cases same
    rw [first, second]

/-- The arrays of the instance and of the definition of one generic type are equal, and so are the vectors of two
generic parameters where only signatures are compared; their hashes differ. -/
theorem typeEqual_hashesDiffer :
    (doMonoMetadataTypeEqual sample (.array false 1 2) (.array false 0 2) false = true ∧
      monoMetadataTypeHash sample (.array false 1 2) ≠ monoMetadataTypeHash sample (.array false 0 2)) ∧
    (doMonoMetadataTypeEqual sample (.szarray false 2) (.szarray false 3) true = true ∧
      monoMetadataTypeHash sample (.szarray false 2) ≠ monoMetadataTypeHash sample (.szarray false 3)) := by
  decide +kernel

theorem sample_canonical : Canonical sample := by
  intro i j hasId1 hasId2 _
  have ids : ∀ i, (sample.inst i).id ≠ 0 → i = 0 := by
    intro i hasId
    apply Classical.byContradiction
    intro other
    exact hasId (if_neg other)
  rw [ids i hasId1, ids j hasId2]

theorem typeEqual_coherent_sample :
    Equivalence (fun t1 t2 => doMonoMetadataTypeEqual sample t1 t2 false = true) ∧
      monoMetadataTypeHash sample (.ptr true (.genericinst false 0))
        = monoMetadataTypeHash sample (.ptr true (.genericinst false 1)) := by
  have coherent := typeEqual_coherent sample false (fun _ => sample_canonical) fun _ _ _ _ _ _ _ _ _ => rfl
  refine ⟨coherent.1, coherent.2.1 _ _ (by decide +kernel) ?_⟩
  -- The two types have no arrays, and the only argument is a type variable.
  have isVar : ∀ (place : Nat) (a : MonoType), [MonoType.var false 0][place]? = some a → a = .var false 0 :=
    fun place a arg => List.mem_singleton.1 (List.mem_of_getElem? arg)
  have unclashed : ∀ {t1 t2 : MonoType}, t1.namedClass = none → (∀ byref c rank, t1 ≠ .array byref c rank) →
      ¬ (NamesClash sample.toObjects t1 t2 ∨ ElementsClash sample.toObjects t1 t2) := by
    rintro t1 t2 unnamed noArray (⟨k1, k2, named, -⟩ | ⟨byref1, eklass1, rank1, byref2, eklass2, rank2, isArray, -⟩)
    · rw [unnamed] at named
      cases named
    · exact noArray byref1 eklass1 rank1 isArray
  rintro ⟨u1, u2, part, clash⟩
  cases part with
  | here => exact unclashed rfl (fun _ _ _ => MonoType.noConfusion) clash
  | ptr part =>
      cases part with
      | here => exact unclashed rfl (fun _ _ _ => MonoType.noConfusion) clash
      | genericinst place arg1 arg2 part =>
          rw [isVar place _ arg1, isVar place _ arg2] at part
          cases part
          exact unclashed rfl (fun _ _ _ => MonoType.noConfusion) clash

end MonoRuntime.TypeEquality
