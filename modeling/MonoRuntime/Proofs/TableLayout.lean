/-
Module: MonoRuntime.Proofs.TableLayout
Purpose: `mono_metadata_compute_size` gives every column the width of the standard, except where only a
  table that its list for HasCustomAttribute leaves out has 2^11 rows. From the right widths the tables are
  found, and every column of every row is read at its offset.
Trusted boundary: none
Main exports: computeSize_matches_iff, computeSize_narrows_parent
-/
import MonoRuntime.Metadata.EcmaTables
import Mathlib.Tactic.Linarith

namespace MonoRuntime.Metadata

open List

/-! ### The bit field -/

/-- The sizes of some columns in two bits each. -/
structure Packed (bitfield : BitVec 32) (sizes : List Nat) : Prop where
  below : bitfield.toNat < 4 ^ sizes.length
  digit : ∀ j w, sizes[j]? = some w → bitfield.toNat / 4 ^ j % 4 = w - 1

theorem packed_nil : Packed 0 [] where
  below := by decide
  digit _ _ isSize := by cases isSize

theorem shifted_toNat {w i : Nat} (isSize : w ≤ 4) (few : i < 12) :
    (BitVec.ofNat 32 (w - 1) <<< (2 * i)).toNat = 4 ^ i * (w - 1) := by
  have bound : 4 ^ (i + 1) ≤ 4 ^ 12 := Nat.pow_le_pow_right (by decide) few
  have room : 4 ^ i * (w - 1) < 4 ^ (i + 1) := by
    exact Nat.mul_lt_mul_of_pos_left (by omega) (Nat.pow_pos (by decide))
  have isPow : 2 ^ (2 * i) = 4 ^ i := by rw [Nat.pow_mul]
  rw [BitVec.toNat_shiftLeft, BitVec.toNat_ofNat, Nat.shiftLeft_eq, isPow, Nat.mul_comm,
    Nat.mod_eq_of_lt (show w - 1 < 2 ^ 32 by omega)]
  exact Nat.mod_eq_of_lt (by omega)

theorem Packed.push {bitfield : BitVec 32} {sizes : List Nat} {w : Nat} (packed : Packed bitfield sizes)
    (positive : 1 ≤ w) (isSize : w ≤ 4) (few : sizes.length < 12) :
    Packed (bitfield ||| BitVec.ofNat 32 (w - 1) <<< (2 * sizes.length)) (sizes ++ [w]) := by
  have below := packed.below
  have isSum : (bitfield ||| BitVec.ofNat 32 (w - 1) <<< (2 * sizes.length)).toNat
      = 4 ^ sizes.length * (w - 1) + bitfield.toNat := by
    have isPow : 4 ^ sizes.length = 2 ^ (2 * sizes.length) := by rw [Nat.pow_mul]
    rw [isPow] at below
    rw [BitVec.toNat_or, shifted_toNat isSize few, Nat.or_comm, isPow,
      ← Nat.two_pow_add_eq_or_of_lt below]
  constructor
  · rw [isSum, length_append, length_singleton, Nat.pow_succ]
    have : 4 ^ sizes.length * (w - 1) ≤ 4 ^ sizes.length * 3 := Nat.mul_le_mul_left _ (by omega)
    omega
  · intro j v isV
    rw [isSum]
    rcases Nat.lt_trichotomy j sizes.length with before | same | behind
    · rw [getElem?_append_left before] at isV
      obtain ⟨k, isLength⟩ : ∃ k, sizes.length = j + 1 + k := ⟨sizes.length - (j + 1), by omega⟩
      have split : 4 ^ sizes.length * (w - 1) = 4 ^ j * (4 * (4 ^ k * (w - 1))) := by
        rw [isLength, Nat.pow_add, Nat.pow_add, Nat.pow_one]
        ac_rfl
      rw [split, Nat.mul_add_div (Nat.pow_pos (by decide)), Nat.mul_add_mod]
      exact packed.digit j v isV
    · subst same
      rw [getElem?_concat_length] at isV
      cases isV
      rw [Nat.mul_add_div (Nat.pow_pos (by decide)), Nat.div_eq_of_lt below]
      omega
    · rw [getElem?_eq_none (by simp; omega)] at isV
      cases isV

theorem Packed.read {bitfield : BitVec 32} {sizes : List Nat} (packed : Packed bitfield sizes)
    (few : sizes.length ≤ 12) (positive : ∀ w ∈ sizes, 1 ≤ w) :
    (List.range (monoMetadataTableCount (BitVec.ofNat 32 sizes.length <<< 24 ||| bitfield))).map
        (monoMetadataTableSize (BitVec.ofNat 32 sizes.length <<< 24 ||| bitfield)) = sizes := by
  have bound : 4 ^ sizes.length ≤ 4 ^ 12 := Nat.pow_le_pow_right (by decide) few
  have below : bitfield.toNat < 2 ^ 24 := Nat.lt_of_lt_of_le packed.below bound
  have count : (BitVec.ofNat 32 sizes.length <<< 24).toNat = 2 ^ 24 * sizes.length := by
    rw [BitVec.toNat_shiftLeft, BitVec.toNat_ofNat, Nat.shiftLeft_eq]
    omega
  have isSum : (BitVec.ofNat 32 sizes.length <<< 24 ||| bitfield).toNat
      = 2 ^ 24 * sizes.length + bitfield.toNat := by
    rw [BitVec.toNat_or, count, ← Nat.two_pow_add_eq_or_of_lt below]
  have isCount : monoMetadataTableCount (BitVec.ofNat 32 sizes.length <<< 24 ||| bitfield)
      = sizes.length := by
    rw [monoMetadataTableCount, BitVec.toNat_ushiftRight, isSum, Nat.shiftRight_eq_div_pow]
    omega
  rw [isCount]
  apply ext_getElem?
  intro j
  rcases Nat.lt_or_ge j sizes.length with inside | outside
  · have isSize : sizes[j]? = some sizes[j] := getElem?_eq_getElem inside
    have least := positive _ (mem_of_getElem? isSize)
    have digit := packed.digit j _ isSize
    have isPow : 2 ^ (j * 2) = 4 ^ j := by rw [Nat.mul_comm, Nat.pow_mul]
    obtain ⟨k, isLength⟩ : ∃ k, 12 = j + 1 + k := ⟨12 - (j + 1), by omega⟩
    have split : 2 ^ 24 * sizes.length = 4 ^ j * (4 * (4 ^ k * sizes.length)) := by
      rw [show 2 ^ 24 = 4 ^ 12 by decide, isLength, Nat.pow_add, Nat.pow_add, Nat.pow_one]
      ac_rfl
    have isDigit : monoMetadataTableSize (BitVec.ofNat 32 sizes.length <<< 24 ||| bitfield) j
        = sizes[j] := by
      have mask := Nat.and_two_pow_sub_one_eq_mod
        ((4 ^ j * (4 * (4 ^ k * sizes.length)) + bitfield.toNat) / 4 ^ j) 2
      rw [monoMetadataTableSize, BitVec.toNat_and, BitVec.toNat_ushiftRight, isSum, split,
        Nat.shiftRight_eq_div_pow, isPow, show (0x3 : BitVec 32).toNat = 2 ^ 2 - 1 from rfl, mask,
        Nat.mul_add_div (Nat.pow_pos (by decide)), show 2 ^ 2 = 4 from rfl, Nat.mul_add_mod, digit]
      omega
    rw [getElem?_map, getElem?_range inside, Option.map_some, isDigit, isSize]
  · rw [getElem?_eq_none (by simpa using outside), getElem?_eq_none outside]

/-- The loop over the columns from column `done.length` on: the induction is on the columns. -/
theorem computeSizeLoop_spec (image : MonoImage) (table : MonoTable) (rest : List ColumnCode) :
    ∀ (codes : List ColumnCode) (todo done : List Nat) (bitfield : BitVec 32), codes.length = todo.length →
        (∀ j code w, codes[j]? = some code → todo[j]? = some w →
          code ≠ .mtEnd ∧ fieldSize image table (done.length + j) code = some w ∧ 1 ≤ w ∧ w ≤ 4) →
          (done ++ todo).length ≤ 12 → Packed bitfield done → ∃ packed, Packed packed (done ++ todo) ∧
              computeSizeLoop image table done.length (2 * done.length) done.sum bitfield (codes ++ .mtEnd :: rest)
                = some ((done ++ todo).sum, BitVec.ofNat 32 (done ++ todo).length <<< 24 ||| packed)
  | [], [], done, bitfield, _, _, _, packed => by
      rw [append_nil]
      exact ⟨bitfield, packed, rfl⟩
  | code :: codes, w :: todo, done, bitfield, length, sizes, few, packed => by
      obtain ⟨notEnd, isSize, positive, small⟩ := sizes 0 code w rfl rfl
      rw [Nat.add_zero] at isSize
      have room : done.length < 12 := by
        rw [length_append, length_cons] at few
        omega
      have split : done ++ w :: todo = done ++ [w] ++ todo := by
        rw [append_assoc]
        rfl
      obtain ⟨final, isPacked, run⟩ := computeSizeLoop_spec image table rest codes todo (done ++ [w])
        (bitfield ||| BitVec.ofNat 32 (w - 1) <<< (2 * done.length)) (Nat.succ.inj length)
        (fun j code' w' isCode isSize' => by
          have next := sizes (j + 1) code' w' isCode isSize'
          rw [length_append, length_singleton, Nat.add_assoc, Nat.add_comm 1]
          exact next)
        (by rwa [← split]) (packed.push positive small room)
      rw [← split] at isPacked run
      refine ⟨final, isPacked, ?_⟩
      rw [← run, cons_append, computeSizeLoop]
      · rw [isSize, length_append, length_singleton, sum_append, sum_singleton]
        rfl
      · exact notEnd

/-! ### The columns -/

/-- The columns of a table, up to the end marker. -/
def codesOf (table : MonoTable) : List ColumnCode :=
  (tableSchemas.drop (tableDescription table)).takeWhile (· ≠ .mtEnd)

theorem MonoTable.mem_all (table : MonoTable) : table ∈ MonoTable.all := by
  cases table <;> decide

/-- The offsets of `table_description` lead to columns that end with the marker. -/
theorem drop_tableDescription (table : MonoTable) :
    ∃ rest, tableSchemas.drop (tableDescription table) = codesOf table ++ .mtEnd :: rest := by
  have marked : ∀ t ∈ MonoTable.all,
      ((tableSchemas.drop (tableDescription t)).dropWhile (· ≠ .mtEnd)).head? = some .mtEnd := by
    decide
  obtain ⟨rest, isRest⟩ : ∃ rest,
      (tableSchemas.drop (tableDescription table)).dropWhile (· ≠ .mtEnd) = .mtEnd :: rest :=
    head?_eq_some_iff.1 (marked table table.mem_all)
  exact ⟨rest, by rw [codesOf, ← isRest, takeWhile_append_dropWhile]⟩

/-- The columns that are an index into a table or into one of two. -/
def tableColumns : List (MonoTable × Nat × EcmaColumn) :=
  [(.assemblyRefOs, 3, .simple .assemblyRef), (.assemblyRefProcessor, 1, .simple .assemblyRef),
   (.classLayout, 2, .simple .typeDef), (.eventMap, 0, .simple .typeDef), (.eventMap, 1, .simple .event),
   (.eventPointer, 0, .simple .event), (.exportedType, 1, .fixed 4), (.fieldLayout, 1, .simple .field),
   (.fieldRva, 1, .simple .field), (.fieldPointer, 0, .simple .field), (.implMap, 3, .simple .moduleRef),
   (.interfaceImpl, 0, .simple .typeDef), (.method, 5, .simple .param), (.methodImpl, 0, .simple .typeDef),
   (.methodSemantics, 1, .simple .method), (.methodPointer, 0, .simple .method),
   (.nestedClass, 0, .simple .typeDef), (.nestedClass, 1, .simple .typeDef),
   (.paramPointer, 0, .simple .param), (.propertyMap, 0, .simple .typeDef),
   (.propertyMap, 1, .simple .property), (.propertyPointer, 0, .simple .property),
   (.typeDef, 4, .simple .field), (.typeDef, 5, .simple .method),
   (.genericParam, 2, .coded .typeOrMethodDef), (.genericParamConstraint, 0, .simple .genericParam)]

/-- The columns whose size does not depend on the table, apart from HasCustomAttribute. -/
def plainColumns : List (ColumnCode × EcmaColumn) :=
  [(.uint32, .fixed 4), (.uint16, .fixed 2), (.uint8, .fixed 1), (.blobIdx, .blob), (.stringIdx, .string),
   (.guidIdx, .guid), (.constIdx, .coded .hasConstant), (.catIdx, .coded .customAttributeType),
   (.hasdecIdx, .coded .hasDeclSecurity), (.implIdx, .coded .implementation),
   (.hfmIdx, .coded .hasFieldMarshal), (.mfIdx, .coded .memberForwarded),
   (.tdorIdx, .coded .typeDefOrRef), (.mrpIdx, .coded .memberRefParent),
   (.mdorIdx, .coded .methodDefOrRef), (.hsIdx, .coded .hasSemantics), (.rsIdx, .coded .resolutionScope)]

/-- Column `i` of a table stands for a column of the standard. -/
def Realizes (table : MonoTable) (i : Nat) (code : ColumnCode) (column : EcmaColumn) : Prop :=
  (code = .tableIdx ∧ (table, i, column) ∈ tableColumns) ∨ (code, column) ∈ plainColumns ∨
    (table = .customAttribute ∧ code = .hascatIdx ∧ column = .coded .hasCustomAttribute)

instance (table : MonoTable) (i : Nat) (code : ColumnCode) (column : EcmaColumn) :
    Decidable (Realizes table i code column) :=
  inferInstanceAs (Decidable (_ ∨ _))

theorem codesOf_realize (table : MonoTable) : (codesOf table).length = (ecmaColumns table).length ∧
    ∀ j code column, (codesOf table)[j]? = some code → (ecmaColumns table)[j]? = some column →
      Realizes table j code column := by
  have all : ∀ t ∈ MonoTable.all, (codesOf t).length = (ecmaColumns t).length ∧
      (codesOf t).length ≤ 9 ∧
      ∀ j < 9, ∀ code ∈ (codesOf t)[j]?, ∀ column ∈ (ecmaColumns t)[j]?, Realizes t j code column := by
    decide
  obtain ⟨length, few, realize⟩ := all table table.mem_all
  refine ⟨length, fun j code column isCode isColumn => ?_⟩
  obtain ⟨inside, _⟩ := List.getElem?_eq_some_iff.1 isCode
  exact realize j (by omega) code isCode column isColumn

section Sizes

variable {heapSizes : BitVec 8} {rows : MonoTable → BitVec 24}

theorem maxRows_lt {image : MonoImage} {n : Nat} (first second : MonoTable) : ∀ (more : List MonoTable),
    maxRows image first second more < n ↔ ∀ t ∈ first :: second :: more, image.rowCount t < n := by
  have grows : ∀ (more : List MonoTable) (most : Nat),
      more.foldl (fun n table => max n (image.rowCount table)) most < n ↔
        most < n ∧ ∀ t ∈ more, image.rowCount t < n := by
    intro more
    induction more with
    | nil => simp
    | cons t more ih =>
      intro most
      rw [foldl_cons, ih, forall_mem_cons, Nat.max_lt, and_assoc]
  intro more
  rw [maxRows, grows, forall_mem_cons, forall_mem_cons, Nat.max_lt, and_assoc]

/-- A coded index has its width when the list of the code has the tables of the standard. -/
theorem rtsize_eq (index : CodedIndex) (first second : MonoTable) (more : List MonoTable)
    (complete : index.tables ⊆ first :: second :: more) (sound : first :: second :: more ⊆ index.tables) :
    rtsize (maxRows (loadTables heapSizes rows) first second more) (16 - index.tagBits)
      = ecmaWidth heapSizes rows (.coded index) := by
  have same : maxRows (loadTables heapSizes rows) first second more < 2 ^ (16 - index.tagBits) ↔
      ∀ t ∈ index.tables, (rows t).toNat < 2 ^ (16 - index.tagBits) := by
    rw [maxRows_lt]
    exact ⟨fun all t member => all t (complete member), fun all t member => all t (sound member)⟩
  rw [rtsize, Nat.one_shiftLeft, ecmaWidth]
  exact if_congr same rfl rfl

theorem heapFlags (heapSizes : BitVec 8) : (heapSizes &&& 0x01 = 1 ↔ heapSizes.getLsbD 0 = true) ∧
      (heapSizes &&& 0x02 = 2 ↔ heapSizes.getLsbD 1 = true) ∧ (heapSizes &&& 0x04 = 4 ↔ heapSizes.getLsbD 2 = true) := by
  have all : ∀ n : Fin (2 ^ 8), ((⟨n⟩ : BitVec 8) &&& 0x01 = 1 ↔ (⟨n⟩ : BitVec 8).getLsbD 0 = true) ∧
      ((⟨n⟩ : BitVec 8) &&& 0x02 = 2 ↔ (⟨n⟩ : BitVec 8).getLsbD 1 = true) ∧
      ((⟨n⟩ : BitVec 8) &&& 0x04 = 4 ↔ (⟨n⟩ : BitVec 8).getLsbD 2 = true) := by
    decide +kernel
  exact all heapSizes.toFin

theorem heapSize_eq {flag bit : Prop} [Decidable flag] [Decidable bit] (same : flag ↔ bit) :
    heapSize (decide flag) = if bit then 4 else 2 := by
  exact if_congr (decide_eq_true_iff.trans same) rfl rfl

theorem tableColumns_sizes : ∀ x ∈ tableColumns,
    tableIdxSize (loadTables heapSizes rows) x.1 x.2.1 = some (ecmaWidth heapSizes rows x.2.2) := by
  have typeOrMethod : rtsize (maxRows (loadTables heapSizes rows) .method .typeDef [])
      (16 - monoTypeormethodBits) = ecmaWidth heapSizes rows (.coded .typeOrMethodDef) :=
    rtsize_eq .typeOrMethodDef .method .typeDef [] (by decide) (by decide)
  simp only [tableColumns, forall_mem_cons, not_mem_nil, false_implies, implies_true, and_true]
  exact ⟨rfl, rfl, rfl, rfl, rfl, rfl, rfl, rfl, rfl, rfl, rfl, rfl, rfl, rfl, rfl, rfl, rfl, rfl, rfl,
    rfl, rfl, rfl, rfl, rfl, congrArg some typeOrMethod, rfl⟩

theorem plainColumns_sizes (table : MonoTable) (i : Nat) : ∀ x ∈ plainColumns,
    fieldSize (loadTables heapSizes rows) table i x.1 = some (ecmaWidth heapSizes rows x.2) := by
  obtain ⟨string, guid, blob⟩ := heapFlags heapSizes
  simp only [plainColumns, forall_mem_cons, not_mem_nil, false_implies, implies_true, and_true]
  exact ⟨rfl, rfl, rfl, congrArg some (heapSize_eq blob), congrArg some (heapSize_eq string),
    congrArg some (heapSize_eq guid),
    congrArg some (rtsize_eq .hasConstant .param .field [.property] (by decide) (by decide)),
    congrArg some (rtsize_eq .customAttributeType .method .memberRef [] (by decide) (by decide)),
    congrArg some (rtsize_eq .hasDeclSecurity .typeDef .method [.assembly] (by decide) (by decide)),
    congrArg some (rtsize_eq .implementation .file .assemblyRef [.exportedType] (by decide) (by decide)),
    congrArg some (rtsize_eq .hasFieldMarshal .field .param [] (by decide) (by decide)),
    congrArg some (rtsize_eq .memberForwarded .field .method [] (by decide) (by decide)),
    congrArg some (rtsize_eq .typeDefOrRef .typeDef .typeRef [.typeSpec] (by decide) (by decide)),
    congrArg some (rtsize_eq .memberRefParent .typeDef .typeRef [.method, .moduleRef, .typeSpec]
      (by decide) (by decide)),
    congrArg some (rtsize_eq .methodDefOrRef .method .memberRef [] (by decide) (by decide)),
    congrArg some (rtsize_eq .hasSemantics .property .event [] (by decide) (by decide)),
    congrArg some (rtsize_eq .resolutionScope .moduleTable .moduleRef [.assemblyRef, .typeRef]
      (by decide) (by decide))⟩

variable {table : MonoTable}

/-- A column of the code has the width of the standard, apart from HasCustomAttribute. -/
theorem fieldSize_eq {i : Nat} {code : ColumnCode} {column : EcmaColumn} (realizes : Realizes table i code column)
    (other : code ≠ .hascatIdx) :
    fieldSize (loadTables heapSizes rows) table i code = some (ecmaWidth heapSizes rows column) := by
  rcases realizes with ⟨rfl, member⟩ | member | ⟨_, isParent, _⟩
  · exact tableColumns_sizes _ member
  · exact plainColumns_sizes table i _ member
  · exact absurd isParent other

/-- HasCustomAttribute has its width when the tables that are left out do not matter. -/
theorem hascat_eq_iff (heapSizes : BitVec 8) (table : MonoTable) (i : Nat) :
    fieldSize (loadTables heapSizes rows) table i .hascatIdx
        = some (ecmaWidth heapSizes rows (.coded .hasCustomAttribute)) ↔ ForgottenHarmless rows := by
  have small : maxRows (loadTables heapSizes rows) .method .field [.typeRef, .typeDef, .param,
      .interfaceImpl, .memberRef, .moduleTable, .declSecurity, .property, .event, .standAloneSig,
      .moduleRef, .typeSpec, .assembly, .assemblyRef, .file, .exportedType, .manifestResource] < 2 ^ 11 ↔
      ∀ t ∈ CodedIndex.hasCustomAttribute.tables, t ∉ forgottenTables → (rows t).toNat < 2 ^ 11 := by
    have split : ∀ t, t ∈ [MonoTable.method, .field, .typeRef, .typeDef, .param, .interfaceImpl,
        .memberRef, .moduleTable, .declSecurity, .property, .event, .standAloneSig, .moduleRef, .typeSpec,
        .assembly, .assemblyRef, .file, .exportedType, .manifestResource] ↔
        t ∈ CodedIndex.hasCustomAttribute.tables ∧ t ∉ forgottenTables := by
      intro t
      cases t <;> decide
    rw [maxRows_lt]
    exact ⟨fun all t member other => all t ((split t).2 ⟨member, other⟩),
      fun all t member => all t ((split t).1 member).1 ((split t).1 member).2⟩
  have forgotten : ∀ t ∈ forgottenTables, t ∈ CodedIndex.hasCustomAttribute.tables := by decide
  have size : fieldSize (loadTables heapSizes rows) table i .hascatIdx
      = some (if ∀ t ∈ CodedIndex.hasCustomAttribute.tables, t ∉ forgottenTables →
          (rows t).toNat < 2 ^ 11 then 2 else 4) := by
    exact congrArg some (if_congr small rfl rfl)
  have width : ecmaWidth heapSizes rows (.coded .hasCustomAttribute)
      = if ∀ t ∈ CodedIndex.hasCustomAttribute.tables, (rows t).toNat < 2 ^ 11 then 2 else 4 := rfl
  rw [size, width, Option.some.injEq]
  constructor
  · intro same
    by_cases others : ∀ t ∈ CodedIndex.hasCustomAttribute.tables, t ∉ forgottenTables →
        (rows t).toNat < 2 ^ 11
    · rw [if_pos others] at same
      split at same
      next all => exact Or.inl fun t member => all t (forgotten t member)
      next => cases same
    · simp only [not_forall, Nat.not_lt] at others
      obtain ⟨t, member, other, large⟩ := others
      exact Or.inr ⟨t, member, other, large⟩
  · rintro (few | ⟨t, member, other, large⟩)
    · refine if_congr ⟨fun others t member => ?_, fun all t member _ => all t member⟩ rfl rfl
      by_cases isForgotten : t ∈ forgottenTables
      · exact few t isForgotten
      · exact others t member isForgotten
    · rw [if_neg fun all => absurd (all t member other) (by omega),
        if_neg fun all => absurd (all t member) (by omega)]

/-- A fixed width is at least 1 and at most 4. -/
def EcmaColumn.sized : EcmaColumn → Bool
  | .fixed bytes => decide (1 ≤ bytes ∧ bytes ≤ 4)
  | _ => true

theorem ecmaWidth_bounds {column : EcmaColumn} (isColumn : column ∈ ecmaColumns table) :
    1 ≤ ecmaWidth heapSizes rows column ∧ ecmaWidth heapSizes rows column ≤ 4 := by
  have all : ∀ t ∈ MonoTable.all, ∀ c ∈ ecmaColumns t, c.sized = true := by decide
  have sized := all table table.mem_all column isColumn
  cases column with
  | fixed bytes => exact of_decide_eq_true sized
  | _ =>
    simp only [ecmaWidth]
    split <;> omega

theorem length_ecmaColumns (table : MonoTable) : (ecmaColumns table).length ≤ 9 := by
  have all : ∀ t ∈ MonoTable.all, (ecmaColumns t).length ≤ 9 := by decide
  exact all table table.mem_all

theorem getElem?_ecmaWidths {j w : Nat} (isWidth : (ecmaWidths heapSizes rows table)[j]? = some w) :
    ∃ column, (ecmaColumns table)[j]? = some column ∧ ecmaWidth heapSizes rows column = w := by
  rw [ecmaWidths, getElem?_map, Option.map_eq_some_iff] at isWidth
  exact isWidth

theorem ecmaRowSize_lt (table : MonoTable) : ecmaRowSize heapSizes rows table < 2 ^ 8 := by
  have bound : ∀ w ∈ ecmaWidths heapSizes rows table, w ≤ 4 := by
    intro w member
    obtain ⟨column, isColumn, rfl⟩ := mem_map.1 member
    exact (ecmaWidth_bounds isColumn).2
  have sum : ∀ (widths : List Nat), (∀ w ∈ widths, w ≤ 4) → widths.sum ≤ 4 * widths.length := by
    intro widths small
    induction widths with
    | nil => exact Nat.zero_le _
    | cons w widths ih =>
      have head := small w mem_cons_self
      have tail := ih fun v member => small v (mem_cons_of_mem w member)
      rw [sum_cons, length_cons]
      omega
  have few := length_ecmaColumns table
  have total := sum _ bound
  rw [ecmaWidths, length_map] at total
  rw [ecmaRowSize, ecmaWidths]
  omega

/-! ### Rows -/

theorem computeSize_spec (image : MonoImage) (table : MonoTable) (sizes : List Nat)
    (length : (codesOf table).length = sizes.length) (few : sizes.length ≤ 9)
    (isSize : ∀ j code w, (codesOf table)[j]? = some code → sizes[j]? = some w →
      fieldSize image table j code = some w ∧ 1 ≤ w ∧ w ≤ 4) :
    ∃ bitfield, monoMetadataComputeSize image table = some (sizes.sum, bitfield) ∧
      (List.range (monoMetadataTableCount bitfield)).map (monoMetadataTableSize bitfield) = sizes := by
  obtain ⟨rest, split⟩ := drop_tableDescription table
  obtain ⟨packed, isPacked, run⟩ := computeSizeLoop_spec image table rest
    (codesOf table) sizes [] 0 length (fun j code w isCode isW => by
      have notEnd := all_eq_true.1 all_takeWhile code (mem_of_getElem? isCode)
      rw [length_nil, Nat.zero_add]
      exact ⟨of_decide_eq_true notEnd, isSize j code w isCode isW⟩)
    (by rw [nil_append]; omega) packed_nil
  rw [nil_append] at isPacked run
  refine ⟨_, by rw [monoMetadataComputeSize, split]; exact run, isPacked.read (by omega) ?_⟩
  intro w member
  obtain ⟨j, isW⟩ := mem_iff_getElem?.1 member
  obtain ⟨inside, _⟩ := List.getElem?_eq_some_iff.1 isW
  exact (isSize j _ w (getElem?_eq_getElem (by omega)) isW).2.1

theorem layoutMatches_of_sizes
    (isSize : ∀ j code column, (codesOf table)[j]? = some code → (ecmaColumns table)[j]? = some column →
      fieldSize (loadTables heapSizes rows) table j code = some (ecmaWidth heapSizes rows column)) :
    LayoutMatches heapSizes rows table := by
  obtain ⟨length, _⟩ := codesOf_realize table
  have few := length_ecmaColumns table
  obtain ⟨bitfield, run, reads⟩ := computeSize_spec (loadTables heapSizes rows) table
    (ecmaWidths heapSizes rows table) (by rw [length, ecmaWidths, length_map])
    (by rwa [ecmaWidths, length_map]) (fun j code w isCode isWidth => by
      obtain ⟨column, isColumn, rfl⟩ := getElem?_ecmaWidths isWidth
      exact ⟨isSize j code column isCode isColumn, ecmaWidth_bounds (mem_of_getElem? isColumn)⟩)
  exact ⟨_, bitfield, run, rfl, reads⟩

theorem layoutMatches_of_ne (other : table ≠ .customAttribute) : LayoutMatches heapSizes rows table := by
  refine layoutMatches_of_sizes fun j code column isCode isColumn => ?_
  have realizes := (codesOf_realize table).2 j code column isCode isColumn
  refine fieldSize_eq realizes fun isParent => ?_
  subst isParent
  rcases realizes with ⟨isIndex, _⟩ | member | ⟨isTable, _⟩
  · cases isIndex
  · exact absurd member (by simp [plainColumns])
  · exact other isTable

theorem layoutMatches_customAttribute_iff (heapSizes : BitVec 8) :
    LayoutMatches heapSizes rows .customAttribute ↔ ForgottenHarmless rows := by
  have codes : codesOf .customAttribute = [.hascatIdx, .catIdx, .blobIdx] := by decide
  have others : ∀ j code column, (codesOf .customAttribute)[j + 1]? = some code →
      (ecmaColumns .customAttribute)[j + 1]? = some column →
        fieldSize (loadTables heapSizes rows) .customAttribute (j + 1) code
          = some (ecmaWidth heapSizes rows column) := by
    intro j code column isCode isColumn
    refine fieldSize_eq ((codesOf_realize .customAttribute).2 _ _ _ isCode isColumn) fun isParent => ?_
    have behind : code ∈ [ColumnCode.catIdx, .blobIdx] := by
      rw [codes, getElem?_cons_succ] at isCode
      exact mem_of_getElem? isCode
    rw [isParent] at behind
    exact absurd behind (by decide)
  rw [← hascat_eq_iff heapSizes .customAttribute 0]
  constructor
  · rintro ⟨size, bitfield, run, _, reads⟩
    obtain ⟨w, isParent, bounds⟩ : ∃ w,
        fieldSize (loadTables heapSizes rows) .customAttribute 0 .hascatIdx = some w ∧ 1 ≤ w ∧ w ≤ 4 := by
      refine ⟨_, rfl, ?_⟩
      unfold rtsize
      split <;> omega
    -- The bit field has the size of the code in its first place.
    obtain ⟨bitfield', run', reads'⟩ := computeSize_spec (loadTables heapSizes rows)
      .customAttribute (w :: (ecmaWidths heapSizes rows .customAttribute).tail) rfl
      (by simp [ecmaWidths, ecmaColumns]) (fun j code v isCode isV => by
        cases j with
        | zero =>
          cases isCode
          cases isV
          exact ⟨isParent, bounds⟩
        | succ j =>
          rw [getElem?_cons_succ, ← getElem?_cons_succ (a := w)] at isV
          obtain ⟨column, isColumn, rfl⟩ : ∃ column, (ecmaColumns .customAttribute)[j + 1]? = some column ∧
              ecmaWidth heapSizes rows column = v := getElem?_ecmaWidths (by simpa using isV)
          exact ⟨others j code column isCode isColumn, ecmaWidth_bounds (mem_of_getElem? isColumn)⟩)
    rw [run] at run'
    cases run'
    rw [isParent, (List.cons.inj (reads'.symm.trans reads)).1]
  · intro parent
    refine layoutMatches_of_sizes fun j code column isCode isColumn => ?_
    cases j with
    | zero =>
      cases isCode
      cases isColumn
      exact parent
    | succ j => exact others j code column isCode isColumn

/-! ### Bases -/

/-- The tables follow each other: the induction is on the tables, for any base. -/
theorem tableBasesLoop_spec (layouts : ∀ table, LayoutMatches heapSizes rows table) :
    ∀ (tables : List MonoTable) (base : Nat),
      ∃ infos, tableBasesLoop (loadTables heapSizes rows) base tables = some infos ∧
        ∀ table ∈ tables, rows table ≠ 0 → ∃ info, (table, info) ∈ infos ∧
          info.base = base + ecmaTablesSize heapSizes rows (tables.takeWhile (· ≠ table)) ∧
          info.rows = (rows table).toNat ∧ info.rowSize.toNat = ecmaRowSize heapSizes rows table ∧
          (List.range (monoMetadataTableCount info.sizeBitfield)).map
            (monoMetadataTableSize info.sizeBitfield) = ecmaWidths heapSizes rows table
  | [], base => ⟨[], rfl, fun _ member => by cases member⟩
  | first :: tables, base => by
      have count : (loadTables heapSizes rows).rowCount first = (rows first).toNat := rfl
      by_cases empty : rows first = 0
      · obtain ⟨infos, run, spec⟩ := tableBasesLoop_spec layouts tables base
        have noRows : (loadTables heapSizes rows).rowCount first = 0 := by rw [count, empty]; rfl
        refine ⟨infos, by rw [tableBasesLoop, if_pos noRows, run], fun table member hasRows => ?_⟩
        have other : first ≠ table := fun same => hasRows (same ▸ empty)
        obtain ⟨info, isInfo, isBase, rest⟩ :=
          spec table ((mem_cons.1 member).resolve_left other.symm) hasRows
        refine ⟨info, isInfo, ?_, rest⟩
        rw [isBase, takeWhile_cons_of_pos (by simpa using other), ecmaTablesSize, ecmaTablesSize,
          map_cons, sum_cons, ← count, noRows, Nat.zero_mul, Nat.zero_add]
      · obtain ⟨size, bitfield, isLayout, isSize, reads⟩ := layouts first
        have rowSize : (BitVec.ofNat 8 size).toNat = ecmaRowSize heapSizes rows first := by
          rw [isSize, BitVec.toNat_ofNat]
          exact Nat.mod_eq_of_lt (ecmaRowSize_lt first)
        obtain ⟨infos, run, spec⟩ := tableBasesLoop_spec layouts tables
          (base + (rows first).toNat * ecmaRowSize heapSizes rows first)
        have someRows : (loadTables heapSizes rows).rowCount first ≠ 0 := fun none =>
          empty (BitVec.eq_of_toNat_eq none)
        refine ⟨(first, ⟨base, (rows first).toNat, BitVec.ofNat 8 size, bitfield⟩) :: infos, ?_,
          fun table member hasRows => ?_⟩
        · rw [tableBasesLoop, if_neg someRows, isLayout]
          simp only [bind, Option.bind, count, rowSize, run]
          rfl
        · by_cases same : first = table
          · subst same
            refine ⟨_, mem_cons_self, ?_, rfl, rowSize, reads⟩
            rw [takeWhile_cons_of_neg (by simp)]
            rfl
          · obtain ⟨info, isInfo, isBase, rest⟩ :=
              spec table ((mem_cons.1 member).resolve_left (Ne.symm same)) hasRows
            refine ⟨info, mem_cons_of_mem _ isInfo, ?_, rest⟩
            rw [isBase, takeWhile_cons_of_pos (by simpa using same), ecmaTablesSize, ecmaTablesSize,
              map_cons, sum_cons, Nat.add_assoc]

theorem decodesRows_of_layouts (layouts : ∀ table, LayoutMatches heapSizes rows table) : DecodesRows heapSizes rows := by
  obtain ⟨infos, run, spec⟩ := tableBasesLoop_spec layouts MonoTable.all 0
  refine ⟨infos, run, fun table hasRows => ?_⟩
  obtain ⟨info, isInfo, isBase, isRows, rowSize, reads⟩ := spec table table.mem_all hasRows
  refine ⟨info, isInfo, fun idx inTable col width isWidth => ?_⟩
  rw [Nat.zero_add] at isBase
  have count : monoMetadataTableCount info.sizeBitfield = (ecmaWidths heapSizes rows table).length := by
    have length := congrArg List.length reads
    rwa [length_map, length_range] at length
  obtain ⟨inside, _⟩ := List.getElem?_eq_some_iff.1 isWidth
  have before : (List.range col).map (monoMetadataTableSize info.sizeBitfield)
      = (ecmaWidths heapSizes rows table).take col := by
    rw [← reads, ← map_take, take_range, count, Nat.min_eq_left (Nat.le_of_lt inside)]
  have isColumn : monoMetadataTableSize info.sizeBitfield col = width := by
    rw [← reads, getElem?_map, getElem?_range (by omega)] at isWidth
    exact Option.some.inj isWidth
  rw [monoMetadataDecodeRowCol, if_pos ⟨by omega, by omega⟩, before, isColumn, isBase, rowSize]
  rfl

/-- All layouts are those of the standard exactly when no table that the list for HasCustomAttribute leaves
out makes that index wide alone; then every column of every row is read where it is. All other tables always
have their layouts. -/
theorem computeSize_matches_iff (heapSizes : BitVec 8) (rows : MonoTable → BitVec 24) :
    ((∀ table, LayoutMatches heapSizes rows table) ↔ ForgottenHarmless rows) ∧
      (ForgottenHarmless rows → DecodesRows heapSizes rows) ∧
      ∀ table, table ≠ .customAttribute → LayoutMatches heapSizes rows table := by
  have layouts : (∀ table, LayoutMatches heapSizes rows table) ↔ ForgottenHarmless rows := by
    rw [← layoutMatches_customAttribute_iff heapSizes]
    refine ⟨fun all => all _, fun parent table => ?_⟩
    by_cases isParent : table = .customAttribute
    · exact isParent ▸ parent
    · exact layoutMatches_of_ne isParent
  exact ⟨layouts, fun harmless => decodesRows_of_layouts (layouts.2 harmless),
    fun table other => layoutMatches_of_ne other⟩

end Sizes

/-- 2048 generic parameters, and no other table that has more than a few rows. -/
def genericRows : MonoTable → BitVec 24
  | .genericParam => 2048
  | _ => 8

/-- The first column of CustomAttribute has two bytes where the standard has four. -/
theorem computeSize_narrows_parent : ¬ LayoutMatches 0 genericRows .customAttribute := by
  rintro ⟨size, bitfield, run, isSize, _⟩
  have isRun : monoMetadataComputeSize (loadTables 0 genericRows) .customAttribute
      = some (6, 0x03000015) := by
    decide
  have isEcma : ecmaRowSize 0 genericRows .customAttribute = 8 := by
    decide
  rw [isRun] at run
  cases run
  omega

end MonoRuntime.Metadata
