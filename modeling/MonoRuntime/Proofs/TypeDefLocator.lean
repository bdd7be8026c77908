/-
Module: MonoRuntime.Proofs.TypeDefLocator
Purpose: Where the lists of the types start at 1 and never go down, exactly one type owns a member, and the
  comparison of the search singles out its row: rows before it end at or before the member, rows behind it
  start behind the member, however many types own nothing.
Trusted boundary: none
Main exports: typedefFrom_findsOwner
-/
import MonoRuntime.Metadata.TypeDefLocator
import Mathlib.Data.List.Pairwise

namespace MonoRuntime.Metadata

open List Option

/-! ### Owners -/

section Owner

variable {starts : List (BitVec 32)} {count : Nat} {idx : BitVec 32}

theorem MemberLists.le (lists : MemberLists starts) {i j : Nat} {x y : BitVec 32} (isX : starts[i]? = some x)
    (isY : starts[j]? = some y) (notAfter : i ≤ j) : x.toNat ≤ y.toNat := by
  obtain ⟨insideX, rfl⟩ := List.getElem?_eq_some_iff.1 isX
  obtain ⟨insideY, rfl⟩ := List.getElem?_eq_some_iff.1 isY
  rcases Nat.eq_or_lt_of_le notAfter with rfl | before
  · exact Nat.le_refl _
  · exact pairwise_iff_getElem.1 lists.sorted i j insideX insideY before

theorem Owns.unique (lists : MemberLists starts) {r r' : Nat} (owns : Owns starts count r idx)
    (owns' : Owns starts count r' idx) : r' = r := by
  have apart : ∀ {r r' : Nat}, Owns starts count r idx → Owns starts count r' idx → ¬ r < r' := by
    rintro r r' ⟨_, _, _, ends⟩ ⟨start', isStart', low', _⟩ before
    obtain ⟨inside', _⟩ := List.getElem?_eq_some_iff.1 isStart'
    have isNext : starts[r + 1]? = some starts[r + 1] := getElem?_eq_getElem (by omega)
    have notAfter := lists.le isNext isStart' before
    rw [isNext, map_some, getD_some] at ends
    omega
  rcases Nat.lt_trichotomy r' r with less | same | more
  · exact absurd less (apart owns' owns)
  · exact same
  · exact absurd more (apart owns owns')

/-- The last list that does not start behind the member: the induction is on the rows before it. -/
theorem exists_owner (lists : MemberLists starts) (positive : 1 ≤ idx.toNat) (inside : idx.toNat ≤ count) :
    ∃ r, Owns starts count r idx := by
  obtain ⟨rest, isStarts⟩ := head?_eq_some_iff.1 lists.first
  have search : ∀ (k r : Nat) (start : BitVec 32), starts.length = r + 1 + k → starts[r]? = some start →
      start.toNat ≤ idx.toNat → ∃ r, Owns starts count r idx := by
    intro k
    induction k with
    | zero =>
      intro r start length isStart low
      refine ⟨r, start, isStart, low, ?_⟩
      rw [getElem?_eq_none (by omega)]
      exact Nat.lt_succ_of_le inside
    | succ k ih =>
      intro r start length isStart low
      have isNext : starts[r + 1]? = some starts[r + 1] := getElem?_eq_getElem (by omega)
      rcases Nat.lt_or_ge idx.toNat (starts[r + 1]).toNat with ends | goesOn
      · refine ⟨r, start, isStart, low, ?_⟩
        rw [isNext]
        exact ends
      · exact ih (r + 1) _ (by omega) isNext goesOn
  have length : starts.length = rest.length + 1 := by rw [isStarts, length_cons]
  exact search rest.length 0 1 (by omega) (by rw [isStarts]; rfl) positive

end Owner

/-! ### The comparison -/

section Search

variable {image : DecodedImage} {colIdx : Nat}

theorem DecodedImage.decodeRowCol (image : DecodedImage) {table : MonoTable} {col : Nat}
    (hasColumn : col < (ecmaColumns table).length) (i : Nat) :
    (image.tables table).decodeRowCol i col = ((image.tables table).column col)[i]? := by
  rw [TableRows.decodeRowCol, TableRows.column, getElem?_map]
  cases isRow : (image.tables table)[i]? with
  | none => rfl
  | some row =>
    have shaped := image.shaped table row (mem_of_getElem? isRow)
    have isSome : row[col]? = some row[col] := getElem?_eq_getElem (by omega)
    rw [bind_some, map_some, isSome, getD_eq_getElem?_getD, isSome]
    rfl

theorem typedefLocator_singlesOut {count r : Nat} {idx : BitVec 32}
    (hasColumn : colIdx < (ecmaColumns .typeDef).length) (lists : MemberLists ((image.tables .typeDef).column colIdx))
    (owns : Owns ((image.tables .typeDef).column colIdx) count r idx) :
    SinglesOut typedefLocator (image.tables .typeDef).length r ⟨idx, colIdx, image.tables .typeDef, 0⟩
      ⟨idx, colIdx, image.tables .typeDef, r⟩ := by
  have length : ((image.tables .typeDef).column colIdx).length = (image.tables .typeDef).length :=
    length_map _
  have decode := fun i => image.decodeRowCol hasColumn i
  obtain ⟨start, isStart, low, ends⟩ := owns
  obtain ⟨inside, _⟩ := List.getElem?_eq_some_iff.1 isStart
  have below : ∀ {x : BitVec 32}, x.toNat ≤ idx.toNat → ¬ idx < x := fun notAfter less =>
    absurd (BitVec.lt_def.1 less) (Nat.not_lt.2 notAfter)
  constructor
  · omega
  · intro i before
    -- The next row does not start behind the owner.
    have isCol : ((image.tables .typeDef).column colIdx)[i]? = some _ := getElem?_eq_getElem (by omega)
    have isNext : ((image.tables .typeDef).column colIdx)[i + 1]? = some _ :=
      getElem?_eq_getElem (by omega)
    have next := Nat.le_trans (lists.le isNext isStart before) low
    have col := Nat.le_trans (lists.le isCol isStart (Nat.le_of_lt before)) low
    have inTable : i + 1 < (image.tables .typeDef).length := by omega
    simp only [typedefLocator, decode, isCol, isNext, bind, Option.bind, if_neg (below col), if_pos inTable,
      if_pos (BitVec.le_def.2 next)]
    rfl
  · simp only [typedefLocator, decode, isStart, bind, Option.bind, if_neg (below low)]
    split
    next inTable =>
      have isNext : ((image.tables .typeDef).column colIdx)[r + 1]? = some _ :=
        getElem?_eq_getElem (by omega)
      rw [isNext, map_some, getD_some] at ends
      have notAfter : ¬ idx ≥ ((image.tables .typeDef).column colIdx)[r + 1] := fun ge =>
        absurd (BitVec.le_def.1 ge) (Nat.not_le.2 ends)
      have other : start ≠ ((image.tables .typeDef).column colIdx)[r + 1] := fun same => by
        rw [← same] at ends
        omega
      simp only [isNext, if_neg notAfter, if_neg other]
      rfl
    next => rfl
  · intro i inTable behind
    -- The row does not start before the one behind the owner.
    have isCol : ((image.tables .typeDef).column colIdx)[i]? = some _ := getElem?_eq_getElem (by omega)
    have isNext : ((image.tables .typeDef).column colIdx)[r + 1]? = some _ :=
      getElem?_eq_getElem (by omega)
    have notAfter := lists.le isNext isCol behind
    rw [isNext, map_some, getD_some] at ends
    have less : idx < ((image.tables .typeDef).column colIdx)[i] := BitVec.lt_def.2 (by omega)
    simp only [typedefLocator, decode, isCol, bind, Option.bind, if_pos less]
    rfl

/-- The linear search gives the place of the first pointer to the member: the induction is on the rows. -/
theorem searchPtrLoop_eq (idx : BitVec 32) : ∀ (rows : TableRows) (i : Nat), (∀ row ∈ rows, 0 < row.length) →
      (∃ k, (rows.column 0)[k]? = some idx ∧ (∀ j < k, (rows.column 0)[j]? ≠ some idx) ∧
        searchPtrLoop idx i rows = some (BitVec.ofNat 32 (i + k + 1))) ∨
      (idx ∉ rows.column 0 ∧ searchPtrLoop idx i rows = some idx)
  | [], _, _ => Or.inr ⟨by simp [TableRows.column], rfl⟩
  | row :: rows, i, shaped => by
      have hasFirst := shaped row mem_cons_self
      have isFirst : row[0]? = some row[0] := getElem?_eq_getElem hasFirst
      have column : TableRows.column (row :: rows) 0 = row[0] :: TableRows.column rows 0 := by
        rw [TableRows.column, map_cons, getD_eq_getElem?_getD, isFirst]
        rfl
      rw [column, searchPtrLoop, isFirst]
      by_cases same : row[0] = idx
      · refine Or.inl ⟨0, by rw [← same]; rfl, fun j less => absurd less (Nat.not_lt_zero j), ?_⟩
        simp only [if_pos same]
      · have rest := searchPtrLoop_eq idx rows (i + 1) fun other member =>
          shaped other (mem_cons_of_mem row member)
        simp only [if_neg same]
        rcases rest with ⟨k, isIdx, before, run⟩ | ⟨notIn, run⟩
        · refine Or.inl ⟨k + 1, isIdx, fun j less => ?_, ?_⟩
          · cases j with
            | zero => exact fun isRow => same (Option.some.inj isRow)
            | succ j => exact before j (Nat.lt_of_succ_lt_succ less)
          · rw [run, Nat.add_right_comm i 1 k]
            rfl
        · refine Or.inr ⟨fun member => ?_, run⟩
          rcases mem_cons.1 member with isRow | inRest
          · exact same isRow.symm
          · exact notIn inRest

theorem mapIndex_eq {ptrTable : MonoTable} {idx mapped : BitVec 32} (hasColumn : 0 < (ecmaColumns ptrTable).length)
    (maps : MapsTo image ptrTable idx mapped) : mapIndex image ptrTable idx = some mapped := by
  unfold MapsTo at maps
  unfold mapIndex
  split at maps
  next uncompressed =>
    rw [if_pos uncompressed, searchPtrTable]
    rcases searchPtrLoop_eq idx (image.tables ptrTable) 0 (fun row member => by
        rw [image.shaped ptrTable row member]
        exact hasColumn) with ⟨k, isIdx, before, run⟩ | ⟨notIn, run⟩
    · rw [run, Nat.zero_add]
      rcases maps with ⟨i, isIdx', rfl, before'⟩ | ⟨_, notIn⟩
      · have same : i = k := by
          rcases Nat.lt_trichotomy i k with less | same | more
          · exact absurd isIdx' (before i less)
          · exact same
          · exact absurd isIdx (before' k more)
        rw [same]
      · exact absurd (mem_of_getElem? isIdx) notIn
    · rw [run]
      rcases maps with ⟨i, isIdx', _, _⟩ | ⟨rfl, _⟩
      · exact absurd (mem_of_getElem? isIdx') notIn
      · rfl
  next compressed => rw [if_neg compressed, maps]

theorem typedefFromMember_findsOwner {ptrTable : MonoTable} (hasColumn : colIdx < (ecmaColumns .typeDef).length)
    (hasPointer : 0 < (ecmaColumns ptrTable).length) (lists : MemberLists ((image.tables .typeDef).column colIdx)) :
    FindsOwner image (fun image index => typedefFromMember image colIdx ptrTable index)
      ((image.tables .typeDef).column colIdx) ptrTable := by
  intro index mapped count maps positive inside
  obtain ⟨r, owns⟩ := exists_owner lists positive inside
  have single := typedefLocator_singlesOut hasColumn lists owns
  refine ⟨r, ?_, owns, fun r' owns' => owns.unique lists owns'⟩
  have someRows : ¬ (image.tables .typeDef).length = 0 := fun none => by
    have := single.inside
    omega
  simp only [typedefFromMember, if_neg someRows, bind, Option.bind, mapIndex_eq hasPointer maps,
    bsearch_eq single]
  rfl

end Search

/-- Where the field lists start at 1 and never go down, `mono_metadata_typedef_from_field` gives the one type
that owns a field, and `mono_metadata_typedef_from_method` does the same for methods. -/
theorem typedefFrom_findsOwner (image : DecodedImage) :
    (MemberLists image.fieldLists →
      FindsOwner image monoMetadataTypedefFromField image.fieldLists .fieldPointer) ∧
    (MemberLists image.methodLists →
      FindsOwner image monoMetadataTypedefFromMethod image.methodLists .methodPointer) :=
  ⟨typedefFromMember_findsOwner (by decide) (by decide),
    typedefFromMember_findsOwner (by decide) (by decide)⟩

/-- Three types, the second of which owns nothing; the fields are reached through pointers. -/
def emptyTypeImage : DecodedImage where
  tables
    | .typeDef => [[0, 0, 0, 0, 1, 1], [0, 0, 0, 0, 3, 2], [0, 0, 0, 0, 3, 2]]
    | .fieldPointer => [[2], [1], [3], [4]]
    | _ => []
  uncompressedMetadata := true
  shaped table row member := by
    cases table <;> simp at member
    · rcases member with rfl | rfl | rfl <;> rfl
    · rcases member with rfl | rfl | rfl | rfl <;> rfl

theorem typedefFrom_findsOwner_emptyType :
    FindsOwner emptyTypeImage monoMetadataTypedefFromField emptyTypeImage.fieldLists .fieldPointer ∧
      FindsOwner emptyTypeImage monoMetadataTypedefFromMethod emptyTypeImage.methodLists .methodPointer :=
  ⟨(typedefFrom_findsOwner emptyTypeImage).1 ⟨by decide, by decide⟩,
    (typedefFrom_findsOwner emptyTypeImage).2 ⟨by decide, by decide⟩⟩

end MonoRuntime.Metadata
