/-
Module: MonoRuntime.Metadata.TypeDefLocator
Purpose: The search for the type that owns a field or a method in `metadata/metadata.c`: a type owns a range
  of members, which starts where its list column says and ends where the list of the next type starts. In
  uncompressed metadata the index of a member is first mapped through a table of pointers. A failed assertion
  aborts the process and is the result `none`.
Trusted boundary: human-reviewed translation of the source
Main exports: typedefLocator
-/
import MonoRuntime.Metadata.EcmaTables
import MonoRuntime.Lib.BinarySearch

namespace MonoRuntime.Metadata

/-- The decoded rows of a table, column by column. -/
abbrev TableRows := List (List (BitVec 32))

/-- `mono_metadata_decode_row_col`, with its assertions. -/
def TableRows.decodeRowCol (t : TableRows) (idx col : Nat) : Option (BitVec 32) :=
  t[idx]?.bind fun row => row[col]?

/-- The tables of an image, decoded; a row has the columns of its table. -/
structure DecodedImage where
  tables : MonoTable → TableRows
  uncompressedMetadata : Bool
  shaped : ∀ table, ∀ row ∈ tables table, row.length = (ecmaColumns table).length

/-- `MONO_TYPEDEF_FIELD_LIST` and `MONO_TYPEDEF_METHOD_LIST`. -/
def monoTypedefFieldList : Nat := 4
def monoTypedefMethodList : Nat := 5

/-- `locator_t`. -/
structure LocatorT where
  idx : BitVec 32
  colIdx : Nat
  t : TableRows
  result : Nat

/-- `typedef_locator`. -/
def typedefLocator (loc : LocatorT) (typedefIndex : Nat) : Option (Ordering × LocatorT) := do
  let col ← loc.t.decodeRowCol typedefIndex loc.colIdx
  if loc.idx < col then pure (.lt, loc)
  -- Need to check that the next row is valid.
  else if typedefIndex + 1 < loc.t.length then do
    let colNext ← loc.t.decodeRowCol (typedefIndex + 1) loc.colIdx
    if loc.idx ≥ colNext then pure (.gt, loc)
    else if col = colNext then pure (.gt, loc)
    else pure (.eq, { loc with result := typedefIndex })
  else pure (.eq, { loc with result := typedefIndex })

/-- The loop of `search_ptr_table` from row `i` on. -/
def searchPtrLoop (idx : BitVec 32) : (i : Nat) → TableRows → Option (BitVec 32)
  | _, [] => some idx
  | i, row :: rows =>
      match row[0]? with
      | none => none
      | some pointer => if pointer = idx then some (BitVec.ofNat 32 (i + 1)) else searchPtrLoop idx (i + 1) rows

/-- `search_ptr_table`. -/
def searchPtrTable (image : DecodedImage) (table : MonoTable) (idx : BitVec 32) : Option (BitVec 32) :=
  searchPtrLoop idx 0 (image.tables table)

/-- `mono_metadata_token_index`. -/
def monoMetadataTokenIndex (token : BitVec 32) : BitVec 32 :=
  token &&& 0xffffff

/-- The index that is searched, in uncompressed metadata through the table of pointers. -/
def mapIndex (image : DecodedImage) (ptrTable : MonoTable) (idx : BitVec 32) : Option (BitVec 32) :=
  if image.uncompressedMetadata then searchPtrTable image ptrTable idx else some idx

/-- The search in the column `colIdx`, after the mapping through `ptrTable`; a table without rows has no
base. -/
def typedefFromMember (image : DecodedImage) (colIdx : Nat) (ptrTable : MonoTable) (index : BitVec 32) :
    Option Nat :=
  let tdef := image.tables .typeDef
  if tdef.length = 0 then some 0
  else do
    let idx ← mapIndex image ptrTable (monoMetadataTokenIndex index)
    let (found, loc) ← bsearch typedefLocator tdef.length ⟨idx, colIdx, tdef, 0⟩
    match found with
    | none => pure 0
    -- The result is 0..1, it needs to be mapped to a table index (that is +1).
    | some _ => pure (loc.result + 1)

/-- `mono_metadata_typedef_from_field`. -/
def monoMetadataTypedefFromField (image : DecodedImage) (index : BitVec 32) : Option Nat :=
  typedefFromMember image monoTypedefFieldList .fieldPointer index

/-- `mono_metadata_typedef_from_method`. -/
def monoMetadataTypedefFromMethod (image : DecodedImage) (index : BitVec 32) : Option Nat :=
  typedefFromMember image monoTypedefMethodList .methodPointer index

/-! ### Owners -/

/-- A column of a table. -/
def TableRows.column (t : TableRows) (col : Nat) : List (BitVec 32) :=
  t.map fun row => row.getD col 0

/-- The lists of the types start at 1 and never go down. -/
structure MemberLists (starts : List (BitVec 32)) : Prop where
  first : starts.head? = some 1
  sorted : starts.Pairwise (· ≤ ·)

/-- The range of the type in row `r` has the member `idx`; the last range ends with the table, which has
`count` members. -/
def Owns (starts : List (BitVec 32)) (count : Nat) (r : Nat) (idx : BitVec 32) : Prop :=
  ∃ start, starts[r]? = some start ∧ start.toNat ≤ idx.toNat ∧
    idx.toNat < ((starts[r + 1]?).map BitVec.toNat).getD (count + 1)

/-- The index that is searched: in uncompressed metadata the place of the first pointer to the member, if
there is one. -/
def MapsTo (image : DecodedImage) (ptrTable : MonoTable) (idx mapped : BitVec 32) : Prop :=
  if image.uncompressedMetadata then
    (∃ i, ((image.tables ptrTable).column 0)[i]? = some idx ∧ mapped = BitVec.ofNat 32 (i + 1) ∧
      ∀ j < i, ((image.tables ptrTable).column 0)[j]? ≠ some idx) ∨
    (mapped = idx ∧ idx ∉ (image.tables ptrTable).column 0)
  else mapped = idx

/-- The function gives the row of the one type that owns the member, counted from 1. -/
def FindsOwner (image : DecodedImage) (typedefFrom : DecodedImage → BitVec 32 → Option Nat)
    (starts : List (BitVec 32)) (ptrTable : MonoTable) : Prop :=
  ∀ (index mapped : BitVec 32) (count : Nat),
    MapsTo image ptrTable (monoMetadataTokenIndex index) mapped → 1 ≤ mapped.toNat → mapped.toNat ≤ count →
      ∃ r, typedefFrom image index = some (r + 1) ∧ Owns starts count r mapped ∧
        ∀ r', Owns starts count r' mapped → r' = r

/-- The lists of fields and of methods. -/
def DecodedImage.fieldLists (image : DecodedImage) : List (BitVec 32) :=
  (image.tables .typeDef).column monoTypedefFieldList

def DecodedImage.methodLists (image : DecodedImage) : List (BitVec 32) :=
  (image.tables .typeDef).column monoTypedefMethodList

end MonoRuntime.Metadata
