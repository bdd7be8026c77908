/-
Module: MonoRuntime.Metadata.TableLayout
Purpose: The layout of the metadata tables in `metadata/metadata.c`: the columns of each table, the width
  that `mono_metadata_compute_size` gives to each column of an image, the bases of the tables, and where a
  column of a row is read. A failed assertion aborts the process and is the result `none`.
Trusted boundary: human-reviewed translation of the source
Main exports: MonoTable
-/
import Mathlib.Algebra.Order.Ring.Int
import Mathlib.Data.List.Basic

namespace MonoRuntime.Metadata

/-! ### Tables -/

/-- The tables, in the order of their numbers (`MONO_TABLE_*`). -/
inductive MonoTable where
  | moduleTable | typeRef | typeDef | fieldPointer | field | methodPointer | method | paramPointer
  | param | interfaceImpl | memberRef | constant | customAttribute | fieldMarshal | declSecurity
  | classLayout | fieldLayout | standAloneSig | eventMap | eventPointer | event | propertyMap
  | propertyPointer | property | methodSemantics | methodImpl | moduleRef | typeSpec | implMap
  | fieldRva | unused6 | unused7 | assembly | assemblyProcessor | assemblyOs | assemblyRef
  | assemblyRefProcessor | assemblyRefOs | file | exportedType | manifestResource | nestedClass
  | genericParam | methodSpec | genericParamConstraint
deriving DecidableEq, Repr

/-- The numbers in order. -/
def MonoTable.all : List MonoTable :=
  [.moduleTable, .typeRef, .typeDef, .fieldPointer, .field, .methodPointer, .method, .paramPointer,
   .param, .interfaceImpl, .memberRef, .constant, .customAttribute, .fieldMarshal, .declSecurity,
   .classLayout, .fieldLayout, .standAloneSig, .eventMap, .eventPointer, .event, .propertyMap,
   .propertyPointer, .property, .methodSemantics, .methodImpl, .moduleRef, .typeSpec, .implMap,
   .fieldRva, .unused6, .unused7, .assembly, .assemblyProcessor, .assemblyOs, .assemblyRef,
   .assemblyRefProcessor, .assemblyRefOs, .file, .exportedType, .manifestResource, .nestedClass,
   .genericParam, .methodSpec, .genericParamConstraint]

/-! ### Columns -/

/-- The kinds of columns (`MONO_MT_*`). -/
inductive ColumnCode where
  | mtEnd | uint32 | uint16 | uint8 | blobIdx | stringIdx | guidIdx | tableIdx
  /-- HasConstant: Parent pointer (Param, Field or Property) -/
  | constIdx
  /-- HasCustomAttribute index. Indexes any table except CustomAttribute -/
  | hascatIdx
  /-- CustomAttributeType encoded index -/
  | catIdx
  /-- HasDeclSecurity index: TypeDef Method or Assembly -/
  | hasdecIdx
  /-- Implementation coded index: File, Export AssemblyRef -/
  | implIdx
  /-- HasFieldMarshal coded index: Field or Param table -/
  | hfmIdx
  /-- MemberForwardedIndex: Field or Method -/
  | mfIdx
  /-- TypeDefOrRef coded index: typedef, typeref, typespec -/
  | tdorIdx
  /-- MemberRefParent coded index: typeref, moduleref, method, memberref, typesepc, typedef -/
  | mrpIdx
  /-- MethodDefOrRef coded index: Method or Member Ref table -/
  | mdorIdx
  /-- HasSemantic coded index: Event or Property -/
  | hsIdx
  /-- ResolutionScope coded index: Module, ModuleRef, AssemblytRef, TypeRef -/
  | rsIdx
deriving DecidableEq, Repr

/-- The columns of all tables, one table after the other. -/
def tableSchemas : List ColumnCode :=
  [.uint32, .uint16, .uint16, .uint16, .uint16, .uint32, .blobIdx, .stringIdx, .stringIdx, .mtEnd,
   .uint32, .uint32, .uint32, .mtEnd,
   .uint32, .mtEnd,
   .uint16, .uint16, .uint16, .uint16, .uint32, .blobIdx, .stringIdx, .stringIdx, .blobIdx, .mtEnd,
   .uint32, .uint32, .uint32, .tableIdx, .mtEnd,
   .uint32, .tableIdx, .mtEnd,
   .uint16, .uint32, .tableIdx, .mtEnd,
   .uint8, .uint8, .constIdx, .blobIdx, .mtEnd,
   .hascatIdx, .catIdx, .blobIdx, .mtEnd,
   .uint16, .hasdecIdx, .blobIdx, .mtEnd,
   .tableIdx, .tableIdx, .mtEnd,
   .uint16, .stringIdx, .tdorIdx, .mtEnd,
   .tableIdx, .mtEnd,
   .uint32, .tableIdx, .stringIdx, .stringIdx, .implIdx, .mtEnd,
   .uint16, .stringIdx, .blobIdx, .mtEnd,
   .uint32, .tableIdx, .mtEnd,
   .hfmIdx, .blobIdx, .mtEnd,
   .uint32, .tableIdx, .mtEnd,
   .tableIdx, .mtEnd,
   .uint32, .stringIdx, .blobIdx, .mtEnd,
   .uint16, .mfIdx, .stringIdx, .tableIdx, .mtEnd,
   .tableIdx, .tdorIdx, .mtEnd,
   .uint32, .uint32, .stringIdx, .implIdx, .mtEnd,
   .mrpIdx, .stringIdx, .blobIdx, .mtEnd,
   .uint32, .uint16, .uint16, .stringIdx, .blobIdx, .tableIdx, .mtEnd,
   .tableIdx, .mdorIdx, .mdorIdx, .mtEnd,
   .uint16, .tableIdx, .hsIdx, .mtEnd,
   .tableIdx, .mtEnd,
   .uint16, .stringIdx, .guidIdx, .guidIdx, .guidIdx, .mtEnd,
   .stringIdx, .mtEnd,
   .tableIdx, .tableIdx, .mtEnd,
   .uint16, .uint16, .stringIdx, .mtEnd,
   .tableIdx, .mtEnd,
   .uint16, .stringIdx, .blobIdx, .mtEnd,
   .tableIdx, .mtEnd,
   .tableIdx, .tableIdx, .mtEnd,
   .blobIdx, .mtEnd,
   .uint32, .stringIdx, .stringIdx, .tdorIdx, .tableIdx, .tableIdx, .mtEnd,
   .rsIdx, .stringIdx, .stringIdx, .mtEnd,
   .blobIdx, .mtEnd,
   .uint16, .uint16, .tableIdx, .stringIdx, .mtEnd,
   .mdorIdx, .blobIdx, .mtEnd,
   .tableIdx, .tdorIdx, .mtEnd,
   .mtEnd]

def assemblySchemaOffset : Nat := 0
def assemblyosSchemaOffset : Nat := assemblySchemaOffset + 10
def assemblyprocSchemaOffset : Nat := assemblyosSchemaOffset + 4
def assemblyrefSchemaOffset : Nat := assemblyprocSchemaOffset + 2
def assemblyrefosSchemaOffset : Nat := assemblyrefSchemaOffset + 10
def assemblyrefprocSchemaOffset : Nat := assemblyrefosSchemaOffset + 5
def classLayoutSchemaOffset : Nat := assemblyrefprocSchemaOffset + 3
def constantSchemaOffset : Nat := classLayoutSchemaOffset + 4
def customAttrSchemaOffset : Nat := constantSchemaOffset + 5
def declSecSchemaOffset : Nat := customAttrSchemaOffset + 4
def eventmapSchemaOffset : Nat := declSecSchemaOffset + 4
def eventSchemaOffset : Nat := eventmapSchemaOffset + 3
def eventPointerSchemaOffset : Nat := eventSchemaOffset + 4
def exportedTypeSchemaOffset : Nat := eventPointerSchemaOffset + 2
def fieldSchemaOffset : Nat := exportedTypeSchemaOffset + 6
def fieldLayoutSchemaOffset : Nat := fieldSchemaOffset + 4
def fieldMarshalSchemaOffset : Nat := fieldLayoutSchemaOffset + 3
def fieldRvaSchemaOffset : Nat := fieldMarshalSchemaOffset + 3
def fieldPointerSchemaOffset : Nat := fieldRvaSchemaOffset + 3
def fileSchemaOffset : Nat := fieldPointerSchemaOffset + 2
def implmapSchemaOffset : Nat := fileSchemaOffset + 4
def ifacemapSchemaOffset : Nat := implmapSchemaOffset + 5
def manifestSchemaOffset : Nat := ifacemapSchemaOffset + 3
def memberrefSchemaOffset : Nat := manifestSchemaOffset + 5
def methodSchemaOffset : Nat := memberrefSchemaOffset + 4
def methodImplSchemaOffset : Nat := methodSchemaOffset + 7
def methodSemaSchemaOffset : Nat := methodImplSchemaOffset + 4
def methodPointerSchemaOffset : Nat := methodSemaSchemaOffset + 4
def moduleSchemaOffset : Nat := methodPointerSchemaOffset + 2
def modulerefSchemaOffset : Nat := moduleSchemaOffset + 6
def nestedClassSchemaOffset : Nat := modulerefSchemaOffset + 2
def paramSchemaOffset : Nat := nestedClassSchemaOffset + 3
def paramPointerSchemaOffset : Nat := paramSchemaOffset + 4
def propertySchemaOffset : Nat := paramPointerSchemaOffset + 2
def propertyPointerSchemaOffset : Nat := propertySchemaOffset + 4
def propertyMapSchemaOffset : Nat := propertyPointerSchemaOffset + 2
def stdalonSigSchemaOffset : Nat := propertyMapSchemaOffset + 3
def typedefSchemaOffset : Nat := stdalonSigSchemaOffset + 2
def typerefSchemaOffset : Nat := typedefSchemaOffset + 7
def typespecSchemaOffset : Nat := typerefSchemaOffset + 4
def genparamSchemaOffset : Nat := typespecSchemaOffset + 2
def methodSpecSchemaOffset : Nat := genparamSchemaOffset + 5
def genConstraintSchemaOffset : Nat := methodSpecSchemaOffset + 3
def nullSchemaOffset : Nat := genConstraintSchemaOffset + 3

/-- `table_description`: where the columns of a table start. -/
def tableDescription : MonoTable → Nat
  | .moduleTable => moduleSchemaOffset
  | .typeRef => typerefSchemaOffset
  | .typeDef => typedefSchemaOffset
  | .fieldPointer => fieldPointerSchemaOffset
  | .field => fieldSchemaOffset
  | .methodPointer => methodPointerSchemaOffset
  | .method => methodSchemaOffset
  | .paramPointer => paramPointerSchemaOffset
  | .param => paramSchemaOffset
  | .interfaceImpl => ifacemapSchemaOffset
  | .memberRef => memberrefSchemaOffset
  | .constant => constantSchemaOffset
  | .customAttribute => customAttrSchemaOffset
  | .fieldMarshal => fieldMarshalSchemaOffset
  | .declSecurity => declSecSchemaOffset
  | .classLayout => classLayoutSchemaOffset
  | .fieldLayout => fieldLayoutSchemaOffset
  | .standAloneSig => stdalonSigSchemaOffset
  | .eventMap => eventmapSchemaOffset
  | .eventPointer => eventPointerSchemaOffset
  | .event => eventSchemaOffset
  | .propertyMap => propertyMapSchemaOffset
  | .propertyPointer => propertyPointerSchemaOffset
  | .property => propertySchemaOffset
  | .methodSemantics => methodSemaSchemaOffset
  | .methodImpl => methodImplSchemaOffset
  | .moduleRef => modulerefSchemaOffset
  | .typeSpec => typespecSchemaOffset
  | .implMap => implmapSchemaOffset
  | .fieldRva => fieldRvaSchemaOffset
  | .unused6 => nullSchemaOffset
  | .unused7 => nullSchemaOffset
  | .assembly => assemblySchemaOffset
  | .assemblyProcessor => assemblyprocSchemaOffset
  | .assemblyOs => assemblyosSchemaOffset
  | .assemblyRef => assemblyrefSchemaOffset
  | .assemblyRefProcessor => assemblyrefprocSchemaOffset
  | .assemblyRefOs => assemblyrefosSchemaOffset
  | .file => fileSchemaOffset
  | .exportedType => exportedTypeSchemaOffset
  | .manifestResource => manifestSchemaOffset
  | .nestedClass => nestedClassSchemaOffset
  | .genericParam => genparamSchemaOffset
  | .methodSpec => methodSpecSchemaOffset
  | .genericParamConstraint => genConstraintSchemaOffset

/-! ### Images -/

/-- What the layout of an image depends on; `rows` is a bit field of 24 bits. -/
structure MonoImage where
  rows : MonoTable → BitVec 24
  idxStringWide : Bool
  idxGuidWide : Bool
  idxBlobWide : Bool

/-- The image of a header, as in `load_tables`. -/
def loadTables (heapSizes : BitVec 8) (rows : MonoTable → BitVec 24) : MonoImage where
  rows := rows
  idxStringWide := heapSizes &&& 0x01 = 1
  idxGuidWide := heapSizes &&& 0x02 = 2
  idxBlobWide := heapSizes &&& 0x04 = 4

/-- The rows of a table, as an `int`. -/
def MonoImage.rowCount (image : MonoImage) (table : MonoTable) : Nat :=
  (image.rows table).toNat

/-- `rtsize`. -/
def rtsize (s b : Nat) : Nat :=
  if s < 1 <<< b then 2 else 4

/-- `idx_size`. -/
def idxSize (image : MonoImage) (table : MonoTable) : Nat :=
  if image.rowCount table < 65536 then 2 else 4

/-- A heap index. -/
def heapSize (wide : Bool) : Nat :=
  if wide then 4 else 2

/-- The `MAX` of the rows of some tables, one after the other. -/
def maxRows (image : MonoImage) (first second : MonoTable) (more : List MonoTable) : Nat :=
  more.foldl (fun n table => max n (image.rowCount table))
    (max (image.rowCount first) (image.rowCount second))

/-- `MONO_TYPEORMETHOD_BITS`. -/
def monoTypeormethodBits : Nat := 1

/-- The size of column `i` of `table` that is an index into a table. -/
def tableIdxSize (image : MonoImage) (table : MonoTable) (i : Nat) : Option Nat :=
  match table with
  | .assemblyRefOs => if i = 3 then some (idxSize image .assemblyRef) else none
  | .assemblyRefProcessor => if i = 1 then some (idxSize image .assemblyRef) else none
  | .classLayout => if i = 2 then some (idxSize image .typeDef) else none
  | .eventMap =>
      if i = 0 ∨ i = 1 then some (if i ≠ 0 then idxSize image .event else idxSize image .typeDef) else none
  | .eventPointer => if i = 0 then some (idxSize image .event) else none
  -- The index is in another metadata file, so it must be 4.
  | .exportedType => if i = 1 then some 4 else none
  | .fieldLayout => if i = 1 then some (idxSize image .field) else none
  | .fieldRva => if i = 1 then some (idxSize image .field) else none
  | .fieldPointer => if i = 0 then some (idxSize image .field) else none
  | .implMap => if i = 3 then some (idxSize image .moduleRef) else none
  | .interfaceImpl => if i = 0 then some (idxSize image .typeDef) else none
  | .method => if i = 5 then some (idxSize image .param) else none
  | .methodImpl => if i = 0 then some (idxSize image .typeDef) else none
  | .methodSemantics => if i = 1 then some (idxSize image .method) else none
  | .methodPointer => if i = 0 then some (idxSize image .method) else none
  | .nestedClass => if i = 0 ∨ i = 1 then some (idxSize image .typeDef) else none
  | .paramPointer => if i = 0 then some (idxSize image .param) else none
  | .propertyMap =>
      if i = 0 ∨ i = 1 then some (if i ≠ 0 then idxSize image .property else idxSize image .typeDef)
      else none
  | .propertyPointer => if i = 0 then some (idxSize image .property) else none
  | .typeDef =>
      if i = 4 ∨ i = 5 then some (if i = 4 then idxSize image .field else idxSize image .method) else none
  | .genericParam =>
      if i = 2 then some (rtsize (maxRows image .method .typeDef []) (16 - monoTypeormethodBits)) else none
  | .genericParamConstraint => if i = 0 then some (idxSize image .genericParam) else none
  | _ => none

/-- The size of column `i` of `table`. -/
def fieldSize (image : MonoImage) (table : MonoTable) (i : Nat) : ColumnCode → Option Nat
  | .mtEnd => none
  | .uint32 => some 4
  | .uint16 => some 2
  | .uint8 => some 1
  | .blobIdx => some (heapSize image.idxBlobWide)
  | .stringIdx => some (heapSize image.idxStringWide)
  | .guidIdx => some (heapSize image.idxGuidWide)
  | .tableIdx => tableIdxSize image table i
  | .constIdx => some (rtsize (maxRows image .param .field [.property]) (16 - 2))
  | .hascatIdx =>
      some (rtsize (maxRows image .method .field [.typeRef, .typeDef, .param, .interfaceImpl, .memberRef,
        .moduleTable, .declSecurity, .property, .event, .standAloneSig, .moduleRef, .typeSpec, .assembly,
        .assemblyRef, .file, .exportedType, .manifestResource]) (16 - 5))
  | .catIdx => some (rtsize (maxRows image .method .memberRef []) (16 - 3))
  | .hasdecIdx => some (rtsize (maxRows image .typeDef .method [.assembly]) (16 - 2))
  | .implIdx => some (rtsize (maxRows image .file .assemblyRef [.exportedType]) (16 - 2))
  | .hfmIdx => some (rtsize (maxRows image .field .param []) (16 - 1))
  | .mfIdx => some (rtsize (maxRows image .field .method []) (16 - 1))
  | .tdorIdx => some (rtsize (maxRows image .typeDef .typeRef [.typeSpec]) (16 - 2))
  | .mrpIdx => some (rtsize (maxRows image .typeDef .typeRef [.method, .moduleRef, .typeSpec]) (16 - 3))
  | .mdorIdx => some (rtsize (maxRows image .method .memberRef []) (16 - 1))
  | .hsIdx => some (rtsize (maxRows image .property .event []) (16 - 1))
  | .rsIdx =>
      some (rtsize (maxRows image .moduleTable .moduleRef [.assemblyRef, .typeRef]) (16 - 2))

/-- The loop of `mono_metadata_compute_size` from column `i` on. -/
def computeSizeLoop (image : MonoImage) (table : MonoTable) (i shift size : Nat) (bitfield : BitVec 32) :
    List ColumnCode → Option (Nat × BitVec 32)
  | [] => none
  | .mtEnd :: _ => some (size, BitVec.ofNat 32 i <<< 24 ||| bitfield)
  | code :: description => do
      let fieldSize ← fieldSize image table i code
      computeSizeLoop image table (i + 1) (shift + 2) (size + fieldSize)
        (bitfield ||| BitVec.ofNat 32 (fieldSize - 1) <<< shift) description

/-- `mono_metadata_compute_size`: the size of a row, and the sizes of the columns in two bits each. -/
def monoMetadataComputeSize (image : MonoImage) (table : MonoTable) : Option (Nat × BitVec 32) :=
  computeSizeLoop image table 0 0 0 0 (tableSchemas.drop (tableDescription table))

/-- `mono_metadata_table_size`. -/
def monoMetadataTableSize (bitfield : BitVec 32) (i : Nat) : Nat :=
  ((bitfield >>> (i * 2)) &&& 0x3).toNat + 1

/-- `mono_metadata_table_count`. -/
def monoMetadataTableCount (bitfield : BitVec 32) : Nat :=
  (bitfield >>> 24).toNat

/-! ### Tables of an image -/

/-- `MonoTableInfo` as it is filled in; `base` is an offset from `tables_base`. -/
structure MonoTableInfo where
  base : Nat
  rows : Nat
  rowSize : BitVec 8
  sizeBitfield : BitVec 32

/-- The loop of `mono_metadata_compute_table_bases` over the tables from `base` on; tables without rows are
left out. -/
def tableBasesLoop (image : MonoImage) : (base : Nat) → List MonoTable →
    Option (List (MonoTable × MonoTableInfo))
  | _, [] => some []
  | base, table :: tables =>
      if image.rowCount table = 0 then tableBasesLoop image base tables
      else do
        let (rowSize, bitfield) ← monoMetadataComputeSize image table
        let info : MonoTableInfo := ⟨base, image.rowCount table, BitVec.ofNat 8 rowSize, bitfield⟩
        let rest ← tableBasesLoop image (base + info.rows * info.rowSize.toNat) tables
        pure ((table, info) :: rest)

/-- `mono_metadata_compute_table_bases`. -/
def monoMetadataComputeTableBases (image : MonoImage) : Option (List (MonoTable × MonoTableInfo)) :=
  tableBasesLoop image 0 MonoTable.all

/-- The place that `mono_metadata_decode_row_col` reads: its offset from `tables_base` and its width. -/
def monoMetadataDecodeRowCol (t : MonoTableInfo) (idx col : Nat) : Option (Nat × Nat) :=
  if idx < t.rows ∧ col < monoMetadataTableCount t.sizeBitfield then
    some (t.base + idx * t.rowSize.toNat +
      ((List.range col).map (monoMetadataTableSize t.sizeBitfield)).sum,
      monoMetadataTableSize t.sizeBitfield col)
  else none

end MonoRuntime.Metadata
