/-
Module: MonoRuntime.Metadata.EcmaTables
Purpose: The physical layout of the metadata tables as ECMA-335 (II.22, II.24.2.6) prescribes it: the columns
  of each table, the tables that a coded index can name, and when an index is wide. The tables of pointers
  and the two unused tables are not in the standard; a pointer is a simple index.
Trusted boundary: human-reviewed statement of the standard
Main exports: CodedIndex
-/
import MonoRuntime.Metadata.TableLayout

namespace MonoRuntime.Metadata

/-! ### Coded indexes -/

/-- The kinds of coded indexes. -/
inductive CodedIndex where
  | typeDefOrRef
  | hasConstant
  | hasCustomAttribute
  | hasFieldMarshal
  | hasDeclSecurity
  | memberRefParent
  | hasSemantics
  | methodDefOrRef
  | memberForwarded
  | implementation
  | customAttributeType
  | resolutionScope
  | typeOrMethodDef
deriving DecidableEq, Repr

/-- The tables that a coded index can name. -/
def CodedIndex.tables : CodedIndex → List MonoTable
  | .typeDefOrRef => [.typeDef, .typeRef, .typeSpec]
  | .hasConstant => [.field, .param, .property]
  | .hasCustomAttribute =>
      [.method, .field, .typeRef, .typeDef, .param, .interfaceImpl, .memberRef, .moduleTable, .declSecurity,
        .property, .event, .standAloneSig, .moduleRef, .typeSpec, .assembly, .assemblyRef, .file,
        .exportedType, .manifestResource, .genericParam, .genericParamConstraint, .methodSpec]
  | .hasFieldMarshal => [.field, .param]
  | .hasDeclSecurity => [.typeDef, .method, .assembly]
  | .memberRefParent => [.typeDef, .typeRef, .moduleRef, .method, .typeSpec]
  | .hasSemantics => [.event, .property]
  | .methodDefOrRef => [.method, .memberRef]
  | .memberForwarded => [.field, .method]
  | .implementation => [.file, .assemblyRef, .exportedType]
  | .customAttributeType => [.method, .memberRef]
  | .resolutionScope => [.moduleTable, .moduleRef, .assemblyRef, .typeRef]
  | .typeOrMethodDef => [.typeDef, .method]

/-- The bits of the tag. -/
def CodedIndex.tagBits : CodedIndex → Nat
  | .hasFieldMarshal | .hasSemantics | .methodDefOrRef | .memberForwarded | .typeOrMethodDef => 1
  | .typeDefOrRef | .hasConstant | .hasDeclSecurity | .implementation | .resolutionScope => 2
  | .memberRefParent | .customAttributeType => 3
  | .hasCustomAttribute => 5

/-! ### Columns -/

/-- What a column holds. -/
inductive EcmaColumn where
  | fixed (bytes : Nat)
  | string
  | guid
  | blob
  | simple (table : MonoTable)
  | coded (index : CodedIndex)
deriving DecidableEq, Repr

/-- The columns of a table (II.22). -/
def ecmaColumns : MonoTable → List EcmaColumn
  | .moduleTable => [.fixed 2, .string, .guid, .guid, .guid]
  | .typeRef => [.coded .resolutionScope, .string, .string]
  | .typeDef => [.fixed 4, .string, .string, .coded .typeDefOrRef, .simple .field, .simple .method]
  | .fieldPointer => [.simple .field]
  | .field => [.fixed 2, .string, .blob]
  | .methodPointer => [.simple .method]
  | .method => [.fixed 4, .fixed 2, .fixed 2, .string, .blob, .simple .param]
  | .paramPointer => [.simple .param]
  | .param => [.fixed 2, .fixed 2, .string]
  | .interfaceImpl => [.simple .typeDef, .coded .typeDefOrRef]
  | .memberRef => [.coded .memberRefParent, .string, .blob]
  | .constant => [.fixed 1, .fixed 1, .coded .hasConstant, .blob]
  | .customAttribute => [.coded .hasCustomAttribute, .coded .customAttributeType, .blob]
  | .fieldMarshal => [.coded .hasFieldMarshal, .blob]
  | .declSecurity => [.fixed 2, .coded .hasDeclSecurity, .blob]
  | .classLayout => [.fixed 2, .fixed 4, .simple .typeDef]
  | .fieldLayout => [.fixed 4, .simple .field]
  | .standAloneSig => [.blob]
  | .eventMap => [.simple .typeDef, .simple .event]
  | .eventPointer => [.simple .event]
  | .event => [.fixed 2, .string, .coded .typeDefOrRef]
  | .propertyMap => [.simple .typeDef, .simple .property]
  | .propertyPointer => [.simple .property]
  | .property => [.fixed 2, .string, .blob]
  | .methodSemantics => [.fixed 2, .simple .method, .coded .hasSemantics]
  | .methodImpl => [.simple .typeDef, .coded .methodDefOrRef, .coded .methodDefOrRef]
  | .moduleRef => [.string]
  | .typeSpec => [.blob]
  | .implMap => [.fixed 2, .coded .memberForwarded, .string, .simple .moduleRef]
  | .fieldRva => [.fixed 4, .simple .field]
  | .unused6 | .unused7 => []
  | .assembly =>
      [.fixed 4, .fixed 2, .fixed 2, .fixed 2, .fixed 2, .fixed 4, .blob, .string, .string]
  | .assemblyProcessor => [.fixed 4]
  | .assemblyOs => [.fixed 4, .fixed 4, .fixed 4]
  | .assemblyRef =>
      [.fixed 2, .fixed 2, .fixed 2, .fixed 2, .fixed 4, .blob, .string, .string, .blob]
  | .assemblyRefProcessor => [.fixed 4, .simple .assemblyRef]
  | .assemblyRefOs => [.fixed 4, .fixed 4, .fixed 4, .simple .assemblyRef]
  | .file => [.fixed 4, .string, .blob]
  | .exportedType => [.fixed 4, .fixed 4, .string, .string, .coded .implementation]
  | .manifestResource => [.fixed 4, .fixed 4, .string, .coded .implementation]
  | .nestedClass => [.simple .typeDef, .simple .typeDef]
  | .genericParam => [.fixed 2, .fixed 2, .coded .typeOrMethodDef, .string]
  | .methodSpec => [.coded .methodDefOrRef, .blob]
  | .genericParamConstraint => [.simple .genericParam, .coded .typeDefOrRef]

/-! ### Widths -/

section Widths

variable (heapSizes : BitVec 8) (rows : MonoTable → BitVec 24)

/-- The width of a column (II.24.2.6). -/
def ecmaWidth : EcmaColumn → Nat
  | .fixed bytes => bytes
  | .string => if heapSizes.getLsbD 0 then 4 else 2
  | .guid => if heapSizes.getLsbD 1 then 4 else 2
  | .blob => if heapSizes.getLsbD 2 then 4 else 2
  | .simple table => if (rows table).toNat < 2 ^ 16 then 2 else 4
  | .coded index => if ∀ table ∈ index.tables, (rows table).toNat < 2 ^ (16 - index.tagBits) then 2 else 4

/-- The widths of the columns of a table. -/
def ecmaWidths (table : MonoTable) : List Nat :=
  (ecmaColumns table).map (ecmaWidth heapSizes rows)

/-- The size of a row. -/
def ecmaRowSize (table : MonoTable) : Nat :=
  (ecmaWidths heapSizes rows table).sum

/-- The bytes of some tables. -/
def ecmaTablesSize (tables : List MonoTable) : Nat :=
  (tables.map fun table => (rows table).toNat * ecmaRowSize heapSizes rows table).sum

/-- The offset of a table from the first one: the tables follow each other in the order of their numbers. -/
def ecmaTableOffset (table : MonoTable) : Nat :=
  ecmaTablesSize heapSizes rows (MonoTable.all.takeWhile (· ≠ table))

/-! ### Agreement -/

/-- `mono_metadata_compute_size` gives every column of the table its width, and a row its size. -/
def LayoutMatches (table : MonoTable) : Prop :=
  ∃ size bitfield, monoMetadataComputeSize (loadTables heapSizes rows) table = some (size, bitfield) ∧
    size = ecmaRowSize heapSizes rows table ∧
    (List.range (monoMetadataTableCount bitfield)).map (monoMetadataTableSize bitfield)
      = ecmaWidths heapSizes rows table

/-- Every column of every row of a table that has rows is read at its offset, in its width. -/
def DecodesRows : Prop :=
  ∃ infos, monoMetadataComputeTableBases (loadTables heapSizes rows) = some infos ∧
    ∀ table, rows table ≠ 0 → ∃ info, (table, info) ∈ infos ∧
      ∀ idx < (rows table).toNat, ∀ col width, (ecmaWidths heapSizes rows table)[col]? = some width →
        monoMetadataDecodeRowCol info idx col =
          some (ecmaTableOffset heapSizes rows table + idx * ecmaRowSize heapSizes rows table +
            ((ecmaWidths heapSizes rows table).take col).sum, width)

/-- The tables of HasCustomAttribute that the code leaves out. -/
def forgottenTables : List MonoTable :=
  [.genericParam, .genericParamConstraint, .methodSpec]

/-- No table that is left out makes the index wide alone: none has `2 ^ 11` rows, or one of the others
has. -/
def ForgottenHarmless : Prop :=
  (∀ table ∈ forgottenTables, (rows table).toNat < 2 ^ 11) ∨
    ∃ table ∈ CodedIndex.hasCustomAttribute.tables, table ∉ forgottenTables ∧ 2 ^ 11 ≤ (rows table).toNat

end Widths

end MonoRuntime.Metadata
