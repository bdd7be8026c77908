/-
Module: MonoRuntime.Metadata.TableRow
Purpose: The two readers of the rows of a metadata table in `metadata/metadata.c`. A read outside of the memory and a
  failed assertion are the result `none`.
Trusted boundary: human-reviewed translation of the source
Main exports: monoMetadataDecodeRow
-/
import MonoRuntime.Metadata.TableLayout

namespace MonoRuntime.TableRow

open Metadata

abbrev Byte := BitVec 8

/-- The bytes that may be read. -/
abbrev Memory := Nat → Option Byte

variable (charSigned : Bool) (mem : Memory)

/-- `*data`: a `char` is signed on some targets, and becomes a `guint32`. -/
def readChar (data : Nat) : Option (BitVec 32) := do
  let b ← mem data
  pure (if charSigned then b.signExtend 32 else b.setWidth 32)

/-- `read16`. -/
def read16 (data : Nat) : Option (BitVec 16) := do
  let b0 ← mem data
  let b1 ← mem (data + 1)
  pure (b1 ++ b0)

/-- `read32`. -/
def read32 (data : Nat) : Option (BitVec 32) := do
  let low ← read16 mem data
  let high ← read16 mem (data + 2)
  pure (high ++ low)

/-- The `switch` of both readers. -/
def readColumn (data n : Nat) : Option (BitVec 32) :=
  match n with
  | 1 => readChar charSigned mem data
  | 2 => (read16 mem data).map (BitVec.setWidth 32)
  | 4 => read32 mem data
  | _ => none

/-- The loop of `mono_metadata_decode_row` over `left` columns from column `i` on. -/
def decodeRowLoop (bitfield : BitVec 32) : (left i data : Nat) → Option (List (BitVec 32))
  | 0, _, _ => some []
  | left + 1, i, data => do
      let n := monoMetadataTableSize bitfield i
      let value ← readColumn charSigned mem data n
      let res ← decodeRowLoop bitfield left (i + 1) (data + n)
      pure (value :: res)

/-- `mono_metadata_decode_row`. -/
def monoMetadataDecodeRow (t : MonoTableInfo) (idx resSize : Nat) : Option (List (BitVec 32)) :=
  let count := monoMetadataTableCount t.sizeBitfield
  if idx < t.rows ∧ resSize = count then
    decodeRowLoop charSigned mem t.sizeBitfield count 0 (t.base + idx * t.rowSize.toNat)
  else none

/-- The loop of `mono_metadata_decode_row_col`, `left` columns before the one that is read. -/
def columnLoop (bitfield : BitVec 32) : (left i data n : Nat) → Nat × Nat
  | 0, _, data, n => (data, n)
  | left + 1, i, data, n => columnLoop bitfield left (i + 1) (data + n) (monoMetadataTableSize bitfield (i + 1))

/-- `mono_metadata_decode_row_col`. -/
def monoMetadataDecodeRowCol (t : MonoTableInfo) (idx col : Nat) : Option (BitVec 32) :=
  if idx < t.rows ∧ col < monoMetadataTableCount t.sizeBitfield then
    let (data, n) := columnLoop t.sizeBitfield col 0 (t.base + idx * t.rowSize.toNat)
      (monoMetadataTableSize t.sizeBitfield 0)
    readColumn charSigned mem data n
  else none

/-! ### What the rows hold -/

/-- Where field `col` begins when the fields have these sizes. -/
def fieldOffset (size : Nat → Nat) (col : Nat) : Nat :=
  ((List.range col).map size).sum

/-- The unsigned number of `n` bytes, the lowest first. -/
def littleEndian (bytes : Nat → Byte) (n : Nat) : Nat :=
  ((List.range n).map fun k => 2 ^ (8 * k) * (bytes k).toNat).sum

/-- The memory has the bytes of a row, whatever else it has. -/
def HoldsRow (t : MonoTableInfo) (idx : Nat) (row : Nat → Byte) : Prop :=
  ∀ k < t.rowSize.toNat, mem (t.base + idx * t.rowSize.toNat + k) = some (row k)

/-- Both readers give the unsigned numbers of the columns. -/
def DecodesRow (t : MonoTableInfo) (idx : Nat) (row : Nat → Byte) : Prop :=
  let size := monoMetadataTableSize t.sizeBitfield
  let count := monoMetadataTableCount t.sizeBitfield
  ∃ values, monoMetadataDecodeRow charSigned mem t idx count = some values ∧ values.length = count ∧
    ∀ col < count, values[col]? = monoMetadataDecodeRowCol charSigned mem t idx col ∧
      values[col]?.map BitVec.toNat =
        some (littleEndian (fun k => row (fieldOffset size col + k)) (size col))

/-- Every byte of a row belongs to exactly one column. -/
def ColumnsPartition (t : MonoTableInfo) : Prop :=
  let size := monoMetadataTableSize t.sizeBitfield
  fieldOffset size (monoMetadataTableCount t.sizeBitfield) = t.rowSize.toNat ∧
    ∀ k < t.rowSize.toNat, ∃! col, col < monoMetadataTableCount t.sizeBitfield ∧
      fieldOffset size col ≤ k ∧ k < fieldOffset size col + size col

end MonoRuntime.TableRow
