/-
Module: MonoRuntime.Proofs.TableRow
Purpose: The readers of the rows of a table agree on every column, with the columns that
  `mono_metadata_compute_size` lays out; a column of one byte is read as a `char`, with the sign that it has there.
Trusted boundary: none
Main exports: rowsDecoded_iff
-/
import MonoRuntime.Metadata.TableRow
import MonoRuntime.Proofs.TableLayout
import MonoRuntime.Lib.DoubleWord
import Mathlib.Algebra.Order.BigOperators.Group.List

namespace MonoRuntime.TableRow

open Metadata List

/-! ### Fields one after the other -/

section Fields

variable {size : Nat → Nat} {col k : Nat}

theorem fieldOffset_succ (size : Nat → Nat) (col : Nat) :
    fieldOffset size (col + 1) = fieldOffset size col + size col := by
  rw [fieldOffset, range_succ, map_append, sum_append, map_singleton, sum_singleton,
    fieldOffset]

theorem fieldOffset_mono (size : Nat → Nat) : Monotone (fieldOffset size) := by
  refine monotone_nat_of_le_succ fun col => ?_
  rw [fieldOffset_succ]
  exact Nat.le_add_right _ _

theorem fieldOffset_partition (count : Nat) (inside : k < fieldOffset size count) :
    ∃! col, col < count ∧ fieldOffset size col ≤ k ∧ k < fieldOffset size col + size col := by
  induction count with
  | zero => cases inside
  | succ count ih =>
    rw [fieldOffset_succ] at inside
    by_cases before : k < fieldOffset size count
    · obtain ⟨col, ⟨less, range⟩, only⟩ := ih before
      refine ⟨col, ⟨by omega, range⟩, fun other isOther => only other ⟨?_, isOther.2⟩⟩
      by_contra last
      have : other = count := by omega
      subst this
      omega
    · refine ⟨count, ⟨by omega, by omega, inside⟩, ?_⟩
      rintro other ⟨less, _, above⟩
      by_contra different
      have grows := fieldOffset_mono size (show other + 1 ≤ count by omega)
      rw [fieldOffset_succ] at grows
      omega

end Fields

/-! ### The widths of the columns -/

theorem exists_heapSizes (image : MonoImage) : ∃ heapSizes, image = loadTables heapSizes image.rows := by
  obtain ⟨rows, string, guid, blob⟩ := image
  refine ⟨(if string then 1 else 0) ||| (if guid then 2 else 0) ||| if blob then 4 else 0, ?_⟩
  cases string <;> cases guid <;> cases blob <;> rfl

theorem column_width {image : MonoImage} {table : MonoTable} {j : Nat} {code : ColumnCode}
    (isCode : (codesOf table)[j]? = some code) : ∃ w, fieldSize image table j code = some w ∧ (w = 1 ∨ w = 2 ∨ w = 4) := by
  obtain ⟨heapSizes, isImage⟩ := exists_heapSizes image
  rw [isImage]
  by_cases parent : code = .hascatIdx
  · subst parent
    refine ⟨_, rfl, ?_⟩
    unfold rtsize
    split <;> simp
  · obtain ⟨length, realizes⟩ := codesOf_realize table
    obtain ⟨inside, _⟩ := List.getElem?_eq_some_iff.1 isCode
    obtain ⟨column, isColumn⟩ : ∃ column, (ecmaColumns table)[j]? = some column :=
      ⟨_, getElem?_eq_getElem (by omega)⟩
    refine ⟨_, fieldSize_eq (realizes j code column isCode isColumn) parent, ?_⟩
    have member := mem_of_getElem? isColumn
    cases column with
    | fixed bytes =>
      have bounds : 1 ≤ bytes ∧ bytes ≤ 4 := @ecmaWidth_bounds heapSizes image.rows _ _ member
      have known : ∀ t ∈ MonoTable.all, EcmaColumn.fixed 3 ∉ ecmaColumns t := by decide
      have other : bytes ≠ 3 := by
        rintro rfl
        exact known table table.mem_all member
      change bytes = 1 ∨ bytes = 2 ∨ bytes = 4
      omega
    | _ =>
      simp only [ecmaWidth]
      split <;> omega

/-- The widths in a bit field are 1, 2 or 4, and they make up the row. -/
theorem computed_widths {image : MonoImage} {table : MonoTable} {rowSize : Nat} {bitfield : BitVec 32}
    (run : monoMetadataComputeSize image table = some (rowSize, bitfield)) :
    fieldOffset (monoMetadataTableSize bitfield) (monoMetadataTableCount bitfield) = rowSize ∧ rowSize < 2 ^ 8 ∧
      ∀ col < monoMetadataTableCount bitfield, monoMetadataTableSize bitfield col = 1 ∨
        monoMetadataTableSize bitfield col = 2 ∨ monoMetadataTableSize bitfield col = 4 := by
  have few : (codesOf table).length ≤ 9 := by
    rw [(codesOf_realize table).1]
    exact length_ecmaColumns table
  let size j code := (fieldSize image table j code).getD 0
  have width : ∀ j w, ((codesOf table).mapIdx size)[j]? = some w → ∃ code, (codesOf table)[j]? = some code ∧
      fieldSize image table j code = some w ∧ (w = 1 ∨ w = 2 ∨ w = 4) := by
    intro j w isSize
    rw [getElem?_mapIdx] at isSize
    obtain ⟨code, isCode, rfl⟩ := Option.map_eq_some_iff.1 isSize
    obtain ⟨w, isField, widths⟩ := @column_width image _ _ _ isCode
    simp only [size, isField, Option.getD_some]
    exact ⟨code, isCode, isField, widths⟩
  have member : ∀ w ∈ (codesOf table).mapIdx size, w = 1 ∨ w = 2 ∨ w = 4 := fun w isIn =>
    let ⟨j, isSize⟩ := mem_iff_getElem?.1 isIn
    let ⟨_, _, _, widths⟩ := width j w isSize
    widths
  have length : ((codesOf table).mapIdx size).length = (codesOf table).length := length_mapIdx
  have bound : _ ≤ _ * 4 := sum_le_card_nsmul ((codesOf table).mapIdx size) 4 fun w isIn => by
    have := member w isIn
    omega
  obtain ⟨bitfield', run', reads⟩ := computeSize_spec image table _ length.symm (by rwa [length])
    fun j code w isCode isSize => by
      obtain ⟨_, isCode', isField, widths⟩ := width j w isSize
      cases isCode.symm.trans isCode'
      exact ⟨isField, by omega⟩
  cases run.symm.trans run'
  refine ⟨congrArg List.sum reads, by omega, fun col less => member _ ?_⟩
  rw [← reads]
  exact mem_map_of_mem (mem_range.2 less)

/-! ### The readers -/

section Readers

variable {charSigned : Bool} {mem : Memory} {bytes row : Nat → Byte} {t : MonoTableInfo} {idx : Nat}

/-- What is read for a column: a byte may be taken for a negative number. -/
def columnValue (charSigned : Bool) (bytes : Nat → Byte) : Nat → BitVec 32
  | 1 => if charSigned then (bytes 0).signExtend 32 else (bytes 0).setWidth 32
  | 2 => (bytes 1 ++ bytes 0).setWidth 32
  | _ => (bytes 3 ++ bytes 2) ++ (bytes 1 ++ bytes 0)

theorem readColumn_eq {data n : Nat} (width : n = 1 ∨ n = 2 ∨ n = 4) (holds : ∀ k < n, mem (data + k) = some (bytes k)) :
    readColumn charSigned mem data n = some (columnValue charSigned bytes n) := by
  have first : mem data = some (bytes 0) := holds 0 (by omega)
  have double : 2 ≤ n → read16 mem data = some (bytes 1 ++ bytes 0) := by
    intro wide
    rw [read16, first, holds 1 wide]
    rfl
  obtain rfl | rfl | rfl := width
  · rw [readColumn, readChar, first]
    rfl
  · rw [readColumn, double le_rfl]
    rfl
  · have high : read16 mem (data + 2) = some (bytes 3 ++ bytes 2) := by
      rw [read16, holds 2 (by decide), Nat.add_assoc, holds 3 (by decide)]
      rfl
    rw [readColumn, read32, double (by decide), high]
    rfl

/-- Only the sign of a byte is misread. -/
theorem columnValue_toNat_iff {n : Nat} (width : n = 1 ∨ n = 2 ∨ n = 4) :
    (columnValue charSigned bytes n).toNat = littleEndian bytes n ↔
      (charSigned = true → n = 1 → (bytes 0).toNat < 2 ^ 7) := by
  have pair : ∀ b b1 : Byte, (b1 ++ b).toNat = b1.toNat * 2 ^ 8 + b.toNat := fun _ _ => WordMachine.toNat_pair
  obtain rfl | rfl | rfl := width
  · have number : littleEndian bytes 1 = (bytes 0).toNat := by simp [littleEndian]
    rw [number, columnValue]
    cases charSigned with
    | false =>
      rw [if_neg (by decide), BitVec.toNat_setWidth]
      exact iff_of_true (Nat.mod_eq_of_lt (by omega)) nofun
    | true =>
      rw [if_pos rfl, BitVec.toNat_signExtend, BitVec.toNat_setWidth, BitVec.msb_eq_decide]
      simp only [decide_eq_true_eq, true_implies]
      split <;> omega
  · have number : littleEndian bytes 2 = (bytes 0).toNat + 2 ^ 8 * (bytes 1).toNat := by
      simp [littleEndian, range_succ]
    rw [number, columnValue, BitVec.toNat_setWidth, pair]
    omega
  · have number : littleEndian bytes 4 = (bytes 0).toNat + 2 ^ 8 * (bytes 1).toNat + 2 ^ 16 * (bytes 2).toNat +
        2 ^ 24 * (bytes 3).toNat := by
      simp [littleEndian, range_succ, Nat.add_assoc]
    change ((bytes 3 ++ bytes 2) ++ (bytes 1 ++ bytes 0)).toNat = _ ↔ _
    rw [number, WordMachine.toNat_pair, pair, pair]
    omega

variable {data : Nat} {bitfield : BitVec 32} {value : Nat → BitVec 32}

theorem decodeRowLoop_eq : ∀ left i : Nat, (∀ col, i ≤ col → col < i + left →
      readColumn charSigned mem (data + fieldOffset (monoMetadataTableSize bitfield) col)
        (monoMetadataTableSize bitfield col) = some (value col)) →
      decodeRowLoop charSigned mem bitfield left i (data + fieldOffset (monoMetadataTableSize bitfield) i) =
        some ((List.range' i left).map value)
  | 0, _, _ => rfl
  | left + 1, i, reads => by
      rw [decodeRowLoop, reads i le_rfl (by omega), Nat.add_assoc, ← fieldOffset_succ,
        decodeRowLoop_eq left (i + 1) fun col from_ below => reads col (by omega) (by omega)]
      rfl

/-- The loop of `mono_metadata_decode_row_col` comes to the same place. -/
theorem columnLoop_eq (bitfield : BitVec 32) (data : Nat) : ∀ left i : Nat,
    columnLoop bitfield left i (data + fieldOffset (monoMetadataTableSize bitfield) i) (monoMetadataTableSize bitfield i) =
      (data + fieldOffset (monoMetadataTableSize bitfield) (i + left), monoMetadataTableSize bitfield (i + left))
  | 0, i => rfl
  | left + 1, i => by
      rw [columnLoop, Nat.add_assoc, ← fieldOffset_succ, columnLoop_eq bitfield data left, Nat.add_right_comm]
      rfl

/-- For every table that is laid out, both readers give the columns of every row of every memory that has the bytes of
the row, exactly if a `char` is unsigned or no column of one byte has its sign bit; the columns always share out the
bytes of the row. -/
theorem rowsDecoded_iff {image : MonoImage} {table : MonoTable} {rowSize : Nat}
    (run : monoMetadataComputeSize image table = some (rowSize, bitfield))
    (isRowSize : t.rowSize = BitVec.ofNat 8 rowSize)
    (isBitfield : t.sizeBitfield = bitfield)
    (inTable : idx < t.rows)
    (holds : HoldsRow mem t idx row) :
    (DecodesRow charSigned mem t idx row ∧ ColumnsPartition t) ↔
      (charSigned = true → ∀ col < monoMetadataTableCount bitfield, monoMetadataTableSize bitfield col = 1 →
        (row (fieldOffset (monoMetadataTableSize bitfield) col)).toNat < 2 ^ 7) := by
  obtain ⟨total, small, width⟩ := computed_widths run
  have isRow : t.rowSize.toNat = rowSize := by
    rw [isRowSize, BitVec.toNat_ofNat, Nat.mod_eq_of_lt small]
  subst isBitfield
  have partition : ColumnsPartition t := ⟨total.trans isRow.symm, fun k inside =>
    fieldOffset_partition _ (by rwa [total, ← isRow])⟩
  set size := monoMetadataTableSize t.sizeBitfield
  set count := monoMetadataTableCount t.sizeBitfield with isCount
  let value col := columnValue charSigned (fun k => row (fieldOffset size col + k)) (size col)
  have reads : ∀ col < count,
      readColumn charSigned mem (t.base + idx * t.rowSize.toNat + fieldOffset size col) (size col) =
        some (value col) := by
    intro col less
    refine readColumn_eq (width col less) fun k inside => ?_
    have within := fieldOffset_mono size less
    rw [Nat.succ_eq_add_one, fieldOffset_succ, total] at within
    rw [Nat.add_assoc]
    exact holds _ (by omega)
  have decoded : monoMetadataDecodeRow charSigned mem t idx count = some ((List.range count).map value) := by
    rw [monoMetadataDecodeRow, ← isCount, if_pos ⟨inTable, rfl⟩, range_eq_range']
    exact decodeRowLoop_eq count 0 fun col _ below => reads col (by omega)
  have column : ∀ col < count, monoMetadataDecodeRowCol charSigned mem t idx col = some (value col) := by
    intro col less
    have place := columnLoop_eq t.sizeBitfield (t.base + idx * t.rowSize.toNat) col 0
    rw [Nat.zero_add] at place
    rw [monoMetadataDecodeRowCol, if_pos ⟨inTable, less⟩, ← reads col less]
    exact congrArg (fun place => readColumn charSigned mem place.1 place.2) place
  constructor
  · rintro ⟨⟨values, isRow, _, each⟩, _⟩ signed col less one
    obtain ⟨_, number⟩ := each col less
    rw [decoded] at isRow
    cases isRow
    rw [getElem?_map, getElem?_range less] at number
    exact (columnValue_toNat_iff (width col less)).1 (Option.some.inj number) signed one
  · intro positive
    refine ⟨⟨_, decoded, by rw [length_map, length_range], fun col less => ?_⟩, partition⟩
    rw [column col less, getElem?_map, getElem?_range less]
    exact ⟨rfl, congrArg some ((columnValue_toNat_iff (width col less)).2 fun signed => positive signed col less)⟩

end Readers

/-! ### Constants -/

/-- One constant, and no other rows. -/
def constantImage : MonoImage :=
  loadTables 0 fun table => if table = .constant then 1 else 0

def constantInfo : MonoTableInfo := ⟨0, 1, 6, 0x04000050⟩

def constantRow (type : Byte) (k : Nat) : Byte :=
  if k = 0 then type else 0

/-- The bytes of the row, and no others. -/
def constantMemory (type : Byte) : Memory := fun k =>
  if k < 6 then some (constantRow type k) else none

theorem constantImage_run : monoMetadataComputeSize constantImage .constant = some (6, 0x04000050) := by
  decide

theorem constantMemory_holds (type : Byte) : HoldsRow (constantMemory type) constantInfo 0 (constantRow type) := by
  intro k inside
  rw [constantInfo, Nat.zero_mul, Nat.zero_add]
  exact if_pos inside

theorem rowsDecoded_iff_string : DecodesRow true (constantMemory 0x0e) constantInfo 0 (constantRow 0x0e) :=
  ((rowsDecoded_iff constantImage_run rfl rfl (by decide) (constantMemory_holds 0x0e)).2 (by decide)).1

/-- A type of `0xff` comes out of both readers as `0xffffffff`. -/
theorem constantType_misread :
    monoMetadataComputeSize constantImage .constant = some (6, 0x04000050) ∧
      HoldsRow (constantMemory 0xff) constantInfo 0 (constantRow 0xff) ∧
      monoMetadataDecodeRow true (constantMemory 0xff) constantInfo 0 4 = some [0xffffffff, 0, 0, 0] ∧
      monoMetadataDecodeRowCol true (constantMemory 0xff) constantInfo 0 0 = some 0xffffffff ∧
      ¬ DecodesRow true (constantMemory 0xff) constantInfo 0 (constantRow 0xff) := by
  have decoded : monoMetadataDecodeRow true (constantMemory 0xff) constantInfo 0 4 = some [0xffffffff, 0, 0, 0] := by
    decide
  refine ⟨constantImage_run, constantMemory_holds 0xff, decoded, by decide, ?_⟩
  rintro ⟨values, isRow, _, each⟩
  obtain ⟨_, number⟩ := each 0 (by decide)
  cases decoded.symm.trans isRow
  exact absurd number (by decide)

end MonoRuntime.TableRow
