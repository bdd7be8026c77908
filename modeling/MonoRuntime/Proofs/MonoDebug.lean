/-
Module: MonoRuntime.Proofs.MonoDebug
Purpose: The records of the debug data tables are read back as they were written, in buffers that are large
  enough, and the items of a table lie apart in their chunks, whatever is added.
Trusted boundary: none
Main exports: monoDebug_storesItsItems
-/
import MonoRuntime.Metadata.MonoDebug

namespace MonoRuntime.MonoDebug

open List Option
open Leb128 Memory Reader
open DebugInfo (MonoDebugLineNumberEntry)

variable {t : Target}

/-! ### Reading what was written -/

theorem reads_leb128 (value : BitVec 32) : Reads readLeb128 (writeLeb128 value) value :=
  fun rest => decodeUnsigned_encodeUnsigned value rest

theorem reads_sleb128 (value : BitVec 32) : Reads readSleb128 (writeSleb128 value) value :=
  fun rest => decodeSigned_encodeSigned (by decide) value rest

variable {n size aligned : Nat} {table : MonoDebugDataTable} {item : Item}

theorem reads_raw (raw : Raw n) : Reads (readRaw n) raw.cells raw := by
  intro rest
  obtain ⟨cells, whole⟩ := raw
  subst whole
  have enough : cells.length ≤ (cells ++ rest).length := by
    rw [length_append]
    exact Nat.le_add_right _ _
  unfold readRaw
  rw [dif_pos enough]
  simp only [take_left, drop_left]

variable (var : MonoDebugVarInfo t)

theorem reads_variable : Reads readVariable (writeVariable var) var := by
  refine reads_bind (reads_leb128 _) ?_
  refine reads_bind (reads_sleb128 _) ?_
  refine reads_bind (reads_leb128 _) ?_
  refine reads_bind (reads_leb128 _) ?_
  refine reads_bind (reads_leb128 _) ?_
  exact reads_bind_pure (reads_raw var.type)

theorem reads_line (lne : MonoDebugLineNumberEntry) : Reads readLine (writeLine lne) lne := by
  refine reads_bind (reads_sleb128 _) ?_
  exact reads_bind_pure (reads_sleb128 lne.nativeOffset)

theorem reads_this (thisVar : Option (MonoDebugVarInfo t)) : Reads readThis (writeThis thisVar) thisVar := by
  cases thisVar with
  | none =>
    have flag : writeThis (none : Option (MonoDebugVarInfo t)) = [0] ++ [] := rfl
    exact reads_bind (reads_next 0) (reads_pure none)
  | some var =>
    have flag : writeThis (some var) = [1] ++ writeVariable var := rfl
    rw [flag]
    refine reads_bind (reads_next 1) ?_
    unfold readThisVar
    rw [if_neg (by decide)]
    exact reads_bind_pure (reads_variable var)

theorem count_toNat (small : n < 2 ^ 32) : (BitVec.ofNat 32 n).toNat = n := by
  rw [BitVec.toNat_ofNat, Nat.mod_eq_of_lt small]

theorem reads_variables (vars : List (MonoDebugVarInfo t)) (small : vars.length < 2 ^ 32) :
    Reads readVariables (writeVariables vars) vars := by
  refine reads_bind (reads_leb128 _) ?_
  rw [count_toNat small]
  exact reads_list vars reads_variable

/-- The wrapper address that is read back. -/
def noWrapper (t : Target) : Raw t.pointerSize :=
  Block.filled 0 t.pointerSize

/-- What `mono_debug_read_method` makes of what `mono_debug_add_method` stored. -/
theorem reads_method (header : Raw (16 + 3 * t.pointerSize)) (jit : MonoDebugMethodJitInfo t)
    (counted : jit.Counted) : Reads readMethod (addressFields header jit ++ writeRecord jit)
      { jit with wrapperAddr := noWrapper t } := by
  have fields : addressFields header jit ++ writeRecord jit
      = header.cells ++ (jit.codeStart.cells ++ ((noWrapper t).cells ++ (jit.codeSize.cells ++
          writeRecord jit))) := by
    simp only [addressFields, append_assoc]
    rfl
  rw [fields]
  refine reads_bind (reads_raw _) ?_
  refine reads_bind (reads_raw _) ?_
  refine reads_bind (reads_raw _) ?_
  refine reads_bind (reads_raw _) ?_
  refine reads_bind (reads_leb128 _) ?_
  refine reads_bind (reads_leb128 _) ?_
  refine reads_bind (reads_leb128 _) ?_
  rw [count_toNat counted.lines]
  refine reads_bind (reads_list jit.lineNumbers reads_line) ?_
  refine reads_bind (reads_this jit.thisVar) ?_
  refine reads_bind (reads_variables jit.params counted.params) ?_
  exact reads_bind_pure (reads_variables jit.locals counted.locals)

/-! ### How many bytes were written -/

theorem length_leb128 (value : BitVec 32) : (writeLeb128 value).length = lebBytes value := by
  have shift (v : BitVec 32) : (v >>> 7).toNat = v.toNat / 128 := by
    rw [BitVec.toNat_ushiftRight, Nat.shiftRight_eq_div_pow]
  unfold writeLeb128 encodeUnsigned lebBytes
  rw [length_encodeUnsignedAux]
  by_cases one : value.toNat < 2 ^ 7
  · rw [if_pos one, if_pos (show value.toNat < 128 from one)]
  · rw [if_neg one, if_neg (show ¬ value.toNat < 128 from one), length_encodeUnsignedAux, shift]
    by_cases two : value.toNat < 2 ^ 14
    · rw [if_pos (show value.toNat / 128 < 128 by omega), if_pos two]
    · rw [if_neg (show ¬ value.toNat / 128 < 128 by omega), if_neg two, length_encodeUnsignedAux,
        shift, shift]
      by_cases three : value.toNat < 2 ^ 21
      · rw [if_pos (show value.toNat / 128 / 128 < 128 by omega), if_pos three]
      · rw [if_neg (show ¬ value.toNat / 128 / 128 < 128 by omega), if_neg three,
          length_encodeUnsignedAux, shift, shift, shift]
        by_cases four : value.toNat < 2 ^ 28
        · rw [if_pos (show value.toNat / 128 / 128 / 128 < 128 by omega), if_pos four]
        · rw [if_neg (show ¬ value.toNat / 128 / 128 / 128 < 128 by omega), if_neg four,
            length_encodeUnsignedAux, shift, shift, shift, shift,
            if_pos (show value.toNat / 128 / 128 / 128 / 128 < 128 by omega)]

theorem length_sleb128 (value : BitVec 32) : (writeSleb128 value).length = slebBytes value := by
  have shift (v : BitVec 32) : (v.sshiftRight 7).toInt = v.toInt / 128 := toInt_sshiftRight_seven v
  have lower := BitVec.le_toInt value
  have upper := BitVec.toInt_lt (x := value)
  unfold writeSleb128 encodeSigned slebBytes
  rw [length_encodeSignedAux (by decide)]
  generalize same : value.toInt = v at lower upper ⊢
  by_cases one : -2 ^ 6 ≤ v ∧ v < 2 ^ 6
  · rw [if_pos one, if_pos (show -64 ≤ v ∧ v < 64 by omega)]
  · rw [if_neg one, if_neg (show ¬ (-64 ≤ v ∧ v < 64) by omega), length_encodeSignedAux (by decide),
      shift, same]
    by_cases two : -2 ^ 13 ≤ v ∧ v < 2 ^ 13
    · rw [if_pos (show -64 ≤ v / 128 ∧ v / 128 < 64 by omega), if_pos two]
    · rw [if_neg (show ¬ (-64 ≤ v / 128 ∧ v / 128 < 64) by omega), if_neg two,
        length_encodeSignedAux (by decide), shift, shift, same]
      by_cases three : -2 ^ 20 ≤ v ∧ v < 2 ^ 20
      · rw [if_pos (show -64 ≤ v / 128 / 128 ∧ v / 128 / 128 < 64 by omega), if_pos three]
      · rw [if_neg (show ¬ (-64 ≤ v / 128 / 128 ∧ v / 128 / 128 < 64) by omega), if_neg three,
          length_encodeSignedAux (by decide), shift, shift, shift, same]
        by_cases four : -2 ^ 27 ≤ v ∧ v < 2 ^ 27
        · rw [if_pos (show -64 ≤ v / 128 / 128 / 128 ∧ v / 128 / 128 / 128 < 64 by omega),
            if_pos four]
        · rw [if_neg (show ¬ (-64 ≤ v / 128 / 128 / 128 ∧ v / 128 / 128 / 128 < 64) by omega),
            if_neg four, length_encodeSignedAux (by decide), shift, shift, shift, shift, same,
            if_pos (show -64 ≤ v / 128 / 128 / 128 / 128 ∧ v / 128 / 128 / 128 / 128 < 64 by omega)]

theorem lebBytes_bounds (value : BitVec 32) : 1 ≤ lebBytes value ∧ lebBytes value ≤ 5 := by
  unfold lebBytes
  repeat' split
  all_goals omega

theorem slebBytes_bounds (value : BitVec 32) : 1 ≤ slebBytes value ∧ slebBytes value ≤ 5 := by
  unfold slebBytes
  repeat' split
  all_goals omega

theorem lebBytes_small (small : n < 2 ^ 28) : lebBytes (BitVec.ofNat 32 n) ≤ 4 := by
  unfold lebBytes
  rw [count_toNat (by omega)]
  repeat' split
  all_goals omega

theorem length_variable : (writeVariable var).length = variableBytes var := by
  simp only [writeVariable, variableBytes, length_append, length_leb128, length_sleb128,
    var.type.whole]
  omega

theorem variableBytes_le : variableBytes var ≤ 25 + t.pointerSize := by
  have one := (lebBytes_bounds var.index).2
  have two := (slebBytes_bounds var.offset).2
  have three := (lebBytes_bounds var.size).2
  have four := (lebBytes_bounds var.beginScope).2
  have five := (lebBytes_bounds var.endScope).2
  unfold variableBytes
  omega

variable (jit : MonoDebugMethodJitInfo t) {α : Type}

theorem length_flatMap_eq {write : α → List Byte} {bytes : α → Nat} (values : List α)
    (each : ∀ a, (write a).length = bytes a) : (values.flatMap write).length = (values.map bytes).sum := by
  induction values with
  | nil => rfl
  | cons a values ih =>
    rw [flatMap_cons, length_append, map_cons, sum_cons, each, ih]

theorem sum_le {bytes : α → Nat} {bound : Nat} (values : List α) (each : ∀ a, bytes a ≤ bound) :
    (values.map bytes).sum ≤ bound * values.length := by
  induction values with
  | nil => exact Nat.zero_le _
  | cons a values ih =>
    have first := each a
    rw [map_cons, sum_cons, length_cons, Nat.mul_succ]
    omega

theorem length_record : (writeRecord jit).length = recordBytes jit := by
  have line (lne : MonoDebugLineNumberEntry) :
      (writeLine lne).length = slebBytes lne.ilOffset + slebBytes lne.nativeOffset := by
    rw [writeLine, length_append, length_sleb128, length_sleb128]
  have lines := length_flatMap_eq jit.lineNumbers line
  have this : (writeThis jit.thisVar).length = 1 + (jit.thisVar.map variableBytes).getD 0 := by
    cases jit.thisVar with
    | none => rfl
    | some var =>
      rw [writeThis, length_cons, length_variable, Nat.add_comm]
      rfl
  have params := length_flatMap_eq jit.params length_variable
  have locals := length_flatMap_eq jit.locals length_variable
  simp only [writeRecord, recordBytes, writeVariables, variablesBytes, length_append,
    length_leb128, lines, this, params, locals]
  omega

theorem recordBytes_lt_wantedSize (notCut : wantedSize jit < 2 ^ 32) : recordBytes jit < wantedSize jit := by
  have one := (lebBytes_bounds jit.prologueEnd).2
  have two := (lebBytes_bounds jit.epilogueBegin).2
  have three := (lebBytes_bounds (BitVec.ofNat 32 jit.lineNumbers.length)).2
  have lines : (jit.lineNumbers.map fun lne => slebBytes lne.ilOffset + slebBytes lne.nativeOffset).sum
      ≤ 10 * jit.lineNumbers.length := by
    apply sum_le
    intro lne
    have first := (slebBytes_bounds lne.ilOffset).2
    have second := (slebBytes_bounds lne.nativeOffset).2
    omega
  have this : (jit.thisVar.map variableBytes).getD 0 ≤ 25 + t.pointerSize := by
    cases jit.thisVar with
    | none => exact Nat.zero_le _
    | some var => exact variableBytes_le var
  have params := sum_le jit.params variableBytes_le
  have locals := sum_le jit.locals variableBytes_le
  have all : (25 + t.pointerSize) * (1 + jit.params.length + jit.locals.length)
      = (25 + t.pointerSize) + (25 + t.pointerSize) * jit.params.length
        + (25 + t.pointerSize) * jit.locals.length := by
    rw [Nat.mul_add, Nat.mul_add, Nat.mul_one]
  unfold wantedSize at notCut ⊢
  -- a count of five bytes would make the buffer larger than 32 bits
  have few (n : Nat) (below : (25 + t.pointerSize) * n < 2 ^ 32) : n < 2 ^ 28 := by
    have least : 25 * n ≤ (25 + t.pointerSize) * n := Nat.mul_le_mul_right n (by omega)
    omega
  have four := lebBytes_small (few jit.params.length (by omega))
  have five := lebBytes_small (few jit.locals.length (by omega))
  unfold recordBytes variablesBytes
  omega

theorem maxSize_eq : maxSize jit = wantedSize jit % 2 ^ 32 := by
  unfold maxSize wantedSize
  have cut := Nat.mul_mod (25 + t.pointerSize) (1 + jit.params.length + jit.locals.length) (2 ^ 32)
  have again := Nat.mul_mod (25 + t.pointerSize)
    ((1 + jit.params.length + jit.locals.length) % 2 ^ 32) (2 ^ 32)
  rw [Nat.mod_mod] at again
  rw [← again] at cut
  omega

/-- A method is restored, and its buffer large enough, exactly under the condition on its record. -/
theorem roundTrips_iff (counted : jit.Counted) : RoundTrips jit ↔ RecordMeets jit := by
  unfold RoundTrips RecordMeets
  rw [length_record, maxSize_eq]
  have restored (header : Raw (16 + 3 * t.pointerSize)) (rest : List Byte) :=
    reads_method header jit counted rest
  have same : jit.wrapperAddr.cells = List.replicate t.pointerSize 0
      ↔ { jit with wrapperAddr := noWrapper t } = jit := by
    constructor
    · intro cells
      have raw : jit.wrapperAddr = noWrapper t := Block.ext cells
      rw [← raw]
    · intro equal
      have raw := congrArg (fun jit => jit.wrapperAddr.cells) equal
      exact raw.symm
  constructor
  · rintro ⟨fits, reads⟩
    refine ⟨same.mpr ?_, Or.inr fits⟩
    have read := reads (Block.filled 0 _) []
    rw [restored] at read
    exact congrArg Prod.fst (Option.some.inj read)
  · rintro ⟨wrapper, enough⟩
    refine ⟨?_, ?_⟩
    · rcases enough with notCut | short
      · rw [Nat.mod_eq_of_lt notCut]
        exact recordBytes_lt_wantedSize jit notCut
      · exact short
    · intro header rest
      rw [restored, same.mp wrapper]

/-! ### Placing an item -/

theorem Target.positive (t : Target) : 0 < t.pointerSize := by
  rcases t.isPointerSize with four | eight
  · omega
  · omega

theorem le_alignTo (t : Target) (size : Nat) : size ≤ alignTo t size := by
  have positive := t.positive
  unfold alignTo
  have whole := Nat.div_add_mod (size + (t.pointerSize - 1)) t.pointerSize
  have rest := Nat.mod_lt (size + (t.pointerSize - 1)) positive
  rw [Nat.mul_comm] at whole
  omega

theorem wordValue_word {value : Nat} (small : value < 2 ^ 32) : wordValue (word value) = value := by
  unfold word wordValue
  simp only [BitVec.toNat_ofNat]
  omega

/-- The state of a table between two additions: the items in it end where the current chunk goes on,
and every chunk holds what is used of it. -/
structure Closed (table : MonoDebugDataTable) : Prop where
  written : table.current.currentOffset = table.current.used.length
  small : table.current.totalSize < 2 ^ 32
  fits : ∀ i chunk, table.chunk i = some chunk → chunk.used.length ≤ chunk.totalSize

theorem chunk_current (table : MonoDebugDataTable) : table.chunk table.earlier.length = some table.current := by
  unfold MonoDebugDataTable.chunk
  rw [getElem?_append_right (Nat.le_refl _), Nat.sub_self]
  rfl

/-- Going on in the current chunk, or in a new one behind it, keeps the bytes that are used. -/
structure Extends (table table' : MonoDebugDataTable) : Prop where
  longer : table.earlier.length ≤ table'.earlier.length
  kept : ∀ i chunk, table.chunk i = some chunk → ∃ chunk' more, table'.chunk i = some chunk'
    ∧ chunk'.totalSize = chunk.totalSize ∧ chunk'.used = chunk.used ++ more

theorem Extends.refl (table : MonoDebugDataTable) : Extends table table where
  longer := Nat.le_refl _
  kept := by
    intro i chunk found
    exact ⟨chunk, [], found, rfl, (append_nil _).symm⟩

theorem Extends.trans {first second third : MonoDebugDataTable}
    (one : Extends first second) (two : Extends second third) : Extends first third where
  longer := Nat.le_trans one.longer two.longer
  kept := by
    intro i chunk found
    obtain ⟨chunk', more, found', total, used⟩ := one.kept i chunk found
    obtain ⟨chunk'', more', found'', total', used'⟩ := two.kept i chunk' found'
    exact ⟨chunk'', more ++ more', found'', by rw [total', total], by
      rw [used', used, append_assoc]⟩

theorem extends_newChunk (table : MonoDebugDataTable) (totalSize : Nat) :
    Extends table { earlier := table.earlier ++ [table.current], current := newChunk totalSize } where
  longer := by
    rw [length_append]
    exact Nat.le_add_right _ _
  kept := by
    intro i chunk found
    refine ⟨chunk, [], ?_, rfl, (append_nil _).symm⟩
    unfold MonoDebugDataTable.chunk at found ⊢
    have inside := (List.getElem?_eq_some_iff.mp found).1
    rw [getElem?_append_left inside]
    exact found

theorem extends_used (table : MonoDebugDataTable) (more : List Byte) (currentOffset : Nat) :
    Extends table { table with current := { table.current with
      currentOffset := currentOffset, used := table.current.used ++ more } } where
  longer := Nat.le_refl _
  kept := by
    intro i chunk found
    unfold MonoDebugDataTable.chunk at found ⊢
    by_cases before : i < table.earlier.length
    · rw [getElem?_append_left before] at found ⊢
      exact ⟨chunk, [], found, rfl, (append_nil _).symm⟩
    · have inside := (List.getElem?_eq_some_iff.mp found).1
      rw [length_append, length_singleton] at inside
      have last : i = table.earlier.length := by omega
      subst last
      rw [getElem?_append_right (Nat.le_refl _), Nat.sub_self] at found ⊢
      cases found
      exact ⟨_, more, rfl, rfl, rfl⟩

theorem makeRoom_spec (closed : Closed table) (item : size + 16 < 2 ^ 32)
    (place : table.current.used.length + size + 8 < 2 ^ 32) :
    Extends table (makeRoom table size) ∧ Closed (makeRoom table size)
      ∧ (makeRoom table size).current.used.length + (size + 8) ≤ (makeRoom table size).current.totalSize := by
  unfold makeRoom
  simp only
  rw [Nat.mod_eq_of_lt item, Nat.mod_eq_of_lt place]
  split
  next full =>
    have chunkSize : size + 8 ≤ (if size + 16 < dataTableChunkSize then dataTableChunkSize
        else size + 16) ∧ (if size + 16 < dataTableChunkSize then dataTableChunkSize
        else size + 16) < 2 ^ 32 := by
      unfold dataTableChunkSize
      split
      · omega
      · omega
    refine ⟨extends_newChunk table _, ⟨rfl, chunkSize.2, ?_⟩, ?_⟩
    · intro i chunk found
      unfold MonoDebugDataTable.chunk at found
      simp only at found
      by_cases before : i < (table.earlier ++ [table.current]).length
      · rw [getElem?_append_left before] at found
        exact closed.fits i chunk found
      · have inside := (List.getElem?_eq_some_iff.mp found).1
        rw [length_append, length_singleton] at inside
        have last : i = (table.earlier ++ [table.current]).length := by omega
        subst last
        rw [getElem?_append_right (Nat.le_refl _), Nat.sub_self] at found
        cases found
        exact Nat.zero_le _
    · show 0 + (size + 8) ≤ _
      rw [Nat.zero_add]
      exact chunkSize.1
  next room => exact ⟨Extends.refl table, closed, by omega⟩

theorem Closed.used {more : List Byte} (closed : Closed table)
    (room : table.current.used.length + more.length ≤ table.current.totalSize) :
    Closed { table with current := { table.current with
      currentOffset := (table.current.used ++ more).length, used := table.current.used ++ more } } where
  written := rfl
  small := closed.small
  fits := by
    intro i chunk found
    unfold MonoDebugDataTable.chunk at found
    by_cases before : i < table.earlier.length
    · rw [getElem?_append_left before] at found
      refine closed.fits i chunk ?_
      unfold MonoDebugDataTable.chunk
      rw [getElem?_append_left before]
      exact found
    · have inside := (List.getElem?_eq_some_iff.mp found).1
      rw [length_append, length_singleton] at inside
      have last : i = table.earlier.length := Nat.le_antisymm (Nat.le_of_lt_succ inside)
        (Nat.le_of_not_lt before)
      subst last
      rw [getElem?_append_right (Nat.le_refl _), Nat.sub_self] at found
      cases found
      rw [length_append]
      exact room

/-- What an addition leaves: the item behind everything that was used of its chunk, with its
contents. -/
structure Added (table table' : MonoDebugDataTable) (item : Item) (size : Nat) (contents : List Byte) :
    Prop where
  closed : Closed table'
  extends_ : Extends table table'
  itemSize : item.size = size
  behind : ∀ chunk, table.chunk item.chunk = some chunk → chunk.used.length ≤ item.offset
  placed : ∃ chunk rest, table'.chunk item.chunk = some chunk
    ∧ item.offset + size ≤ chunk.used.length ∧ chunk.used.drop item.offset = contents ++ rest

/-- The bytes that an item adds to its chunk: its aligned size, its type, and the contents with zeros
behind them. -/
def itemBytes (aligned : Nat) (type : MonoDebugDataItemType) (contents : List Byte) : List Byte :=
  word aligned ++ (word type.value ++ (contents ++ List.replicate (aligned - contents.length) 0))

theorem length_word (value : Nat) : (word value).length = 4 := rfl

theorem length_itemBytes (type : MonoDebugDataItemType) {contents : List Byte} (short : contents.length ≤ aligned) :
    (itemBytes aligned type contents).length = aligned + 8 := by
  unfold itemBytes
  rw [length_append, length_append, length_append, length_word, length_word,
    length_replicate]
  omega

theorem store_contents (used : List Byte) (type : MonoDebugDataItemType) {contents : List Byte}
    (short : contents.length ≤ aligned) :
    overwrite (used ++ (word aligned ++ (word type.value ++ List.replicate aligned 0)))
        (used.length + 8) contents = some (used ++ itemBytes aligned type contents) := by
  have blank : (List.replicate contents.length (0 : Byte)).length = contents.length :=
    length_replicate
  have split : List.replicate aligned (0 : Byte)
      = List.replicate contents.length 0 ++ List.replicate (aligned - contents.length) 0 := by
    rw [replicate_append_replicate, Nat.add_sub_cancel' short]
  have found := overwrite_middle (used ++ (word aligned ++ word type.value))
    (List.replicate (aligned - contents.length) 0) blank
  have front : (used ++ (word aligned ++ word type.value)).length = used.length + 8 := by
    rw [length_append, length_append, length_word, length_word]
  rw [front] at found
  simp only [append_assoc] at found
  rw [split]
  exact found

theorem read_size (used : List Byte) (aligned : Nat) (type : MonoDebugDataItemType) (contents : List Byte) :
    read (used ++ itemBytes aligned type contents) (used.length + 8 - 8) 4 = some (word aligned) := by
  have found := read_middle used (word aligned)
    (word type.value ++ (contents ++ List.replicate (aligned - contents.length) 0))
  exact found

theorem allocateDataItem_eq (type : MonoDebugDataItemType) (closed : Closed table) (meets : ItemMeets t table size) :
    ∃ table1, Extends table table1 ∧ Closed table1
      ∧ table1.current.used.length + (alignTo t size + 8) ≤ table1.current.totalSize ∧ allocateDataItem t table type size
        = some ({ table1 with current := { table1.current with used := table1.current.used ++
            (word (alignTo t size) ++ (word type.value ++ List.replicate (alignTo t size) 0)) } },
          { chunk := table1.earlier.length, offset := table1.current.used.length + 8, size := size }) := by
  obtain ⟨item, place⟩ := meets
  obtain ⟨grown, closed', room⟩ := makeRoom_spec closed item place
  have cut : alignTo t size % 2 ^ 32 = alignTo t size :=
    Nat.mod_eq_of_lt (Nat.lt_of_le_of_lt (Nat.le_add_right _ 16) item)
  refine ⟨makeRoom table (alignTo t size), grown, closed', room, ?_⟩
  unfold allocateDataItem
  rw [cut, if_pos closed.written, if_pos ⟨room, le_alignTo t size⟩]

theorem writeDataItem_eq (earlier : List MonoDebugDataChunk) (totalSize : Nat) (used : List Byte)
    (type : MonoDebugDataItemType) {contents : List Byte} (chunk size : Nat) (small : aligned < 2 ^ 32)
    (short : contents.length ≤ aligned) :
    writeDataItem ⟨earlier, ⟨totalSize, used.length, used ++ itemBytes aligned type contents⟩⟩
        ⟨chunk, used.length + 8, size⟩ = some ⟨earlier, ⟨totalSize, (used ++ itemBytes aligned type contents).length,
          used ++ itemBytes aligned type contents⟩⟩ := by
  have ended : used.length + aligned + 8 = (used ++ itemBytes aligned type contents).length := by
    rw [length_append, length_itemBytes type short, Nat.add_assoc]
  have size := read_size used aligned type contents
  have value := wordValue_word small
  generalize itemBytes aligned type contents = bytes at ended size ⊢
  generalize word aligned = stored at size value
  show (read (used ++ bytes) (used.length + 8 - 8) 4).bind (fun found =>
    if used.length + wordValue found + 8 = (used ++ bytes).length then
      some (⟨earlier, ⟨totalSize, (used ++ bytes).length, used ++ bytes⟩⟩ : MonoDebugDataTable)
    else none) = _
  rw [size, bind_some, value, if_pos ended]

theorem addItem_spec {contents : List Byte} (type : MonoDebugDataItemType) (closed : Closed table)
    (meets : ItemMeets t table size) (short : contents.length ≤ size) :
    ∃ table' item, addItem t table type size contents = some (table', item) ∧ Added table table' item size contents := by
  have aligned := le_alignTo t size
  have small : alignTo t size < 2 ^ 32 := Nat.lt_of_le_of_lt (Nat.le_add_right _ 16) meets.1
  obtain ⟨table1, grown, closed', room, allocated⟩ := allocateDataItem_eq type closed meets
  generalize alignTo t size = a at aligned small room allocated
  have total := length_itemBytes type (Nat.le_trans short aligned)
  refine ⟨{ table1 with current := { table1.current with
      currentOffset := (table1.current.used ++ itemBytes a type contents).length,
      used := table1.current.used ++ itemBytes a type contents } },
    { chunk := table1.earlier.length, offset := table1.current.used.length + 8, size := size }, ?_, ?_⟩
  · have stored := store_contents table1.current.used type (Nat.le_trans short aligned)
    have written := writeDataItem_eq table1.earlier table1.current.totalSize table1.current.used type
      table1.earlier.length size small (Nat.le_trans short aligned)
    generalize itemBytes a type contents = bytes at stored written ⊢
    generalize word a ++ (word type.value ++ List.replicate a 0) = fresh at allocated stored
    unfold addItem
    rw [allocated]
    show (overwrite (table1.current.used ++ fresh) (table1.current.used.length + 8) contents).bind
      (fun used => (writeDataItem ⟨table1.earlier, ⟨table1.current.totalSize,
          table1.current.currentOffset, used⟩⟩
        ⟨table1.earlier.length, table1.current.used.length + 8, size⟩).bind
        fun table => some (table,
          (⟨table1.earlier.length, table1.current.used.length + 8, size⟩ : Item))) = _
    rw [stored, bind_some, closed'.written, written, bind_some]
  · refine ⟨closed'.used (by rw [total]; exact room),
      grown.trans (extends_used table1 (itemBytes a type contents) _), rfl, ?_, ?_⟩
    · intro chunk found
      obtain ⟨chunk', more, found', -, used⟩ := grown.kept _ chunk found
      rw [chunk_current table1] at found'
      cases found'
      rw [used, length_append]
      exact Nat.le_trans (Nat.le_add_right _ _) (Nat.le_add_right _ _)
    · refine ⟨_, List.replicate (a - contents.length) 0, chunk_current _, ?_, ?_⟩
      · show table1.current.used.length + 8 + size
          ≤ (table1.current.used ++ itemBytes a type contents).length
        rw [length_append, total]
        omega
      · show (table1.current.used ++ itemBytes a type contents).drop (table1.current.used.length + 8)
          = contents ++ List.replicate (a - contents.length) 0
        rw [← drop_drop, drop_left]
        rfl

/-! ### Runs -/

/-- An item of a table with the contents that its addition stored. -/
def Placed (table : MonoDebugDataTable) (item : Item) (contents : List Byte) : Prop :=
  ∃ chunk rest, table.chunk item.chunk = some chunk
    ∧ item.offset + item.size ≤ chunk.used.length ∧ chunk.used.drop item.offset = contents ++ rest

variable {table' : MonoDebugDataTable}

theorem Placed.extends {contents : List Byte} (placed : Placed table item contents)
    (grown : Extends table table') : Placed table' item contents := by
  obtain ⟨chunk, rest, found, inside, same⟩ := placed
  obtain ⟨chunk', more, found', -, used⟩ := grown.kept _ chunk found
  refine ⟨chunk', rest ++ more, found', ?_, ?_⟩
  · rw [used, length_append]
    omega
  · rw [used, drop_append_of_le_length (by omega), same, append_assoc]

/-- What an addition stores in its item. -/
def Addition.contents : Addition t → List Byte
  | .method header jit => addressFields header jit ++ writeRecord jit
  | .item _ _ contents => contents

variable {addition : Addition t}

theorem addition_spec (closed : Closed table) (inRange : addition.InRange) (meets : addition.Meets table) :
    ∃ table' item size, addition.apply table = some (table', item) ∧ Added table table' item size addition.contents := by
  cases addition with
  | method header jit =>
    obtain ⟨record, place⟩ := meets
    have fits := ((roundTrips_iff jit inRange).mpr record).1
    have large : recordBytes jit + t.addressSize < 2 ^ 32 := by
      have := le_alignTo t (recordBytes jit + t.addressSize)
      have := place.1
      omega
    have fields : (addressFields header jit).length = 20 + 5 * t.pointerSize := by
      simp only [addressFields, length_append, header.whole, jit.codeStart.whole,
        jit.codeSize.whole, length_replicate]
      omega
    have short : (addressFields header jit ++ writeRecord jit).length
        ≤ recordBytes jit + t.addressSize := by
      have := t.holdsFields
      rw [length_append, fields, length_record]
      omega
    obtain ⟨table', item, added, spec⟩ := addItem_spec .method closed place short
    refine ⟨table', item, _, ?_, spec⟩
    rw [Addition.apply, addMethod, if_pos fits, length_record, Nat.mod_eq_of_lt large]
    exact added
  | item type size contents =>
    obtain ⟨table', item, added, spec⟩ := addItem_spec type closed meets inRange.2
    exact ⟨table', item, size, added, spec⟩

theorem runAdditions_append (table : MonoDebugDataTable) (additions : List (Addition t)) (addition : Addition t) :
    runAdditions table (additions ++ [addition])
      = (runAdditions table additions).bind fun found =>
          (addition.apply found.1).map fun added => (added.1, found.2 ++ [added.2]) := by
  induction additions generalizing table with
  | nil =>
    simp only [nil_append, runAdditions, bind_eq_bind, bind_some]
    cases addition.apply table with
    | none | some added => rfl
  | cons first additions ih =>
    rw [cons_append, runAdditions, runAdditions]
    cases first.apply table with
    | none => rfl
    | some added =>
      simp only [bind_eq_bind, bind_some, ih]
      cases runAdditions added.1 additions with
      | none => rfl
      | some found =>
        simp only [bind_some]
        cases addition.apply found.1 with
        | none | some last => rfl

/-- The items of a run. -/
structure RunInv (table : MonoDebugDataTable) (items : List Item) (additions : List (Addition t)) :
    Prop where
  closed : Closed table
  apart : items.Pairwise Item.Disjoint
  placed : List.Forall₂ (fun item addition => Placed table item addition.contents) items additions

theorem closed_createDataTable : Closed createDataTable where
  written := rfl
  small := by decide
  fits := by
    intro i chunk found
    cases i with
    | zero =>
      cases found
      exact Nat.zero_le _
    | succ i => cases found

variable {items : List Item} {additions : List (Addition t)}

theorem placed_of_mem
    (placed : List.Forall₂ (fun item addition => Placed table item (Addition.contents addition)) items additions)
    (member : item ∈ items) : ∃ contents, Placed table item contents := by
  induction placed with
  | nil => cases member
  | cons first _ ih =>
    rcases mem_cons.mp member with same | later
    · rw [same]
      exact ⟨_, first⟩
    · exact ih later

/-- An item behind everything that was used is apart from every item that was placed before. -/
theorem Placed.disjoint {other : Item} {contents stored : List Byte} (placed : Placed table other stored)
    (added : Added table table' item size contents) : other.Disjoint item := by
  obtain ⟨chunk, rest, found, inside, -⟩ := placed
  by_cases same : other.chunk = item.chunk
  · rw [same] at found
    have behind := added.behind chunk found
    exact Or.inr (Or.inl (Nat.le_trans inside behind))
  · exact Or.inl same

theorem run_spec (n : Nat) (additions : List (Addition t)) (count : additions.length = n)
    (meets : AllMeet additions) : ∃ table items, runAdditions createDataTable additions = some (table, items)
      ∧ RunInv table items additions := by
  induction n generalizing additions with
  | zero =>
    rw [eq_nil_of_length_eq_zero count]
    exact ⟨createDataTable, [], rfl, closed_createDataTable, List.Pairwise.nil, List.Forall₂.nil⟩
  | succ n ih =>
    rcases eq_nil_or_concat additions with nothing | ⟨before, addition, concat⟩
    · rw [nothing] at count
      cases count
    · rw [concat_eq_append] at concat
      subst concat
      rw [length_append, length_singleton] at count
      have meets' : AllMeet before := by
        intro front at_ after table items split ran
        exact meets front at_ (after ++ [addition]) table items (by rw [split]; simp) ran
      obtain ⟨table, items, ran, inv⟩ := ih before (by omega) meets'
      obtain ⟨inRange, here⟩ := meets before addition [] table items rfl ran
      obtain ⟨table', item, size, added, spec⟩ := addition_spec inv.closed inRange here
      refine ⟨table', items ++ [item], ?_, spec.closed, ?_, ?_⟩
      · rw [runAdditions_append, ran, bind_some, added]
        rfl
      · rw [pairwise_append]
        refine ⟨inv.apart, pairwise_singleton _ _, ?_⟩
        intro other member last isLast
        obtain ⟨stored, placed⟩ := placed_of_mem inv.placed member
        rw [mem_singleton.mp isLast]
        exact placed.disjoint spec
      · have kept := inv.placed.imp fun _ _ placed => placed.extends spec.extends_
        obtain ⟨chunk, rest, found, inside, same⟩ := spec.placed
        have last : Placed table' item addition.contents :=
          ⟨chunk, rest, found, by rw [spec.itemSize]; exact inside, same⟩
        exact rel_append kept (List.Forall₂.cons last List.Forall₂.nil)

theorem Placed.restored (closed : Closed table) (placed : Placed table item addition.contents)
    (roundTrips : ∀ header jit, addition = .method header jit → RoundTrips jit) :
    item.Inside table ∧ addition.Restored table item := by
  obtain ⟨chunk, rest, found, inside, same⟩ := placed
  refine ⟨⟨chunk, found, Nat.le_trans inside (closed.fits _ _ found)⟩, ?_⟩
  cases addition with
  | item type size contents => exact trivial
  | method header jit =>
    have read := (roundTrips header jit rfl).2 header rest
    rw [Addition.contents] at same
    rw [Addition.Restored, readMethodAt, found]
    simp only [bind_eq_bind, bind_some]
    rw [same, read]
    rfl

/-- All items of a run lie in their chunks, and all its methods are read back. -/
theorem all_restored (closed : Closed table)
    (placed : List.Forall₂ (fun item addition => Placed table item (Addition.contents addition)) items additions)
    (roundTrips : ∀ addition ∈ additions, ∀ header jit, addition = .method header jit → RoundTrips jit) :
    List.Forall₂ (fun item addition => item.Inside table ∧ addition.Restored table item) items
      additions := by
  induction placed with
  | nil => exact List.Forall₂.nil
  | cons first _ ih =>
    refine List.Forall₂.cons (first.restored closed (roundTrips _ (mem_cons_self ..))) (ih ?_)
    intro addition member
    exact roundTrips addition (mem_cons_of_mem _ member)

/-- The records of the debug data tables: a method is restored, and its buffer large enough, exactly
when its wrapper address is not set and the size of the buffer is not cut to 32 bits, or cut to one
that its values still fit into. In every run of additions that meet their conditions, the items lie
apart from each other and inside of their chunks, and every record stays readable. -/
theorem monoDebug_storesItsItems :
    (∀ jit : MonoDebugMethodJitInfo t, jit.Counted → (RoundTrips jit ↔ RecordMeets jit))
      ∧ ∀ additions : List (Addition t), AllMeet additions → Stored additions := by
  refine ⟨roundTrips_iff, ?_⟩
  intro additions meets before after split
  subst split
  have meets' : AllMeet before := by
    intro front addition rest table items split ran
    exact meets front addition (rest ++ after) table items (by rw [split]; simp) ran
  obtain ⟨table, items, ran, inv⟩ := run_spec before.length before rfl meets'
  refine ⟨table, items, ran, inv.apart, ?_⟩
  -- each addition of the run met its condition in the table that it found
  have each : ∀ addition ∈ before, ∀ header jit, addition = .method header jit → RoundTrips jit := by
    intro addition member header jit same
    obtain ⟨front, rest, split⟩ := append_of_mem member
    have earlier : AllMeet front := by
      intro front' addition' rest' table items split' ran
      exact meets' front' addition' (rest' ++ addition :: rest) table items
        (by rw [split, split']; simp) ran
    obtain ⟨table', items', ran', -⟩ := run_spec front.length front rfl earlier
    obtain ⟨inRange, here⟩ := meets' front addition rest table' items' split ran'
    subst same
    exact (roundTrips_iff jit inRange).mpr here.1
  exact all_restored inv.closed inv.placed each

/-! ### Records on a machine of 64 bits -/

theorem holdsFields_eight : 20 + 5 * 8 ≤ 64 := by
  decide

theorem isPointerSize_eight : 8 = 4 ∨ 8 = 8 :=
  Or.inr rfl

/-- Pointers of eight bytes. -/
def target64 : Target where
  pointerSize := 8
  addressSize := 64
  isPointerSize := isPointerSize_eight
  holdsFields := holdsFields_eight

/-- A method with line entries and nothing else. -/
def linesInfo (lines : List MonoDebugLineNumberEntry) : MonoDebugMethodJitInfo target64 where
  codeStart := Block.filled 0 8
  codeSize := Block.filled 0 4
  prologueEnd := 0
  epilogueBegin := 0
  wrapperAddr := Block.filled 0 8
  lineNumbers := lines
  thisVar := none
  params := []
  locals := []

/-- A method with two line entries, one of them with a negative offset. -/
def twoLines : List (Addition target64) :=
  [.method (Block.filled 0 40) (linesInfo [⟨0, 0⟩, ⟨-1, 300⟩])]

/-- The method is restored, and its item lies in the first chunk. -/
theorem monoDebug_storesItsItems_twoLines :
    RoundTrips (linesInfo [⟨0, 0⟩, ⟨-1, 300⟩]) ∧ Stored twoLines := by
  have counted : (linesInfo [⟨0, 0⟩, ⟨-1, 300⟩]).Counted := ⟨by decide, by decide, by decide⟩
  have record : RecordMeets (linesInfo [⟨0, 0⟩, ⟨-1, 300⟩]) := ⟨rfl, Or.inl (by decide)⟩
  refine ⟨(monoDebug_storesItsItems.1 _ counted).mpr record, monoDebug_storesItsItems.2 twoLines ?_⟩
  intro before addition after table items split ran
  cases before with
  | nil =>
      cases split
      cases ran
      exact ⟨counted, record, by decide, by decide⟩
  | cons first before => simp [twoLines] at split

/-- With so many line entries the size of the buffer is cut to 3, and the record does not fit. -/
theorem linesInfo_overruns {lines : List MonoDebugLineNumberEntry} (count : lines.length = 429496724) :
    (linesInfo lines).Counted ∧ maxSize (linesInfo lines) = 3 ∧ ¬ RoundTrips (linesInfo lines) := by
  have cut : maxSize (linesInfo lines) = 3 := by
    have wanted : wantedSize (linesInfo lines) = 26 + 10 * lines.length + (25 + 8) * (1 + 0 + 0) := rfl
    rw [maxSize_eq, wanted]
    omega
  have small : lines.length < 2 ^ 32 := by omega
  refine ⟨⟨small, Nat.two_pow_pos 32, Nat.two_pow_pos 32⟩, cut, ?_⟩
  rintro ⟨fits, -⟩
  rw [length_record, cut] at fits
  have one := (lebBytes_bounds (linesInfo lines).prologueEnd).1
  have two := (lebBytes_bounds (linesInfo lines).epilogueBegin).1
  unfold recordBytes at fits
  omega

/-- A record with 429496724 line entries overruns its buffer of three bytes. -/
theorem monoDebug_overrunsItsBuffer :
    (linesInfo (List.replicate 429496724 ⟨0, 0⟩)).Counted
      ∧ maxSize (linesInfo (List.replicate 429496724 ⟨0, 0⟩)) = 3
      ∧ ¬ RoundTrips (linesInfo (List.replicate 429496724 ⟨0, 0⟩)) := by
  apply linesInfo_overruns
  rw [length_replicate]

end MonoRuntime.MonoDebug
