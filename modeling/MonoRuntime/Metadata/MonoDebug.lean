/-
Module: MonoRuntime.Metadata.MonoDebug
Purpose: The debug data tables of `metadata/mono-debug.c`: the record of a compiled method as bytes, written and
  read back, and the chunks in which the items of a table are allocated. A failed assertion aborts the process
  and is the result `none`, as is a store outside of the allocated memory.
Trusted boundary: the header of a method's item is opaque bytes; fresh chunks are zeroed
Main exports: Target
-/
import MonoRuntime.Lib.Memory
import MonoRuntime.Mini.DebugInfo

namespace MonoRuntime.MonoDebug

open Leb128 Memory Reader
open DebugInfo (MonoDebugLineNumberEntry)

/-! ### Records -/

/-- What the compiler decides: the size of a pointer and `sizeof (MonoDebugMethodAddress)`, whose fields before
`data` are four words, three pointers, two pointers and a word. -/
structure Target where
  pointerSize : Nat
  addressSize : Nat
  isPointerSize : pointerSize = 4 ∨ pointerSize = 8
  holdsFields : 20 + 5 * pointerSize ≤ addressSize

/-- A pointer or a word that is only copied, as its bytes. -/
abbrev Raw (n : Nat) : Type := Block Byte n

/-- A variable; `type` is a pointer. -/
structure MonoDebugVarInfo (t : Target) where
  index : BitVec 32
  offset : BitVec 32
  size : BitVec 32
  beginScope : BitVec 32
  endScope : BitVec 32
  type : Raw t.pointerSize

/-- The record of a method; its counts `num_line_numbers`, `num_params` and `num_locals` are the lengths of the
arrays. -/
structure MonoDebugMethodJitInfo (t : Target) where
  codeStart : Raw t.pointerSize
  codeSize : Raw 4
  prologueEnd : BitVec 32
  epilogueBegin : BitVec 32
  wrapperAddr : Raw t.pointerSize
  lineNumbers : List MonoDebugLineNumberEntry
  thisVar : Option (MonoDebugVarInfo t)
  params : List (MonoDebugVarInfo t)
  locals : List (MonoDebugVarInfo t)

variable {t : Target}

/-- The counts are of type `guint32`. -/
structure MonoDebugMethodJitInfo.Counted (jit : MonoDebugMethodJitInfo t) : Prop where
  lines : jit.lineNumbers.length < 2 ^ 32
  params : jit.params.length < 2 ^ 32
  locals : jit.locals.length < 2 ^ 32

/-! ### Writing -/

/-- `write_leb128`. -/
def writeLeb128 (value : BitVec 32) : List Byte :=
  encodeUnsigned value

/-- `write_sleb128`. -/
def writeSleb128 (value : BitVec 32) : List Byte :=
  encodeSigned value

/-- `write_variable`. -/
def writeVariable (var : MonoDebugVarInfo t) : List Byte :=
  writeLeb128 var.index ++ (writeSleb128 var.offset ++ (writeLeb128 var.size ++
    (writeLeb128 var.beginScope ++ (writeLeb128 var.endScope ++ var.type.cells))))

/-- One line of the record. -/
def writeLine (lne : MonoDebugLineNumberEntry) : List Byte :=
  writeSleb128 lne.ilOffset ++ writeSleb128 lne.nativeOffset

/-- The flag and the variable `this`. -/
def writeThis : Option (MonoDebugVarInfo t) → List Byte
  | none => [0]
  | some var => 1 :: writeVariable var

/-- A count and the variables of an array. -/
def writeVariables (vars : List (MonoDebugVarInfo t)) : List Byte :=
  writeLeb128 (BitVec.ofNat 32 vars.length) ++ vars.flatMap writeVariable

/-- The bytes that `mono_debug_add_method` collects in its buffer. -/
def writeRecord (jit : MonoDebugMethodJitInfo t) : List Byte :=
  writeLeb128 jit.prologueEnd ++ (writeLeb128 jit.epilogueBegin ++
    (writeLeb128 (BitVec.ofNat 32 jit.lineNumbers.length) ++ (jit.lineNumbers.flatMap writeLine ++
      (writeThis jit.thisVar ++ (writeVariables jit.params ++ writeVariables jit.locals)))))

/-- `max_size`, the size of the buffer: the products are computed in 32 bits and in `size_t`, and the sum is
stored as a `guint32`. -/
def maxSize (jit : MonoDebugMethodJitInfo t) : Nat :=
  (5 * 5 + 1 + 10 * jit.lineNumbers.length % 2 ^ 32 +
    (25 + t.pointerSize) * ((1 + jit.params.length + jit.locals.length) % 2 ^ 32)) % 2 ^ 32

/-! ### Reading -/

/-- `read_leb128`. -/
def readLeb128 : Reader Byte (BitVec 32) :=
  decodeUnsigned 32

/-- `read_sleb128`. -/
def readSleb128 : Reader Byte (BitVec 32) :=
  decodeSigned 32

/-- Copy a pointer or a word. -/
def readRaw (n : Nat) : Reader Byte (Raw n) := fun bytes =>
  if enough : n ≤ bytes.length then
    some (⟨bytes.take n, by rw [List.length_take]; exact Nat.min_eq_left enough⟩, bytes.drop n)
  else none

/-- `read_variable`. -/
def readVariable : Reader Byte (MonoDebugVarInfo t) := do
  let index ← readLeb128
  let offset ← readSleb128
  let size ← readLeb128
  let beginScope ← readLeb128
  let endScope ← readLeb128
  let type ← readRaw t.pointerSize
  pure { index, offset, size, beginScope, endScope, type }

/-- One line of the record. -/
def readLine : Reader Byte MonoDebugLineNumberEntry := do
  let ilOffset ← readSleb128
  let nativeOffset ← readSleb128
  pure { ilOffset, nativeOffset }

/-- The variable `this` after its flag. -/
def readThisVar (flag : Byte) : Reader Byte (Option (MonoDebugVarInfo t)) :=
  if flag = 0 then pure none
  else do
    let var ← readVariable
    pure (some var)

/-- The flag and the variable `this`. -/
def readThis : Reader Byte (Option (MonoDebugVarInfo t)) := do
  let flag ← next
  readThisVar flag

/-- A count and as many variables. -/
def readVariables : Reader Byte (List (MonoDebugVarInfo t)) := do
  let count ← readLeb128
  many readVariable count.toNat

/-- `mono_debug_read_method` at the address of an item: the header is skipped. -/
def readMethod : Reader Byte (MonoDebugMethodJitInfo t) := do
  let _ ← readRaw (16 + 3 * t.pointerSize)
  let codeStart ← readRaw t.pointerSize
  let wrapperAddr ← readRaw t.pointerSize
  let codeSize ← readRaw 4
  let prologueEnd ← readLeb128
  let epilogueBegin ← readLeb128
  let count ← readLeb128
  let lineNumbers ← many readLine count.toNat
  let thisVar ← readThis
  let params ← readVariables
  let locals ← readVariables
  pure { codeStart, codeSize, prologueEnd, epilogueBegin, wrapperAddr, lineNumbers, thisVar, params, locals }

/-! ### The chunks of a table -/

/-- `DATA_TABLE_CHUNK_SIZE`. -/
def dataTableChunkSize : Nat := 16384

/-- `MonoDebugDataItemType`. -/
inductive MonoDebugDataItemType where
  | unknown
  | classItem
  | method
  | delegateTrampoline
deriving DecidableEq, Repr

/-- The value of the enumeration. -/
def MonoDebugDataItemType.value : MonoDebugDataItemType → Nat
  | .unknown => 0
  | .classItem => 1
  | .method => 2
  | .delegateTrampoline => 3

/-- A chunk; `used` are the first `allocated_size` bytes of its data. -/
structure MonoDebugDataChunk where
  totalSize : Nat
  currentOffset : Nat
  used : List Byte

/-- A table: the chunks before the current one, and the current one. -/
structure MonoDebugDataTable where
  earlier : List MonoDebugDataChunk
  current : MonoDebugDataChunk

/-- The chunk with an index. -/
def MonoDebugDataTable.chunk (table : MonoDebugDataTable) (i : Nat) : Option MonoDebugDataChunk :=
  (table.earlier ++ [table.current])[i]?

/-- An empty chunk. -/
def newChunk (totalSize : Nat) : MonoDebugDataChunk :=
  { totalSize := totalSize, currentOffset := 0, used := [] }

/-- `create_data_table`. -/
def createDataTable : MonoDebugDataTable :=
  { earlier := [], current := newChunk dataTableChunkSize }

/-- The place of an item: its chunk, the offset of its contents, and the size that was asked for. -/
structure Item where
  chunk : Nat
  offset : Nat
  size : Nat
deriving DecidableEq, Repr

/-- A word in memory. -/
def word (value : Nat) : List Byte :=
  [BitVec.ofNat 8 value, BitVec.ofNat 8 (value / 2 ^ 8), BitVec.ofNat 8 (value / 2 ^ 16),
    BitVec.ofNat 8 (value / 2 ^ 24)]

/-- The value of a word in memory. -/
def wordValue : List Byte → Nat
  | [a, b, c, d] => a.toNat + b.toNat * 2 ^ 8 + c.toNat * 2 ^ 16 + d.toNat * 2 ^ 24
  | _ => 0

/-- `ALIGN_TO (size, sizeof (gpointer))`, computed in 64 bits. -/
def alignTo (t : Target) (size : Nat) : Nat :=
  (size + (t.pointerSize - 1)) / t.pointerSize * t.pointerSize

/-- The table whose current chunk takes the next item. -/
def makeRoom (table : MonoDebugDataTable) (size : Nat) : MonoDebugDataTable :=
  let chunkSize :=
    if (size + 16) % 2 ^ 32 < dataTableChunkSize then dataTableChunkSize else (size + 16) % 2 ^ 32
  if table.current.totalSize ≤ (table.current.used.length + size + 8) % 2 ^ 32 then
    { earlier := table.earlier ++ [table.current], current := newChunk chunkSize }
  else table

/-- `allocate_data_item`: a place that reaches beyond its chunk, or is smaller than what was asked for, is no
place. -/
def allocateDataItem (t : Target) (table : MonoDebugDataTable) (type : MonoDebugDataItemType) (size : Nat) :
    Option (MonoDebugDataTable × Item) :=
  let aligned := alignTo t size % 2 ^ 32
  if table.current.currentOffset = table.current.used.length then
    let table := makeRoom table aligned
    let used := table.current.used
    if used.length + (aligned + 8) ≤ table.current.totalSize ∧ size ≤ aligned then
      some ({ table with current := { table.current with
                used := used ++ (word aligned ++ (word type.value ++ List.replicate aligned 0)) } },
            { chunk := table.earlier.length, offset := used.length + 8, size := size })
    else none
  else none

/-- `write_data_item`. -/
def writeDataItem (table : MonoDebugDataTable) (item : Item) : Option MonoDebugDataTable := do
  let bytes ← read table.current.used (item.offset - 8) 4
  if table.current.currentOffset + wordValue bytes + 8 = table.current.used.length then
    some { table with current := { table.current with currentOffset := table.current.used.length } }
  else none

/-- Allocate an item, store its contents and close it. -/
def addItem (t : Target) (table : MonoDebugDataTable) (type : MonoDebugDataItemType) (size : Nat)
    (contents : List Byte) : Option (MonoDebugDataTable × Item) := do
  let (table, item) ← allocateDataItem t table type size
  let used ← overwrite table.current.used item.offset contents
  let table ← writeDataItem { table with current := { table.current with used := used } } item
  some (table, item)

/-- The fields of `MonoDebugMethodAddress` before `data`. The field `wrapper_addr` is not assigned, so it keeps
the zeros of the chunk. -/
def addressFields (header : Raw (16 + 3 * t.pointerSize)) (jit : MonoDebugMethodJitInfo t) : List Byte :=
  header.cells ++ (jit.codeStart.cells ++ (List.replicate t.pointerSize 0 ++ jit.codeSize.cells))

/-- `mono_debug_add_method`. -/
def addMethod (table : MonoDebugDataTable) (header : Raw (16 + 3 * t.pointerSize))
    (jit : MonoDebugMethodJitInfo t) : Option (MonoDebugDataTable × Item) :=
  if (writeRecord jit).length < maxSize jit then
    addItem t table .method (((writeRecord jit).length + t.addressSize) % 2 ^ 32)
      (addressFields header jit ++ writeRecord jit)
  else none

/-- `mono_debug_read_method` on an item of a table. -/
def readMethodAt (table : MonoDebugDataTable) (item : Item) : Option (MonoDebugMethodJitInfo t) := do
  let chunk ← table.chunk item.chunk
  let (jit, _) ← readMethod (chunk.used.drop item.offset)
  some jit

/-! ### Runs -/

/-- An addition to a table: a method, or an item of another kind with its size and contents. -/
inductive Addition (t : Target) where
  | method (header : Raw (16 + 3 * t.pointerSize)) (jit : MonoDebugMethodJitInfo t)
  | item (type : MonoDebugDataItemType) (size : Nat) (contents : List Byte)

/-- The addition on a table. -/
def Addition.apply (table : MonoDebugDataTable) : Addition t → Option (MonoDebugDataTable × Item)
  | .method header jit => addMethod table header jit
  | .item type size contents => addItem t table type size contents

/-- What a caller keeps to: counts and sizes of type `guint32`, and contents of at most the size. -/
def Addition.InRange : Addition t → Prop
  | .method _ jit => jit.Counted
  | .item _ size contents => size < 2 ^ 32 ∧ contents.length ≤ size

/-- Additions one after the other, with the items that they return. -/
def runAdditions (table : MonoDebugDataTable) : List (Addition t) → Option (MonoDebugDataTable × List Item)
  | [] => some (table, [])
  | addition :: additions => do
      let (table, item) ← addition.apply table
      let (table, items) ← runAdditions table additions
      some (table, item :: items)

/-- Two items have no byte in common. -/
def Item.Disjoint (first second : Item) : Prop :=
  first.chunk ≠ second.chunk ∨ first.offset + first.size ≤ second.offset
    ∨ second.offset + second.size ≤ first.offset

/-- An item lies in its chunk. -/
def Item.Inside (table : MonoDebugDataTable) (item : Item) : Prop :=
  ∃ chunk, table.chunk item.chunk = some chunk ∧ item.offset + item.size ≤ chunk.totalSize

/-- The item of a method gives its record back. -/
def Addition.Restored (table : MonoDebugDataTable) (item : Item) : Addition t → Prop
  | .method _ jit => readMethodAt table item = some jit
  | .item _ _ _ => True

/-! ### When the code does it right -/

/-- The bytes of a value in groups of seven bits. -/
def lebBytes (value : BitVec 32) : Nat :=
  if value.toNat < 2 ^ 7 then 1 else if value.toNat < 2 ^ 14 then 2 else if value.toNat < 2 ^ 21 then 3
  else if value.toNat < 2 ^ 28 then 4 else 5

/-- The bytes of a signed value in groups of seven bits. -/
def slebBytes (value : BitVec 32) : Nat :=
  if -2 ^ 6 ≤ value.toInt ∧ value.toInt < 2 ^ 6 then 1
  else if -2 ^ 13 ≤ value.toInt ∧ value.toInt < 2 ^ 13 then 2
  else if -2 ^ 20 ≤ value.toInt ∧ value.toInt < 2 ^ 20 then 3
  else if -2 ^ 27 ≤ value.toInt ∧ value.toInt < 2 ^ 27 then 4
  else 5

/-- The bytes of a variable. -/
def variableBytes (var : MonoDebugVarInfo t) : Nat :=
  lebBytes var.index + slebBytes var.offset + lebBytes var.size + lebBytes var.beginScope +
    lebBytes var.endScope + t.pointerSize

/-- The bytes of an array of variables with its count. -/
def variablesBytes (vars : List (MonoDebugVarInfo t)) : Nat :=
  lebBytes (BitVec.ofNat 32 vars.length) + (vars.map variableBytes).sum

/-- The bytes of the values of a record. -/
def recordBytes (jit : MonoDebugMethodJitInfo t) : Nat :=
  lebBytes jit.prologueEnd + lebBytes jit.epilogueBegin +
    (lebBytes (BitVec.ofNat 32 jit.lineNumbers.length) +
      (jit.lineNumbers.map fun lne => slebBytes lne.ilOffset + slebBytes lne.nativeOffset).sum) +
    (1 + (jit.thisVar.map variableBytes).getD 0) + variablesBytes jit.params + variablesBytes jit.locals

/-- The size of the buffer before it is cut to 32 bits. -/
def wantedSize (jit : MonoDebugMethodJitInfo t) : Nat :=
  26 + 10 * jit.lineNumbers.length + (25 + t.pointerSize) * (1 + jit.params.length + jit.locals.length)

/-- The record has no wrapper address, and its buffer is large enough: its size is not cut to 32 bits, or the
values are so short that they fit into what is left of it. -/
def RecordMeets (jit : MonoDebugMethodJitInfo t) : Prop :=
  jit.wrapperAddr.cells = List.replicate t.pointerSize 0 ∧
    (wantedSize jit < 2 ^ 32 ∨ recordBytes jit < wantedSize jit % 2 ^ 32)

/-- An item can be placed: no sum of the allocator leaves 32 bits. -/
def ItemMeets (t : Target) (table : MonoDebugDataTable) (size : Nat) : Prop :=
  alignTo t size + 16 < 2 ^ 32 ∧ table.current.used.length + alignTo t size + 8 < 2 ^ 32

/-- The condition on an addition and the table that it finds. -/
def Addition.Meets (table : MonoDebugDataTable) : Addition t → Prop
  | .method _ jit => RecordMeets jit ∧ ItemMeets t table (recordBytes jit + t.addressSize)
  | .item _ size _ => ItemMeets t table size

/-! ### What is promised -/

/-- The record of a method does not exceed its buffer, and it is read back as it was. -/
def RoundTrips (jit : MonoDebugMethodJitInfo t) : Prop :=
  (writeRecord jit).length < maxSize jit ∧
    ∀ (header : Raw (16 + 3 * t.pointerSize)) (rest : List Byte),
      readMethod (addressFields header jit ++ writeRecord jit ++ rest) = some (jit, rest)

/-- Every addition keeps to its range and meets its condition in the table that it finds. -/
def AllMeet (additions : List (Addition t)) : Prop :=
  ∀ before addition after table items, additions = before ++ addition :: after →
    runAdditions createDataTable before = some (table, items) →
      addition.InRange ∧ addition.Meets table

/-- After any number of the additions their items are there, apart from each other and inside of their chunks,
and the records of the methods are read back. -/
def Stored (additions : List (Addition t)) : Prop :=
  ∀ before after, additions = before ++ after →
    ∃ table items, runAdditions createDataTable before = some (table, items)
      ∧ items.Pairwise Item.Disjoint
      ∧ List.Forall₂ (fun item addition => item.Inside table ∧ addition.Restored table item) items before

end MonoRuntime.MonoDebug
