/-
Module: MonoRuntime.Utils.CodeManager
Purpose: The code manager of `utils/mono-codeman.c`: chunks of executable memory, in two lists, in which
  room for methods is reserved, and from which the room that was reserved in excess is taken back. An `int` is
  an integer that wraps at 32 bits; a failed assertion aborts the process and is the result `none`.
Trusted boundary: human-reviewed translation of the source
Main exports: MonoCodeManager
-/
import Mathlib.Algebra.Order.Ring.Int

namespace MonoRuntime.CodeManager

/-! ### Machine integers -/

/-- The value of an `int` after an operation. -/
def int32 (x : Int) : Int :=
  Int.bmod x (2 ^ 32)

/-- `ALIGN_INT`: the sum and the mask are those of `int`. -/
def alignInt (val alignment : Int) : Int :=
  (BitVec.ofInt 32 (val + (alignment - 1)) &&& ~~~ BitVec.ofInt 32 (alignment - 1)).toInt

/-! ### Platforms -/

def minPages : Int := 16
def minBsize : Int := 32

/-- What the build and the system determine: `MIN_ALIGN`, `BIND_ROOM` where the architecture has it,
`FORCE_MALLOC`, and the page size of the system, a power of two. -/
structure Platform where
  minAlignShift : Nat
  bindRoom : Option Nat
  forceMalloc : Bool
  pageShift : Nat
  isMinAlign : minAlignShift = 3 ∨ minAlignShift = 4
  isBindRoom : bindRoom = none ∨ bindRoom = some 4 ∨ bindRoom = some 8
  isPage : minAlignShift ≤ pageShift ∧ pageShift ≤ 26

def Platform.minAlign (platform : Platform) : Int := 2 ^ platform.minAlignShift

/-- `mono_pagesize`. -/
def Platform.pagesize (platform : Platform) : Int := 2 ^ platform.pageShift

/-! ### Chunks -/

/-- How the memory of a chunk was allocated. -/
inductive CodeFlag where
  | mmap
  | malloc
deriving DecidableEq, Repr

/-- A chunk; `bsize` is a field of 24 bits. -/
structure CodeChunk where
  data : Int
  pos : Int
  size : Int
  flags : CodeFlag
  bsize : Int
deriving DecidableEq, Repr

/-- The manager with its two lists of chunks. -/
structure MonoCodeManager where
  isDynamic : Bool
  readOnly : Bool
  current : List CodeChunk
  full : List CodeChunk
deriving DecidableEq, Repr

/-- `mono_code_manager_new` and `mono_code_manager_new_dynamic`. -/
def monoCodeManagerNew (isDynamic : Bool) : MonoCodeManager :=
  { isDynamic := isDynamic, readOnly := false, current := [], full := [] }

/-! ### Chunk allocation -/

/-- A range of addresses that was allocated for a chunk. -/
structure Region where
  base : Int
  size : Int
deriving DecidableEq, Repr

/-- No address is in both ranges, which have a first and an end. -/
def Apart (first last first' last' : Int) : Prop :=
  ∀ x, ¬ ((first ≤ x ∧ x < last) ∧ first' ≤ x ∧ x < last')

/-- The regions have no address in common. -/
def Region.Apart (one other : Region) : Prop :=
  CodeManager.Apart one.base (one.base + one.size) other.base (other.base + other.size)

/-- The memory behind `mono_valloc` and `dlmemalign`: the answers to the next requests, where `none` is the
null pointer, and the regions that were given. A request whose region is freed because there is no memory for
the record of the chunk also is answered by the null pointer. -/
structure Memory where
  answers : List (Option Int)
  regions : List Region
deriving DecidableEq, Repr

/-- One request. -/
def Memory.allocate (memory : Memory) (size : Int) : Option Int × Memory :=
  match memory.answers with
  | [] => (none, memory)
  | none :: answers => (none, { memory with answers := answers })
  | some ptr :: answers =>
      (some ptr, { answers := answers, regions := ⟨ptr, size⟩ :: memory.regions })

/-- The regions are disjoint, and aligned to `MIN_ALIGN`. -/
structure Memory.Sound (platform : Platform) (memory : Memory) : Prop where
  disjoint : memory.regions.Pairwise Region.Apart
  aligned : ∀ region ∈ memory.regions, platform.minAlign ∣ region.base

/-! ### `new_codechunk` -/

/-- The size of a chunk before the room for binding branches is considered. -/
def chunkSize (platform : Platform) (isDynamic : Bool) (size : Int) : Int :=
  if isDynamic then size
  else
    let minsize := int32 (platform.pagesize * minPages)
    if size < minsize then minsize else alignInt size platform.pagesize

/-- The room for binding branches in a chunk. -/
def bindSize (platform : Platform) (chunkSize : Int) (room : Nat) : Int :=
  let bsize := chunkSize.tdiv room
  alignInt (if bsize < minBsize then minBsize else bsize) platform.minAlign

/-- The size of a new chunk and its room for binding branches. -/
def newChunkSizes (platform : Platform) (isDynamic : Bool) (size : Int) : Int × Int :=
  let chunkSize := chunkSize platform isDynamic size
  match platform.bindRoom with
  | none => (chunkSize, 0)
  | some room =>
      let bsize := bindSize platform chunkSize room
      if int32 (chunkSize - size) < bsize then (alignInt (int32 (size + bsize)) platform.pagesize, bsize)
      else (chunkSize, bsize)

/-- `new_codechunk`. -/
def newCodechunk (platform : Platform) (isDynamic : Bool) (size : Int) (memory : Memory) :
    Option CodeChunk × Memory :=
  let sizes := newChunkSizes platform isDynamic size
  let (answer, memory) := memory.allocate sizes.1
  let flags := if platform.forceMalloc ∨ isDynamic then CodeFlag.malloc else .mmap
  (answer.map fun ptr =>
    { data := ptr, pos := sizes.2, size := sizes.1, flags := flags, bsize := sizes.2 % 2 ^ 24 }, memory)

/-! ### Reserving -/

/-- The room is taken in the chunk. -/
def CodeChunk.take (chunk : CodeChunk) (size alignment : Int) : Int × CodeChunk :=
  let pos := alignInt chunk.pos alignment
  (chunk.data + pos, { chunk with pos := int32 (pos + size) })

/-- The first loop: the first chunk that has room gives it. -/
def findRoom (size alignment : Int) : List CodeChunk → Option (Int × List CodeChunk)
  | [] => none
  | chunk :: chunks =>
      if int32 (alignInt chunk.pos alignment + size) ≤ chunk.size then
        some ((chunk.take size alignment).1, (chunk.take size alignment).2 :: chunks)
      else
        (findRoom size alignment chunks).map fun found => (found.1, chunk :: found.2)

/-- The second loop: the first filled chunk goes to the other list. -/
def moveFilled (platform : Platform) (full : List CodeChunk) :
    List CodeChunk → List CodeChunk × List CodeChunk
  | [] => ([], full)
  | chunk :: chunks =>
      if int32 (chunk.pos + platform.minAlign * 4) ≤ chunk.size then
        (chunk :: (moveFilled platform full chunks).1, (moveFilled platform full chunks).2)
      else (chunks, chunk :: full)

/-- The part of `mono_code_manager_reserve_align` behind the first allocation. -/
def reserveInCurrent (platform : Platform) (cman : MonoCodeManager) (memory : Memory) (size alignment : Int) :
    Option Int × MonoCodeManager × Memory :=
  match findRoom size alignment cman.current with
  | some (ptr, current) => (some ptr, { cman with current := current }, memory)
  | none =>
      let (current, full) := moveFilled platform cman.full cman.current
      match newCodechunk platform cman.isDynamic size memory with
      | (none, memory) => (none, { cman with current := current, full := full }, memory)
      | (some chunk, memory) =>
          let (ptr, chunk) := chunk.take size alignment
          (some ptr, { cman with current := chunk :: current, full := full }, memory)

/-- `mono_code_manager_reserve_align`; the pointer that is returned is `none` where it is null. -/
def monoCodeManagerReserveAlign (platform : Platform) (cman : MonoCodeManager) (memory : Memory)
    (size alignment : Int) : Option (Option Int × MonoCodeManager × Memory) :=
  if cman.readOnly then none
  else if alignment ≤ platform.minAlign then
    match cman.current with
    | [] =>
        match newCodechunk platform cman.isDynamic size memory with
        | (none, memory) => some (none, cman, memory)
        | (some chunk, memory) =>
            some (reserveInCurrent platform { cman with current := [chunk] } memory size alignment)
    | _ :: _ => some (reserveInCurrent platform cman memory size alignment)
  else none

/-! ### Committing -/

/-- `mono_code_manager_commit`. -/
def monoCodeManagerCommit (cman : MonoCodeManager) (data size newsize : Int) : Option MonoCodeManager :=
  if newsize ≤ size then
    match cman.current with
    | [] => some cman
    | chunk :: chunks =>
        if size ≠ newsize ∧ data = chunk.data + chunk.pos - size then
          some { cman with
            current := { chunk with pos := int32 (chunk.pos - int32 (size - newsize)) } :: chunks }
        else some cman
  else none

/-! ### Runs -/

/-- A block that was handed out: what was asked for, and its size now. -/
structure Block where
  ptr : Int
  size : Int
  alignment : Int
  currentSize : Int
deriving DecidableEq, Repr

/-- The blocks have no byte in common. -/
def Block.Apart (one other : Block) : Prop :=
  CodeManager.Apart one.ptr (one.ptr + one.currentSize) other.ptr (other.ptr + other.currentSize)

/-- The manager, the memory behind it, and the blocks its callers hold. -/
structure World where
  manager : MonoCodeManager
  memory : Memory
  blocks : List Block

/-- The chunks of both lists. -/
def World.chunks (world : World) : List CodeChunk :=
  world.manager.current ++ world.manager.full

/-- The world before the first call. -/
def World.start (isDynamic : Bool) (answers : List (Option Int)) : World :=
  { manager := monoCodeManagerNew isDynamic, memory := { answers := answers, regions := [] }, blocks := [] }

/-- The calls: a block is committed by its place among the blocks. -/
inductive Call where
  | reserveAlign (size : Int) (alignmentShift : Nat)
  | commit (place : Nat) (newsize : Int)
deriving DecidableEq, Repr

/-- The blocks after a reservation. -/
def addBlock (result : Option Int) (size alignment : Int) (blocks : List Block) : List Block :=
  match result with
  | none => blocks
  | some ptr => { ptr := ptr, size := size, alignment := alignment, currentSize := size } :: blocks

/-- One call. A reservation asks for a positive size and a power of two for the alignment, a commit names a
block that still has its original size, and the memory gives disjoint aligned regions. -/
inductive Step (platform : Platform) : World → Call → World → Prop where
  | reserveAlign {world : World} {size : Int} {alignmentShift : Nat} {result : Option Int}
      {manager : MonoCodeManager} {memory : Memory}
      (positive : 0 < size)
      (isInt : size < 2 ^ 31)
      (run : monoCodeManagerReserveAlign platform world.manager world.memory size (2 ^ alignmentShift)
        = some (result, manager, memory))
      (sound : memory.Sound platform) :
      Step platform world (.reserveAlign size alignmentShift)
        { manager := manager, memory := memory,
          blocks := addBlock result size (2 ^ alignmentShift) world.blocks }
  | commit {world : World} {place : Nat} {newsize : Int} {block : Block} {manager : MonoCodeManager}
      (isBlock : world.blocks[place]? = some block)
      (reserved : block.currentSize = block.size)
      (isInt : -2 ^ 31 ≤ newsize)
      (run : monoCodeManagerCommit world.manager block.ptr block.size newsize = some manager) :
      Step platform world (.commit place newsize)
        { manager := manager, memory := world.memory,
          blocks := world.blocks.set place { block with currentSize := newsize } }

end MonoRuntime.CodeManager
