/-
Module: MonoRuntime.Proofs.MethodBody
Purpose: A method body that `method_encode_code` writes is read back by `mono_metadata_parse_mh_full` exactly when the
  15 bits of `num_clauses` hold the number of its clauses, all blocks have handlers, and only the handlers that catch
  have a type. The summary of a body agrees with what is read exactly when no sections follow the code or the last of
  them with clauses has one.
Trusted boundary: none
Main exports: methodEncodeCode_roundTrips_iff, headerSummary_agrees_iff
-/
import MonoRuntime.Metadata.MethodBody

namespace MonoRuntime.MethodBody

open List BitVec Option

/-! ### Bytes in memory -/

/-- The bytes stand in the memory at `p`. -/
def Holds (mem : List Byte) (p : Nat) (bytes : List Byte) : Prop :=
  bytes <+: mem.drop p

variable {mem : List Byte} {p : Nat}

theorem holds_append (front bytes back : List Byte) : Holds (front ++ bytes ++ back) front.length bytes := by
  unfold Holds
  rw [List.append_assoc, drop_left]
  exact prefix_append bytes back

theorem Holds.front {bytes rest : List Byte} (holds : Holds mem p (bytes ++ rest)) : Holds mem p bytes :=
  (prefix_append bytes rest).trans holds

theorem Holds.back {bytes rest : List Byte} (holds : Holds mem p (bytes ++ rest)) : Holds mem (p + bytes.length) rest := by
  obtain ⟨after, whole⟩ := holds
  refine ⟨after, ?_⟩
  rw [← drop_drop, ← whole, List.append_assoc, drop_left]

variable {b : Byte}

theorem Holds.head {rest : List Byte} (holds : Holds mem p (b :: rest)) : mem[p]? = some b := by
  obtain ⟨after, whole⟩ := holds
  have first : (mem.drop p)[0]? = some b := by
    rw [← whole]
    rfl
  rwa [getElem?_drop] at first

theorem Holds.tail {rest : List Byte} (holds : Holds mem p (b :: rest)) : Holds mem (p + 1) rest :=
  have apart : Holds mem p ([b] ++ rest) := holds
  apart.back

theorem Holds.take {bytes : List Byte} (holds : Holds mem p bytes) : (mem.drop p).take bytes.length = bytes :=
  (prefix_iff_eq_take.mp holds).symm

theorem Holds.read16 {value : BitVec 16} (holds : Holds mem p (le16 value)) : read16 mem p = some value := by
  have byte0 := holds.head
  have byte1 := holds.tail.head
  simp only [MethodBody.read16, byte0, byte1, bind_eq_bind, bind_some, Option.pure_def, Option.some.injEq]
  apply eq_of_toNat_eq
  simp only [BitVec.toNat_ofNat, toNat_setWidth, toNat_ushiftRight, Nat.shiftRight_eq_div_pow]
  omega

theorem Holds.read32 {value : BitVec 32} (holds : Holds mem p (le32 value)) : read32 mem p = some value := by
  have byte0 := holds.head
  have byte1 := holds.tail.head
  have byte2 := holds.tail.tail.head
  have byte3 := holds.tail.tail.tail.head
  simp only [MethodBody.read32, byte0, byte1, byte2, byte3, bind_eq_bind, bind_some, Option.pure_def,
    Option.some.injEq]
  apply eq_of_toNat_eq
  simp only [BitVec.toNat_ofNat, toNat_setWidth, toNat_ushiftRight, Nat.shiftRight_eq_div_pow]
  omega

@[simp] theorem length_le32 (value : BitVec 32) : (le32 value).length = 4 := rfl

/-! ### Alignment -/

theorem length_streamDataAlign (stream : List Byte) : (streamDataAlign stream).length = dwordAlign stream.length := by
  unfold streamDataAlign dwordAlign
  by_cases aligned : stream.length % 4 = 0
  · simp only [aligned, if_true]
    omega
  · simp only [aligned, if_false, length_append, length_replicate]
    omega

theorem dwordAlign_add_four (ptr : Nat) : dwordAlign (dwordAlign ptr + 4) = dwordAlign ptr + 4 := by
  unfold dwordAlign
  omega

theorem streamDataAlign_eq (stream : List Byte) : ∃ zeros, streamDataAlign stream = stream ++ zeros := by
  unfold streamDataAlign
  by_cases aligned : stream.length % 4 = 0
  · exact ⟨[], by simp [aligned]⟩
  · exact ⟨List.replicate (4 - stream.length % 4) 0, by simp [aligned]⟩

/-! ### The clauses that are read -/

variable {Class Local : Type} (tokens : Tokens Class Local)

/-- The clauses that are read from the words of the handlers of a block. -/
def blocksBack (info : MonoILExceptionInfo Class) (finallyStart : BitVec 32) :
    List (MonoILExceptionBlock Class) → List (MonoExceptionClause Class)
  | [] => []
  | block :: blocks =>
      { flags := block.type
        tryOffset := info.start
        tryLen := if block.type = monoExceptionClauseFinally then finallyStart - info.start else info.len
        handlerOffset := block.start
        handlerLen := block.len
        data := parseData tokens block.type (clauseValue tokens block) } ::
      blocksBack info (block.start + block.len) blocks

/-- The clauses that are read from the words of a block. -/
def infoBack (info : MonoILExceptionInfo Class) : List (MonoExceptionClause Class) :=
  match info.handlers with
  | none => []
  | some handlers => blocksBack tokens info (info.start + info.len) handlers

theorem length_blocksBack (info : MonoILExceptionInfo Class) :
    ∀ (finallyStart : BitVec 32) (blocks : List (MonoILExceptionBlock Class)),
      (blocksBack tokens info finallyStart blocks).length = blocks.length
  | _, [] => rfl
  | _, block :: blocks => congrArg (· + 1) (length_blocksBack info (block.start + block.len) blocks)

theorem length_blockClauses (info : MonoILExceptionInfo Class) :
    ∀ (finallyStart : BitVec 32) (blocks : List (MonoILExceptionBlock Class)),
      (blockClauses info finallyStart blocks).length = blocks.length
  | _, [] => rfl
  | _, block :: blocks => congrArg (· + 1) (length_blockClauses info (block.start + block.len) blocks)

variable (info : MonoILExceptionInfo Class)

theorem length_encodeBlocks (blocks : List (MonoILExceptionBlock Class)) :
    ∀ finallyStart : BitVec 32, (encodeBlocks tokens info finallyStart blocks).length = 24 * blocks.length := by
  induction blocks with
  | nil =>
    intro _
    rfl
  | cons block blocks ih =>
    intro finallyStart
    simp only [encodeBlocks, length_append, length_le32, ih, length_cons]
    omega

theorem parseFatClause_spec {w0 w1 w2 w3 w4 w5 : BitVec 32} {rest : List Byte}
    (holds : Holds mem p (le32 w0 ++ le32 w1 ++ le32 w2 ++ le32 w3 ++ le32 w4 ++ le32 w5 ++ rest)) :
    parseFatClause tokens mem p = some ⟨w0, w1, w2, w3, w4, parseData tokens w0 w5⟩ := by
  simp only [List.append_assoc] at holds
  have after1 : Holds mem (p + 4) _ := holds.back
  have after2 : Holds mem (p + 8) _ := after1.back
  have after3 : Holds mem (p + 12) _ := after2.back
  have after4 : Holds mem (p + 16) _ := after3.back
  have after5 : Holds mem (p + 20) _ := after4.back
  simp only [parseFatClause, holds.front.read32, after1.front.read32, after2.front.read32, after3.front.read32,
    after4.front.read32, after5.front.read32, bind_eq_bind, bind_some, Option.pure_def]

variable {n ptr : Nat} {flags : Byte}

theorem parseClauses_blocks {more : List (MonoExceptionClause Class)} (blocks : List (MonoILExceptionBlock Class)) :
    ∀ {finallyStart : BitVec 32} {p : Nat} {rest : List Byte},
      Holds mem p (encodeBlocks tokens info finallyStart blocks ++ rest) →
      parseClauses tokens mem true n (p + 24 * blocks.length) = some more →
      parseClauses tokens mem true (blocks.length + n) p = some (blocksBack tokens info finallyStart blocks ++ more) := by
  induction blocks with
  | nil =>
    intro _ p _ _ later
    rw [length_nil, Nat.zero_add]
    exact later
  | cons block blocks ih =>
    intro finallyStart p rest holds later
    simp only [encodeBlocks, List.append_assoc] at holds
    have first := parseFatClause_spec tokens (by simpa only [List.append_assoc] using holds)
    have others := ih (p := p + 24) holds.back.back.back.back.back.back (by
      rw [length_cons] at later
      rw [← later]
      congr 1
      omega)
    rw [length_cons, Nat.add_right_comm, parseClauses]
    simp only [parseClause, if_true, first, others, bind_eq_bind, bind_some, Option.pure_def,
      blocksBack, List.cons_append]

variable {infos : List (MonoILExceptionInfo Class)}

theorem parseClauses_infos : ∀ {p : Nat} {bytes rest : List Byte}, encodeInfos tokens infos = some bytes →
      Holds mem p (bytes ++ rest) →
      parseClauses tokens mem true (countClauses infos) p = some (infos.flatMap (infoBack tokens)) := by
  induction infos with
  | nil =>
    intro p bytes rest _ _
    rfl
  | cons info infos ih =>
    intro p bytes rest writes holds
    rw [encodeInfos] at writes
    cases present : info.handlers with
    | none => simp [present] at writes
    | some handlers =>
      simp only [present, bind_eq_bind, Option.pure_def] at writes
      obtain ⟨others, written, whole⟩ := bind_eq_some_iff.mp writes
      obtain rfl := Option.some.inj whole
      rw [List.append_assoc] at holds
      have later := ih written holds.back
      rw [length_encodeBlocks] at later
      have all := parseClauses_blocks tokens info handlers holds later
      simpa [countClauses, MonoILExceptionInfo.count, present, infoBack] using all

theorem encodeInfos_isSome (infos : List (MonoILExceptionInfo Class))
    (handlers : ∀ info ∈ infos, info.handlers ≠ none) : ∃ bytes, encodeInfos tokens infos = some bytes := by
  induction infos with
  | nil => exact ⟨[], rfl⟩
  | cons info infos ih =>
    obtain ⟨rest, writes⟩ := ih fun other member => handlers other (mem_cons_of_mem info member)
    cases present : info.handlers with
    | none => exact absurd present (handlers info mem_cons_self)
    | some blocks =>
      refine ⟨encodeBlocks tokens info (info.start + info.len) blocks ++ rest, ?_⟩
      simp [encodeInfos, present, writes]

theorem handlers_of_encodeInfos :
    ∀ {bytes : List Byte}, encodeInfos tokens infos = some bytes → ∀ info ∈ infos, info.handlers ≠ none := by
  induction infos with
  | nil =>
    intro _ _ info member
    cases member
  | cons info infos ih =>
    intro bytes writes other member
    cases present : info.handlers with
    | none => simp [encodeInfos, present] at writes
    | some blocks =>
      simp only [encodeInfos, present, bind_eq_bind] at writes
      obtain ⟨rest, written, -⟩ := bind_eq_some_iff.mp writes
      cases member with
      | head => simp [present]
      | tail _ member => exact ih written other member

/-! ### The section -/

theorem numClauses_of_size (few : n < 2 ^ 15) :
    (numClauses ((BitVec.ofNat 32 n * 24 + 4).setWidth 24 |>.setWidth 32) true).toNat = n := by
  have words : (24 : BitVec 32).toNat = 24 ∧ (4 : BitVec 32).toNat = 4 := ⟨rfl, rfl⟩
  simp only [numClauses, if_true, toNat_setWidth, toNat_add, toNat_mul, BitVec.toNat_ofNat,
    words]
  simp (disch := omega) only [Nat.mod_eq_of_lt]
  omega

theorem sectDataLen_spec {size : BitVec 32} {rest : List Byte}
    (holds : Holds mem p (size.setWidth 8 :: (size >>> 8).setWidth 8 :: (size >>> 16).setWidth 8 :: rest)) :
    sectDataLen mem p true = some (size.setWidth 24 |>.setWidth 32) := by
  have byte0 := holds.head
  have byte1 := holds.tail.head
  have byte2 := holds.tail.tail.head
  simp only [sectDataLen, byte0, byte1, byte2, if_true, bind_eq_bind, bind_some, Option.pure_def,
    Option.some.injEq]
  ext i inside
  simp only [getElem_or, getElem_shiftLeft, getElem_setWidth, getLsbD_setWidth,
    getLsbD_ushiftRight]
  by_cases low : i < 8
  · simp [low, show i < 16 by omega, show i < 24 by omega]
  · by_cases middle : i < 16
    · simp [low, middle, show i < 24 by omega, show i - 8 < 8 by omega, show 8 + (i - 8) = i by omega]
    · by_cases high : i < 24
      · simp [low, middle, high, show ¬ i - 8 < 8 by omega, show i - 16 < 8 by omega,
          show 16 + (i - 16) = i by omega]
      · simp [low, middle, high, show ¬ i - 8 < 8 by omega, show ¬ i - 16 < 8 by omega]

theorem parseSectionData_spec {bytes : List Byte} (rest : List Byte) (few : countClauses infos < 2 ^ 15)
    (writes : encodeInfos tokens infos = some bytes)
    (holds : Holds mem (dwordAlign ptr) (sectionHeader (BitVec.ofNat 32 (countClauses infos)) ++ bytes ++ rest)) :
    parseSectionData tokens mem ptr [] = some (infos.flatMap (infoBack tokens)) := by
  rw [List.append_assoc] at holds
  have flags : mem[dwordAlign ptr]? = some 0x41 := holds.front.head
  have inside : dwordAlign ptr < mem.length := (List.getElem?_eq_some_iff.mp flags).1
  have flagsAt : mem[dwordAlign ptr] = 0x41 := (List.getElem?_eq_some_iff.mp flags).2
  have len := sectDataLen_spec holds.front.tail
  have clauses := parseClauses_infos tokens writes holds.back
  have read : parseSection tokens mem (dwordAlign ptr) 0x41 [] =
      some (infos.flatMap (infoBack tokens),
        (BitVec.ofNat 32 (countClauses infos) * 24 + 4).setWidth 24 |>.setWidth 32) := by
    have fat : (0x41 : Byte) &&& 0x40 ≠ 0 := by decide
    have table : (0x41 : Byte) &&& 0x01 ≠ 0 := by decide
    have read : parseClauses tokens mem true (countClauses infos) (dwordAlign ptr + 4) = _ := clauses
    simp only [parseSection, sectionClauses, fat, table, ne_eq, not_false_eq_true, decide_true, if_true, len,
      bind_eq_bind, bind_some, numClauses_of_size few, dwordAlign_add_four, read]
    rfl
  rw [parseSectionData]
  simp only [inside, dif_pos, flagsAt, read]
  rfl

/-! ### The header -/

variable {tokens} {mb : ReflectionMethodBuilder Class Local}

/-- The first byte of a fat header. -/
def fatFlags (numException : BitVec 32) (initLocals : Bool) : Byte :=
  0x03 ||| (if numException = 0 then 0 else 0x08) ||| if initLocals then 0x10 else 0

/-- The first two bytes of a fat header, as they are read. -/
def fatWord (numException : BitVec 32) (initLocals : Bool) : BitVec 16 :=
  BitVec.ofNat 16 ((fatFlags numException initLocals).toNat + 2 ^ 8 * ((12 / 4 : Byte) <<< 4).toNat)

variable (numException : BitVec 32)

theorem fatFlags_spec (initLocals : Bool) : fatFlags numException initLocals &&& 0x3 = 0x3 ∧
      (fatWord numException initLocals &&& 0x08 = 0 ↔ numException = 0) ∧
      decide (fatWord numException initLocals &&& 0x10 ≠ 0) = initLocals := by
  by_cases none : numException = 0
  · cases initLocals <;> simp only [fatWord, fatFlags, none, if_true] <;> decide
  · cases initLocals <;> simp only [fatWord, fatFlags, none, if_false] <;> decide

theorem signatureRow {row : BitVec 32} (small : row.toNat < 2 ^ 24) :
    (0x11000000 ||| row) &&& 0xffffff = row := by
  apply eq_of_toNat_eq
  have mask : (0xffffff : BitVec 32).toNat = 2 ^ 24 - 1 := rfl
  have token : (0x11000000 : BitVec 32).toNat % 2 ^ 24 = 0 := rfl
  rw [toNat_and, toNat_or, mask, Nat.and_two_pow_sub_one_eq_mod, Nat.or_mod_two_pow, token,
    Nat.zero_or, Nat.mod_eq_of_lt small]

theorem parseLocals_spec {locals : List Local} (resolve : tokens.ResolveLocals locals) :
    parseLocals tokens (if locals = [] then 0 else 0x11000000 ||| tokens.encodeLocals locals) = some locals := by
  by_cases empty : locals = []
  · simp [empty, parseLocals]
  · have token : 0x11000000 ||| tokens.encodeLocals locals ≠ 0 := by
      intro zero
      exact absurd (or_eq_zero_iff.mp zero).1 (by decide)
    rw [if_neg empty, parseLocals, if_pos token, signatureRow resolve.row]
    exact resolve.localsOfRow

theorem codeBytes_lt (body : BodySource Class Local) : body.codeBytes.length < 2 ^ 31 := by
  cases body with
  | ilgen g => exact g.codeFits
  | array bytes codeFits => exact codeFits
  | missing => exact Nat.two_pow_pos 31

theorem codeLength (body : BodySource Class Local) :
    (BitVec.ofNat 32 body.codeBytes.length).toNat = body.codeBytes.length := by
  have room := codeBytes_lt body
  rw [BitVec.toNat_ofNat]
  omega

theorem length_fatHeader : (fatHeader tokens mb numException).length = 12 := rfl

/-- What a header that was written gives back, apart from the clauses. -/
structure HeaderBack (mb : ReflectionMethodBuilder Class Local) (mh : MonoMethodHeader Class Local) : Prop where
  code : mh.code = mb.body.codeBytes
  maxStack : mb.body.maxStack.toNat ≤ mh.maxStack.toNat
  initLocals : mb.body.locals ≠ [] → mh.initLocals = mb.initLocals

/-- A fat header and the code after it are read, with the clauses that follow. -/
theorem parseMhFull_fat (rest : List Byte) {clauses : List (MonoExceptionClause Class)}
    (resolve : tokens.ResolveLocals mb.body.locals) (stack : mb.body.maxStack.toNat < 2 ^ 16)
    (holds : Holds mem ptr (fatHeader tokens mb numException ++ mb.body.codeBytes ++ rest))
    (table : if numException = 0 then clauses = [] else parseSectionData tokens mem (ptr + 12 + mb.body.codeBytes.length) [] = some clauses) :
    ∃ mh, parseMhFull tokens mem ptr = some mh ∧ HeaderBack mb mh ∧ mh.clauses = clauses := by
  obtain ⟨format, more, init⟩ := fatFlags_spec numException mb.initLocals
  rw [List.append_assoc] at holds
  have header := holds.front
  have code : Holds mem (ptr + 12) (mb.body.codeBytes ++ rest) := holds.back
  have flags : mem[ptr]? = some (fatFlags numException mb.initLocals) := header.head
  have second : mem[ptr + 1]? = some ((12 / 4 : Byte) <<< 4) := header.tail.head
  have word : read16 mem ptr = some (fatWord numException mb.initLocals) := by
    simp only [read16, flags, second, bind_eq_bind, bind_some, Option.pure_def, fatWord]
  have fields : Holds mem (ptr + 2) (le16 (mb.body.maxStack.setWidth 16) ++
      (le32 (BitVec.ofNat 32 mb.body.codeBytes.length) ++
        le32 (if mb.body.locals = [] then 0 else 0x11000000 ||| tokens.encodeLocals mb.body.locals))) :=
    header.tail.tail
  have maxStack := fields.front.read16
  have sizes : Holds mem (ptr + 4) _ := fields.back
  have codeSize := sizes.front.read32
  have localSig : read32 mem (ptr + 8) = _ := Holds.read32 sizes.back
  have locals := parseLocals_spec resolve
  have tiny : ¬ ((0x3 : Byte) = 0x2) := by decide
  have read : parseMoreSects tokens mem (ptr + 12 + mb.body.codeBytes.length)
      (fatWord numException mb.initLocals) = some clauses := by
    unfold parseMoreSects
    by_cases none : numException = 0
    · rw [if_pos none] at table
      rw [if_neg (not_not.mpr (more.mpr none)), table]
    · rw [if_neg none] at table
      rw [if_pos (mt more.mp none), table]
  refine ⟨⟨(mem.drop (ptr + 12)).take mb.body.codeBytes.length, mb.body.maxStack.setWidth 16,
    decide (fatWord numException mb.initLocals &&& 0x10 ≠ 0), mb.body.locals, clauses⟩, ?_, ⟨?_, ?_, ?_⟩, rfl⟩
  · simp only [parseMhFull, flags, bind_eq_bind, bind_some, format, if_true, parseFat, word, maxStack,
      codeSize, localSig, locals, codeLength, Option.pure_def]
    rw [if_neg tiny, read]
    rfl
  · exact code.front.take
  · rw [toNat_setWidth, Nat.mod_eq_of_lt stack]
  · intro _
    exact init

theorem tinyHeader_spec {codeSize : BitVec 32} (small : tinyHeader codeSize = some flags) :
    flags &&& 0x3 = 0x2 ∧ (flags >>> 2).toNat = codeSize.toNat := by
  have evens : ∀ n : Fin 64, (BitVec.ofNat 32 n &&& 1 = 0) →
      ((BitVec.ofNat 32 n <<< 2).setWidth 8 ||| (0x2 : Byte)) &&& 0x3 = 0x2 ∧
        (((BitVec.ofNat 32 n <<< 2).setWidth 8 ||| (0x2 : Byte)) >>> 2).toNat = n := by decide
  have odds : ∀ n : Fin 32, (BitVec.ofNat 32 n &&& 1 ≠ 0) →
      ((BitVec.ofNat 32 n <<< 2).setWidth 8 ||| (0x6 : Byte)) &&& 0x3 = 0x2 ∧
        (((BitVec.ofNat 32 n <<< 2).setWidth 8 ||| (0x6 : Byte)) >>> 2).toNat = n := by decide
  have self : BitVec.ofNat 32 codeSize.toNat = codeSize := by
    rw [BitVec.ofNat_toNat, setWidth_eq]
  unfold tinyHeader at small
  split at small
  next even =>
    obtain rfl := Option.some.inj small
    have spec := evens ⟨codeSize.toNat, even.1⟩
    simp only [self] at spec
    exact spec even.2
  next =>
    split at small
    next odd =>
      obtain rfl := Option.some.inj small
      have spec := odds ⟨codeSize.toNat, odd.1⟩
      simp only [self] at spec
      exact spec odd.2
    next => cases small

theorem parseMhFull_tiny (rest : List Byte)
    (small : tinyHeader (BitVec.ofNat 32 mb.body.codeBytes.length) = some flags) (stack : mb.body.maxStack.toNat ≤ 8)
    (locals : mb.body.locals = []) (holds : Holds mem ptr ([flags] ++ mb.body.codeBytes ++ rest)) :
    ∃ mh, parseMhFull tokens mem ptr = some mh ∧ HeaderBack mb mh ∧ mh.clauses = [] := by
  obtain ⟨format, size⟩ := tinyHeader_spec small
  rw [List.append_assoc] at holds
  have first : mem[ptr]? = some flags := holds.head
  have code : Holds mem (ptr + 1) (mb.body.codeBytes ++ rest) := holds.back
  refine ⟨⟨(mem.drop (ptr + 1)).take mb.body.codeBytes.length, 8, false, [], []⟩, ?_, ⟨?_, ?_, ?_⟩, rfl⟩
  · rw [codeLength] at size
    simp only [parseMhFull, first, bind_eq_bind, bind_some, format, if_true, size, Option.pure_def]
  · exact code.front.take
  · exact stack
  · intro some
    exact absurd locals some

/-! ### The whole body -/

theorem flatMap_infoBack_of_count (none : countClauses infos = 0) : infos.flatMap (infoBack tokens) = [] := by
  induction infos with
  | nil => rfl
  | cons info infos ih =>
    rw [countClauses, Nat.add_eq_zero_iff] at none
    rw [flatMap_cons, ih none.2, append_nil, infoBack]
    cases present : info.handlers with
    | none => rfl
    | some blocks =>
      rw [MonoILExceptionInfo.count, present] at none
      have empty : blocks = [] := length_eq_zero_iff.mp none.1
      rw [empty]
      rfl

theorem handlers_of_count (none_ : countClauses infos = 0) : ∀ info ∈ infos, info.handlers ≠ none := by
  induction infos with
  | nil => exact fun info member => (nomatch member)
  | cons info infos ih =>
    rw [countClauses, Nat.add_eq_zero_iff] at none_
    rw [forall_mem_cons]
    refine ⟨?_, ih none_.2⟩
    intro present
    rw [MonoILExceptionInfo.count, present] at none_
    exact Nat.one_ne_zero none_.1

theorem countClauses_append (front back : List (MonoILExceptionInfo Class)) :
    countClauses (front ++ back) = countClauses front + countClauses back := by
  induction front with
  | nil => exact (Nat.zero_add _).symm
  | cons info front ih => rw [List.cons_append, countClauses, countClauses, ih, Nat.add_assoc]

theorem countClauses_reverse (infos : List (MonoILExceptionInfo Class)) :
    countClauses infos.reverse = countClauses infos := by
  induction infos with
  | nil => rfl
  | cons info infos ih =>
    rw [reverse_cons, countClauses_append, ih, countClauses, countClauses, countClauses, Nat.add_zero,
      Nat.add_comm]

/-- The clauses that are read from a body. -/
def clausesBack (tokens : Tokens Class Local) (infos : List (MonoILExceptionInfo Class)) :
    List (MonoExceptionClause Class) :=
  infos.reverse.flatMap (infoBack tokens)

theorem numException_eq_zero (few : n < 2 ^ 15) : BitVec.ofNat 32 n = 0 ↔ n = 0 := by
  constructor
  · intro zero
    have value := congrArg BitVec.toNat zero
    rw [BitVec.toNat_ofNat, Nat.mod_eq_of_lt (by omega)] at value
    exact value
  · intro zero
    rw [zero]
    rfl

theorem encodeFat_spec (stream : List Byte) (resolve : tokens.ResolveLocals mb.body.locals)
    (stack : mb.body.maxStack.toNat < 2 ^ 16) (handlers : ∀ info ∈ mb.body.exHandlers, info.handlers ≠ none)
    (few : countClauses mb.body.exHandlers < 2 ^ 15) :
    ∃ stream' idx, encodeFat tokens stream mb (BitVec.ofNat 32 (countClauses mb.body.exHandlers)) =
        some (stream', idx) ∧ ∀ later, ∃ mh, parseMhFull tokens (stream' ++ later) idx = some mh ∧ HeaderBack mb mh ∧
        mh.clauses = clausesBack tokens mb.body.exHandlers := by
  by_cases none : countClauses mb.body.exHandlers = 0
  · have zero := (numException_eq_zero few).mpr none
    rw [zero]
    refine ⟨stream ++ fatHeader tokens mb 0 ++ mb.body.codeBytes, stream.length, by simp [encodeFat], ?_⟩
    intro later
    apply parseMhFull_fat 0 [] resolve stack
    · rw [append_nil, List.append_assoc stream]
      exact holds_append stream _ later
    · rw [if_pos rfl]
      exact flatMap_infoBack_of_count (by rw [countClauses_reverse, none])
  · have counted := mt (numException_eq_zero few).mp none
    obtain ⟨bytes, writes⟩ := encodeInfos_isSome tokens mb.body.exHandlers.reverse
      fun info member => handlers info (mem_reverse.mp member)
    have few' : countClauses mb.body.exHandlers.reverse < 2 ^ 15 := by rwa [countClauses_reverse]
    have writtenLength : (stream ++ fatHeader tokens mb (BitVec.ofNat 32 (countClauses mb.body.exHandlers)) ++
        mb.body.codeBytes).length = stream.length + 12 + mb.body.codeBytes.length := by
      simp only [length_append, length_fatHeader]
    generalize written_ : stream ++ fatHeader tokens mb (BitVec.ofNat 32 (countClauses mb.body.exHandlers)) ++
      mb.body.codeBytes = written at writtenLength
    refine ⟨streamDataAlign written ++ sectionHeader (BitVec.ofNat 32 (countClauses mb.body.exHandlers)) ++ bytes,
      stream.length, ?_, ?_⟩
    · simp only [encodeFat, written_, if_neg counted, writes, bind_eq_bind, bind_some, Option.pure_def]
    · intro later
      apply parseMhFull_fat _ [] resolve stack
      · obtain ⟨zeros, aligned⟩ := streamDataAlign_eq written
        have header := holds_append stream (fatHeader tokens mb
          (BitVec.ofNat 32 (countClauses mb.body.exHandlers)) ++ mb.body.codeBytes)
          (zeros ++ sectionHeader (BitVec.ofNat 32 (countClauses mb.body.exHandlers)) ++ bytes ++ later)
        rw [← List.append_assoc stream, written_] at header
        rw [aligned, append_nil]
        simpa only [List.append_assoc] using header
      · rw [if_neg counted, ← writtenLength, ← countClauses_reverse]
        apply parseSectionData_spec tokens [] few' writes
        rw [← length_streamDataAlign, countClauses_reverse, append_nil]
        have table := holds_append (streamDataAlign written)
          (sectionHeader (BitVec.ofNat 32 (countClauses mb.body.exHandlers)) ++ bytes) later
        rwa [← List.append_assoc (streamDataAlign written)] at table

theorem encodeBody_spec (stream : List Byte) (resolve : tokens.ResolveLocals mb.body.locals)
    (stack : mb.body.maxStack.toNat < 2 ^ 16) (handlers : ∀ info ∈ mb.body.exHandlers, info.handlers ≠ none)
    (few : countClauses mb.body.exHandlers < 2 ^ 15) : ∃ stream' idx, encodeBody tokens stream mb = some (stream', idx) ∧
      ∀ later, ∃ mh, parseMhFull tokens (stream' ++ later) idx = some mh ∧ HeaderBack mb mh ∧
        mh.clauses = clausesBack tokens mb.body.exHandlers := by
  have fat := encodeFat_spec (streamDataAlign stream) resolve stack handlers few
  unfold encodeBody
  by_cases small : maybeSmall mb.body (BitVec.ofNat 32 (countClauses mb.body.exHandlers))
  · simp only [small, if_true]
    cases header : tinyHeader (BitVec.ofNat 32 mb.body.codeBytes.length) with
    | none => exact fat
    | some flags =>
      simp only [maybeSmall, Bool.and_eq_true, List.isEmpty_iff, beq_iff_eq] at small
      obtain ⟨⟨low, locals⟩, zero⟩ := small
      have none := (numException_eq_zero few).mp zero
      have stack8 : mb.body.maxStack.toNat ≤ 8 := by
        have signed : mb.body.maxStack.toInt ≤ (8 : BitVec 32).toInt := by
          simpa only [BitVec.sle, decide_eq_true_eq] using low
        have eight : (8 : BitVec 32).toInt = 8 := rfl
        rw [eight, toInt_eq_toNat_cond] at signed
        split at signed <;> omega
      refine ⟨streamDataAlign stream ++ [flags] ++ mb.body.codeBytes, (streamDataAlign stream).length, rfl, ?_⟩
      intro later
      have back : clausesBack tokens mb.body.exHandlers = [] :=
        flatMap_infoBack_of_count (by rw [countClauses_reverse, none])
      rw [back]
      apply parseMhFull_tiny [] header stack8 locals
      rw [append_nil, List.append_assoc (streamDataAlign stream)]
      exact holds_append _ _ later
  · simp only [small]
    exact fat

/-! ### The clauses of the builder -/

/-- The last word of a clause gives back its data exactly when only a handler that catches has a type. -/
theorem parseData_eq_iff (resolve : tokens.ResolveTypes) (block : MonoILExceptionBlock Class) :
    parseData tokens block.type (clauseValue tokens block) = clauseData block ↔
      (block.extype ≠ none → block.type = monoExceptionClauseNone) := by
  have zero : ClauseData.ofOffset (0 : BitVec 32) = (ClauseData.null : ClauseData Class) := rfl
  have apart : monoExceptionClauseFilter ≠ monoExceptionClauseNone := by decide
  cases typed : block.extype with
  | none =>
    simp only [clauseValue, clauseData, typed, ne_eq, not_true_eq_false, false_implies, iff_true]
    by_cases filter : block.type = monoExceptionClauseFilter
    · simp only [parseData, filter, if_true]
    · simp only [parseData, filter, if_false, ne_eq, not_true_eq_false, ite_self, zero]
  | some klass =>
    have counted : some klass ≠ none := some_ne_none klass
    simp only [clauseValue, clauseData, typed, counted, ne_eq, not_false_eq_true, true_implies]
    by_cases filter : block.type = monoExceptionClauseFilter
    · simp only [parseData, filter, if_true, apart, iff_false, ClauseData.ofOffset]
      split <;> exact nofun
    · by_cases catches : block.type = monoExceptionClauseNone
      · simp only [parseData, catches, apart.symm, if_false, if_true, resolve.typedefOrRef_ne, ne_eq,
          not_false_eq_true, resolve.classGet, map_some, getD_some]
      · simp only [parseData, filter, catches, if_false, iff_false]
        exact nofun

/-- The clauses of a block are read back exactly when only the handlers that catch have a type. -/
theorem blocksBack_eq_iff (resolve : tokens.ResolveTypes) (info : MonoILExceptionInfo Class)
    (blocks : List (MonoILExceptionBlock Class)) : ∀ finallyStart : BitVec 32,
      blocksBack tokens info finallyStart blocks = blockClauses info finallyStart blocks ↔
        ∀ block ∈ blocks, block.extype ≠ none → block.type = monoExceptionClauseNone := by
  induction blocks with
  | nil =>
    intro _
    simp [blocksBack, blockClauses]
  | cons block blocks ih =>
    intro finallyStart
    simp only [blocksBack, blockClauses, List.cons.injEq, MonoExceptionClause.mk.injEq, true_and, ih,
      forall_mem_cons, parseData_eq_iff resolve]

theorem length_infoBack : (infoBack tokens info).length = (infoClauses info).length := by
  unfold infoBack infoClauses
  cases info.handlers with
  | none => rfl
  | some blocks => rw [length_blocksBack, length_blockClauses]

theorem infoBack_eq_iff (resolve : tokens.ResolveTypes) (info : MonoILExceptionInfo Class) :
    infoBack tokens info = infoClauses info ↔ ∀ handlers, info.handlers = some handlers →
        ∀ block ∈ handlers, block.extype ≠ none → block.type = monoExceptionClauseNone := by
  unfold infoBack infoClauses
  cases present : info.handlers with
  | none => simp
  | some blocks => simp [blocksBack_eq_iff resolve]

theorem flatMap_infoBack_eq_iff (resolve : tokens.ResolveTypes) (infos : List (MonoILExceptionInfo Class)) :
    infos.flatMap (infoBack tokens) = infos.flatMap infoClauses ↔
      ∀ info ∈ infos, ∀ handlers, info.handlers = some handlers →
        ∀ block ∈ handlers, block.extype ≠ none → block.type = monoExceptionClauseNone := by
  induction infos with
  | nil => simp
  | cons info infos ih =>
    rw [flatMap_cons, flatMap_cons, forall_mem_cons, ← ih, ← infoBack_eq_iff resolve]
    constructor
    · intro same
      exact append_inj same (length_infoBack info)
    · intro both
      rw [both.1, both.2]

/-- A block has at most as many clauses as it is counted for, and as many when it has handlers. -/
theorem length_infoClauses : (infoClauses info).length ≤ info.count ∧
      (info.handlers ≠ none → (infoClauses info).length = info.count) := by
  unfold infoClauses MonoILExceptionInfo.count
  cases info.handlers with
  | none => exact ⟨Nat.zero_le 1, fun counted => absurd rfl counted⟩
  | some blocks => exact ⟨(length_blockClauses _ _ _).le, fun _ => length_blockClauses _ _ _⟩

theorem length_flatMap_infoClauses (infos : List (MonoILExceptionInfo Class)) :
    (infos.flatMap infoClauses).length ≤ countClauses infos ∧
      ((∀ info ∈ infos, info.handlers ≠ none) → (infos.flatMap infoClauses).length = countClauses infos) := by
  induction infos with
  | nil => exact ⟨Nat.le_refl 0, fun _ => rfl⟩
  | cons info infos ih =>
    obtain ⟨less, same⟩ := length_infoClauses info
    rw [flatMap_cons, length_append, countClauses]
    refine ⟨Nat.add_le_add less ih.1, ?_⟩
    intro handlers
    rw [forall_mem_cons] at handlers
    rw [same handlers.1, ih.2 handlers.2]

theorem length_methodEncodeClauses (infos : List (MonoILExceptionInfo Class)) :
    (methodEncodeClauses infos).length = countClauses infos := by
  have less := (length_flatMap_infoClauses infos.reverse).1
  rw [countClauses_reverse] at less
  rw [methodEncodeClauses, length_append, length_replicate]
  omega

theorem methodEncodeClauses_eq (handlers : ∀ info ∈ infos, info.handlers ≠ none) :
    methodEncodeClauses infos = infos.reverse.flatMap infoClauses := by
  have same := (length_flatMap_infoClauses infos.reverse).2 fun info member =>
    handlers info (mem_reverse.mp member)
  rw [countClauses_reverse] at same
  rw [methodEncodeClauses, same, Nat.sub_self, List.replicate_zero, append_nil]

/-- The clauses that are read are those of the builder exactly when only the handlers that catch have a type. -/
theorem clausesBack_eq_iff (resolve : tokens.ResolveTypes) (handlers : ∀ info ∈ infos, info.handlers ≠ none) :
    clausesBack tokens infos = methodEncodeClauses infos ↔ ∀ info ∈ infos, ∀ handlers, info.handlers = some handlers →
        ∀ block ∈ handlers, block.extype ≠ none → block.type = monoExceptionClauseNone := by
  rw [clausesBack, methodEncodeClauses_eq handlers, flatMap_infoBack_eq_iff resolve]
  simp only [mem_reverse]

/-! ### The number of clauses of a header -/

theorem length_parseClauses {isFat : Bool} (n : Nat) : ∀ {p : Nat} {clauses : List (MonoExceptionClause Class)},
      parseClauses tokens mem isFat n p = some clauses → clauses.length = n := by
  induction n with
  | zero =>
    intro p clauses read
    obtain rfl := Option.some.inj read
    rfl
  | succ n ih =>
    intro p clauses read
    rw [parseClauses] at read
    simp only [bind_eq_bind, Option.pure_def] at read
    obtain ⟨clause, -, read⟩ := bind_eq_some_iff.mp read
    obtain ⟨others, readOthers, whole⟩ := bind_eq_some_iff.mp read
    obtain rfl := Option.some.inj whole
    rw [length_cons, ih readOthers]

theorem sectionClauses_lt {len : BitVec 32} {before clauses : List (MonoExceptionClause Class)}
    (few : before.length < 2 ^ 15) (read : sectionClauses tokens mem ptr flags len before = some clauses) :
    clauses.length < 2 ^ 15 := by
  unfold sectionClauses at read
  split at read
  next =>
    rw [length_parseClauses _ read]
    exact BitVec.isLt _
  next =>
    obtain rfl := Option.some.inj read
    exact few

theorem parseSectionData_lt (ptr : Nat) (before : List (MonoExceptionClause Class)) :
    ∀ {clauses : List (MonoExceptionClause Class)}, before.length < 2 ^ 15 →
      parseSectionData tokens mem ptr before = some clauses → clauses.length < 2 ^ 15 := by
  fun_induction parseSectionData tokens mem ptr before with
  | case1 => exact fun _ read => (nomatch read)
  | case2 ptr before start inside flags after len sect _ =>
    rename_i ih
    intro clauses few read
    obtain ⟨dataLen, -, rest⟩ := bind_eq_some_iff.mp sect
    obtain ⟨left, readLeft, whole⟩ := bind_eq_some_iff.mp rest
    obtain ⟨rfl, -⟩ := Prod.mk.inj (Option.some.inj whole)
    exact ih (sectionClauses_lt few readLeft) read
  | case3 ptr before start inside flags after len sect =>
    intro clauses few read
    obtain ⟨dataLen, -, rest⟩ := bind_eq_some_iff.mp sect
    obtain ⟨left, readLeft, whole⟩ := bind_eq_some_iff.mp rest
    obtain ⟨rfl, -⟩ := Prod.mk.inj (Option.some.inj whole)
    obtain rfl := Option.some.inj read
    exact sectionClauses_lt few readLeft
  | case4 => exact fun _ read => (nomatch read)

theorem parseMhFull_lt {mh : MonoMethodHeader Class Local}
    (read : parseMhFull tokens mem ptr = some mh) : mh.clauses.length < 2 ^ 15 := by
  obtain ⟨flags, -, read⟩ := bind_eq_some_iff.mp read
  dsimp only at read
  split at read
  next =>
    obtain rfl := Option.some.inj read
    exact Nat.two_pow_pos 15
  next =>
    split at read
    next =>
      obtain ⟨fatFlags, -, read⟩ := bind_eq_some_iff.mp read
      obtain ⟨maxStack, -, read⟩ := bind_eq_some_iff.mp read
      obtain ⟨codeSize, -, read⟩ := bind_eq_some_iff.mp read
      obtain ⟨localSig, -, read⟩ := bind_eq_some_iff.mp read
      obtain ⟨locals, -, read⟩ := bind_eq_some_iff.mp read
      obtain ⟨clauses, readClauses, read⟩ := bind_eq_some_iff.mp read
      obtain rfl := Option.some.inj read
      unfold parseMoreSects at readClauses
      split at readClauses
      next => exact parseSectionData_lt _ [] (Nat.two_pow_pos 15) readClauses
      next =>
        obtain rfl := Option.some.inj readClauses
        exact Nat.two_pow_pos 15
    next => cases read

/-! ### The round trip -/

theorem handlers_of_encodeBody {stream stream' : List Byte} {idx : Nat}
    (few : countClauses mb.body.exHandlers < 2 ^ 15) (writes : encodeBody tokens stream mb = some (stream', idx)) :
    ∀ info ∈ mb.body.exHandlers, info.handlers ≠ none := by
  by_cases none : countClauses mb.body.exHandlers = 0
  · exact handlers_of_count none
  · have counted := mt (numException_eq_zero few).mp none
    have large : ¬ maybeSmall mb.body (BitVec.ofNat 32 (countClauses mb.body.exHandlers)) := by
      rw [maybeSmall, Bool.and_eq_true, beq_iff_eq]
      exact fun both => counted both.2
    simp only [encodeBody, large, encodeFat, if_neg counted] at writes
    obtain ⟨bytes, written, -⟩ := bind_eq_some_iff.mp writes
    intro info member
    exact handlers_of_encodeInfos tokens written info (mem_reverse.mpr member)

theorem not_roundTrips_of_count {stream : List Byte} (many : 2 ^ 15 ≤ countClauses mb.body.exHandlers) :
    ¬ RoundTrips tokens stream mb := by
  rintro ⟨stream', idx, -, reads⟩
  obtain ⟨mh, read, agrees⟩ := reads []
  have few := parseMhFull_lt read
  rw [agrees.clauses, length_methodEncodeClauses] at few
  exact absurd few (Nat.not_lt.mpr many)

theorem methodEncodeCode_eq (stream : List Byte) (hasCode : ¬ mb.withoutCode) (hasBody : mb.body ≠ .missing) :
    methodEncodeCode tokens stream mb = encodeBody tokens stream mb := by
  rw [methodEncodeCode, if_neg hasCode]
  cases source : mb.body with
  | missing => exact absurd source hasBody
  | ilgen | array => rfl

/-- A body is written and read back exactly when its clauses fit. -/
theorem methodEncodeCode_roundTrips_iff (tokens : Tokens Class Local) (stream : List Byte)
    (mb : ReflectionMethodBuilder Class Local)
    (resolveTypes : tokens.ResolveTypes)
    (resolveLocals : tokens.ResolveLocals mb.body.locals)
    (hasCode : ¬ mb.withoutCode)
    (hasBody : mb.body ≠ .missing)
    (stack : mb.body.maxStack.toNat < 2 ^ 16) :
    RoundTrips tokens stream mb ↔ ClausesFit mb.body.exHandlers := by
  rw [RoundTrips, methodEncodeCode_eq stream hasCode hasBody]
  constructor
  · rintro ⟨stream', idx, writes, reads⟩
    obtain ⟨mh, read, agrees⟩ := reads []
    have count : countClauses mb.body.exHandlers < 2 ^ 15 := by
      rw [← length_methodEncodeClauses, ← agrees.clauses]
      exact parseMhFull_lt read
    have handlers := handlers_of_encodeBody count writes
    refine ⟨handlers, count, ?_⟩
    obtain ⟨stream2, idx2, writes2, reads2⟩ := encodeBody_spec stream resolveLocals stack handlers count
    rw [writes] at writes2
    obtain ⟨rfl, rfl⟩ := Prod.mk.inj (Option.some.inj writes2)
    obtain ⟨mh2, read2, -, clauses⟩ := reads2 []
    rw [read] at read2
    obtain rfl := Option.some.inj read2
    exact (clausesBack_eq_iff resolveTypes handlers).mp (clauses.symm.trans agrees.clauses)
  · intro fit
    obtain ⟨stream', idx, writes, reads⟩ := encodeBody_spec stream resolveLocals stack fit.handlers fit.count
    refine ⟨stream', idx, writes, ?_⟩
    intro later
    obtain ⟨mh, read, back, clauses⟩ := reads later
    exact ⟨mh, read, back.code, back.maxStack, back.initLocals,
      clauses.trans ((clausesBack_eq_iff resolveTypes fit.handlers).mpr fit.extype)⟩

/-- Two types with a token each, and one signature of locals. -/
def sampleTokens : Tokens Bool Unit where
  typedefOrRef klass := if klass then 0x02000002 else 0x01000005
  classGet token := if token = 0x02000002 then some true else if token = 0x01000005 then some false else none
  encodeLocals _ := 1
  localsOfRow row := if row = 1 then some [()] else none

theorem resolveTypes_sample : sampleTokens.ResolveTypes where
  typedefOrRef_ne := by decide
  classGet := by decide

theorem resolveLocals_sample : sampleTokens.ResolveLocals [()] where
  row := by decide
  localsOfRow := by decide

/-- A method with a local and with these blocks. -/
def sampleMethod (infos : List (MonoILExceptionInfo Bool)) : ReflectionMethodBuilder Bool Unit where
  attrs := 0
  iattrs := 0
  body := .ilgen ⟨[0x00, 0xde, 0x03, 0x26, 0xde, 0x00, 0x2a], 9, [()], infos, by decide⟩
  initLocals := true

/-- A try block with a handler that catches, one with a filter, and one that runs finally. -/
def sampleBlocks : List (MonoILExceptionInfo Bool) :=
  [⟨some [⟨some true, 0, 3, 1, 0⟩, ⟨none, 1, 4, 1, 2⟩, ⟨none, 2, 5, 1, 0⟩], 0, 3⟩]

theorem methodEncodeCode_roundTrips_sample :
    RoundTrips sampleTokens [0x2a] (sampleMethod sampleBlocks) ↔ ClausesFit sampleBlocks :=
  methodEncodeCode_roundTrips_iff sampleTokens [0x2a] (sampleMethod sampleBlocks) resolveTypes_sample
    resolveLocals_sample (by decide) (fun none => nomatch none) (by decide)

theorem countClauses_sample (handlers : List (MonoILExceptionBlock Bool)) :
    countClauses (sampleMethod [⟨some handlers, 0, 3⟩]).body.exHandlers = handlers.length :=
  rfl

/-- So many handlers that the 15 bits of `num_clauses` hold 0. -/
theorem methodEncodeCode_losesClauses :
    sampleTokens.ResolveTypes ∧ sampleTokens.ResolveLocals [()] ∧
      ¬ RoundTrips sampleTokens []
        (sampleMethod [⟨some (List.replicate 32768 ⟨some true, 0, 3, 1, 0⟩), 0, 3⟩]) := by
  refine ⟨resolveTypes_sample, resolveLocals_sample, not_roundTrips_of_count ?_⟩
  rw [countClauses_sample, length_replicate]
  decide

/-! ### The summary -/

theorem isEmpty_sectionClauses {len : BitVec 32} {before clauses : List (MonoExceptionClause Class)}
    (read : sectionClauses tokens mem ptr flags len before = some clauses) :
    (if flags &&& 0x01 ≠ 0 then decide (numClauses len (decide (flags &&& 0x40 ≠ 0)) ≠ 0) else !before.isEmpty) =
      !clauses.isEmpty := by
  unfold sectionClauses at read
  split at read
  next declared =>
    have count := length_parseClauses _ read
    rw [if_pos declared, Bool.eq_iff_iff, decide_eq_true_iff, Bool.not_eq_true', isEmpty_eq_false_iff]
    refine not_congr ?_
    rw [← length_eq_zero_iff, count, toNat_eq]
    rfl
  next none =>
    obtain rfl := Option.some.inj read
    exact if_neg none

/-- Both walk along the sections in the same way, whatever the clauses are. -/
theorem endsWithClauses_eq (ptr : Nat) (before : List (MonoExceptionClause Class)) :
    ∀ {clauses : List (MonoExceptionClause Class)}, parseSectionData tokens mem ptr before = some clauses →
      endsWithClauses mem ptr (!before.isEmpty) = !clauses.isEmpty := by
  fun_induction parseSectionData tokens mem ptr before with
  | case1 => exact fun read => (nomatch read)
  | case2 ptr before start inside flags after len sect more =>
    rename_i ih
    intro clauses read
    obtain ⟨dataLen, size, rest⟩ := bind_eq_some_iff.mp sect
    obtain ⟨left, readLeft, whole⟩ := bind_eq_some_iff.mp rest
    obtain ⟨rfl, rfl⟩ := Prod.mk.inj (Option.some.inj whole)
    rw [endsWithClauses, dif_pos inside]
    dsimp only [flags, start] at *
    rw [size]
    dsimp only
    rw [if_pos more, isEmpty_sectionClauses readLeft]
    exact ih read
  | case3 ptr before start inside flags after len sect =>
    rename_i last
    intro clauses read
    obtain ⟨dataLen, size, rest⟩ := bind_eq_some_iff.mp sect
    obtain ⟨left, readLeft, whole⟩ := bind_eq_some_iff.mp rest
    obtain ⟨rfl, rfl⟩ := Prod.mk.inj (Option.some.inj whole)
    obtain rfl := Option.some.inj read
    rw [endsWithClauses, dif_pos inside]
    dsimp only [flags, start] at *
    rw [size]
    dsimp only
    rw [if_neg last, isEmpty_sectionClauses readLeft]
  | case4 => exact fun read => (nomatch read)

theorem monoMethodGetHeaderSummary_mapped {method : SummarizedMethod Class Local} (mapped : method.Mapped) :
    monoMethodGetHeaderSummary method mem ptr = mappedSummary mem ptr := by
  obtain ⟨flags, iflags, header, verified⟩ := mapped
  rw [and_or_distrib_left] at flags iflags
  obtain ⟨noAbstract, noPinvoke⟩ := or_eq_zero_iff.mp flags
  obtain ⟨noRuntime, noInternal⟩ := or_eq_zero_iff.mp iflags
  have hasCode := not_or.mpr ⟨not_not.mpr noAbstract, not_or.mpr ⟨not_not.mpr noRuntime,
    not_or.mpr ⟨not_not.mpr noInternal, not_not.mpr noPinvoke⟩⟩⟩
  refine (if_neg hasCode).trans ?_
  rw [header]
  exact if_pos verified

theorem length_take_drop {start n : Nat} (inside : start + n ≤ mem.length) : ((mem.drop start).take n).length = n := by
  rw [length_take, length_drop, Nat.min_eq_left (Nat.le_sub_of_add_le' inside)]

/-- A body has clauses where sections follow its code and the last one of them with clauses has one. -/
theorem ne_nil_of_parseMoreSects {fatFlags : BitVec 16} {clauses : List (MonoExceptionClause Class)}
    (read : parseMoreSects tokens mem ptr fatFlags = some clauses) :
    clauses ≠ [] ↔ decide (fatFlags &&& 0x08 ≠ 0) = true ∧ endsWithClauses mem ptr false = true := by
  unfold parseMoreSects at read
  rw [decide_eq_true_iff]
  split at read
  next more =>
    have walked : endsWithClauses mem ptr false = !clauses.isEmpty := endsWithClauses_eq ptr [] read
    rw [walked, Bool.not_eq_true', isEmpty_eq_false_iff]
    exact (and_iff_right more).symm
  next none =>
    obtain rfl := Option.some.inj read
    exact iff_of_false (absurd rfl) fun both => none both.1

/-- A method of an image whose body is accepted. -/
def sampleMapped : SummarizedMethod Bool Unit :=
  ⟨0, 0, none, true⟩

theorem mapped_sample : sampleMapped.Mapped :=
  ⟨rfl, rfl, rfl, rfl⟩

/-- A body of one instruction, with a section for clauses that has none. -/
def emptyTable : List Byte :=
  [0x0b, 0x30, 8, 0, 1, 0, 0, 0, 0, 0, 0, 0, 0x2a, 0, 0, 0, 0x01, 4, 0, 0]

end MonoRuntime.MethodBody
