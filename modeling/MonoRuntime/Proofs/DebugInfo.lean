/-
Module: MonoRuntime.Proofs.DebugInfo
Purpose: `deserialize_debug_info` reads back what `mono_debug_serialize_debug_info` writes: every value of
  32 bits, every variable by its mode, and the line numbers, whose differences wrap around. The buffer is
  large enough unless its size does not fit into a `guint32`.
Trusted boundary: none
Main exports: debugInfo_roundTrips_iff, debugInfo_overruns_buffer
-/
import MonoRuntime.Mini.DebugInfo

namespace MonoRuntime.DebugInfo

open Reader List

/-! ### Bytes of a value -/

/-- The shift of a `gint32` shows its sign only above the eight bits that are kept. -/
theorem lowByte_sshiftRight (value : BitVec 32) {k : Nat} (few : k ≤ 24) :
    (lowByte (value.sshiftRight k)).toNat = value.toNat / 2 ^ k % 2 ^ 8 := by
  have bits : lowByte (value.sshiftRight k) = value.extractLsb' k 8 := by
    apply BitVec.eq_of_getLsbD_eq
    intro i small
    have inside : k + i < 32 := by omega
    rw [lowByte, BitVec.getLsbD_setWidth, BitVec.getLsbD_sshiftRight, BitVec.getLsbD_extractLsb']
    simp [small, inside, show i < 32 by omega]
  rw [bits, BitVec.extractLsb'_toNat, Nat.shiftRight_eq_div_pow]

theorem lowByte_mask (value : BitVec 32) : lowByte (value &&& 0xff) = lowByte value := by
  apply BitVec.eq_of_toNat_eq
  have mask := Nat.and_two_pow_sub_one_eq_mod value.toNat 8
  simp only [lowByte, BitVec.toNat_setWidth, BitVec.toNat_and]
  rw [show (0xff : BitVec 32).toNat = 2 ^ 8 - 1 from rfl, mask, Nat.mod_mod]

theorem lowByte_toNat (value : BitVec 32) : (lowByte value).toNat = value.toNat % 2 ^ 8 :=
  BitVec.toNat_setWidth _ _

theorem toInt_range (value : BitVec 32) {n : Nat} (small : n < 2 ^ 31) :
    (0 ≤ value.toInt ∧ value.toInt ≤ n) ↔ value.toNat ≤ n := by
  rw [BitVec.toInt_eq_toNat_cond]
  split <;> omega

theorem or_wide (x : BitVec 32) (b : Byte) {n q : Nat} (few : n ≤ 24) (room : x.toNat = 2 ^ (n + 8) * q) :
    (x ||| wide b <<< n).toNat = x.toNat + 2 ^ n * b.toNat := by
  have small := b.isLt
  have split : 2 ^ (n + 8) = 2 ^ n * 2 ^ 8 := Nat.pow_add 2 n 8
  have grown : 2 ^ n * b.toNat < 2 ^ (n + 8) := by
    rw [split]
    exact Nat.mul_lt_mul_of_pos_left small (Nat.two_pow_pos n)
  have bound : 2 ^ (n + 8) ≤ 2 ^ 32 := Nat.pow_le_pow_right (by decide) (by omega)
  have isByte : (wide b <<< n).toNat = 2 ^ n * b.toNat := by
    have same : (wide b).toNat = b.toNat :=
      (BitVec.toNat_setWidth _ _).trans (Nat.mod_eq_of_lt (by omega))
    rw [BitVec.toNat_shiftLeft, same, Nat.shiftLeft_eq, Nat.mul_comm]
    exact Nat.mod_eq_of_lt (by omega)
  rw [BitVec.toNat_or, isByte, room, ← Nat.two_pow_add_eq_or_of_lt grown]

theorem wide_mask (b : Byte) (m : Nat) (few : m ≤ 8) :
    (wide b &&& BitVec.ofNat 32 (2 ^ m - 1)).toNat = b.toNat % 2 ^ m := by
  have bound : 2 ^ m ≤ 2 ^ 8 := Nat.pow_le_pow_right (by decide) few
  have same : (wide b).toNat = b.toNat :=
    (BitVec.toNat_setWidth _ _).trans (Nat.mod_eq_of_lt (by omega))
  have mask : (BitVec.ofNat 32 (2 ^ m - 1)).toNat = 2 ^ m - 1 :=
    (BitVec.toNat_ofNat _ _).trans (Nat.mod_eq_of_lt (by omega))
  rw [BitVec.toNat_and, same, mask, Nat.and_two_pow_sub_one_eq_mod]

theorem shiftLeft_toNat {x : BitVec 32} {n : Nat} (room : 2 ^ n * x.toNat < 2 ^ 32) :
    (x <<< n).toNat = 2 ^ n * x.toNat := by
  rw [BitVec.toNat_shiftLeft, Nat.shiftLeft_eq, Nat.mul_comm]
  exact Nat.mod_eq_of_lt room

/-! ### Values -/

set_option maxRecDepth 8000 in
theorem firstBits (b : Byte) : (b &&& 0x80 = 0 ↔ b.toNat < 128) ∧ (b &&& 0x40 = 0 ↔ b.toNat % 128 < 64) := by
  have all : ∀ n : Fin 256, (BitVec.ofFin n &&& (0x80 : Byte) = 0 ↔ n.val < 128) ∧
      (BitVec.ofFin n &&& (0x40 : Byte) = 0 ↔ n.val % 128 < 64) := by
    decide
  exact all b.toFin

theorem lowByte_or {x y : BitVec 32} {k m : Nat} (isPrefix : x.toNat = 2 ^ k * m) (fits : 2 ^ k * m < 2 ^ 8)
    (below : (lowByte y).toNat < 2 ^ k) :
    (lowByte (x ||| y)).toNat = 2 ^ k * m + (lowByte y).toNat := by
  have bits : lowByte (x ||| y) = lowByte x ||| lowByte y := BitVec.setWidth_or
  have front : (lowByte x).toNat = 2 ^ k * m := by
    rw [lowByte_toNat, isPrefix]
    exact Nat.mod_eq_of_lt fits
  rw [bits, BitVec.toNat_or, front, ← Nat.two_pow_add_eq_or_of_lt below]

section Lengths

variable {b : Byte}

theorem reads_oneByte (first : b.toNat < 128) : Reads decodeValue [b] (wide b) :=
  reads_bind (reads_next b) (by
    rw [if_pos ((firstBits b).1.2 first)]
    exact reads_pure _)

theorem reads_twoBytes (b1 : Byte) (low : 128 ≤ b.toNat) (high : b.toNat < 192) :
    Reads decodeValue [b, b1] ((wide b &&& 0x3f) <<< 8 ||| wide b1) :=
  reads_bind (reads_next b) (by
    rw [if_neg fun zero => absurd ((firstBits b).1.1 zero) (by omega),
      if_pos ((firstBits b).2.2 (by omega))]
    exact reads_bind (reads_next b1) (reads_pure _))

theorem reads_fourBytes (b1 b2 b3 : Byte) (low : 192 ≤ b.toNat) (high : b.toNat < 255) : Reads decodeValue [b, b1, b2, b3]
      ((wide b &&& 0x1f) <<< 24 ||| wide b1 <<< 16 ||| wide b2 <<< 8 ||| wide b3) :=
  reads_bind (reads_next b) (by
    have notLast : b ≠ 0xff := fun last => by
      have isLast : b.toNat = 255 := congrArg BitVec.toNat last
      omega
    rw [if_neg fun zero => absurd ((firstBits b).1.1 zero) (by omega),
      if_neg fun zero => absurd ((firstBits b).2.1 zero) (by omega), if_pos notLast]
    exact reads_bind (reads_next b1) (reads_bind (reads_next b2)
      (reads_bind (reads_next b3) (reads_pure _))))

theorem reads_fiveBytes (b1 b2 b3 b4 : Byte) : Reads decodeValue [0xff, b1, b2, b3, b4]
      (wide b1 <<< 24 ||| wide b2 <<< 16 ||| wide b3 <<< 8 ||| wide b4) :=
  reads_bind (reads_next 0xff)
    (reads_bind (reads_next b1) (reads_bind (reads_next b2) (reads_bind (reads_next b3)
      (reads_bind (reads_next b4) (reads_pure _)))))

end Lengths

theorem join_toNat {x : BitVec 32} {high : Nat} (b1 b2 b3 : Byte) (isHigh : x.toNat = 2 ^ 24 * high) :
    (x ||| wide b1 <<< 16 ||| wide b2 <<< 8 ||| wide b3).toNat
      = 2 ^ 24 * high + 2 ^ 16 * b1.toNat + 2 ^ 8 * b2.toNat + b3.toNat := by
  have second := or_wide x b1 (n := 16) (q := high) (by decide) isHigh
  have third := or_wide (x ||| wide b1 <<< 16) b2 (n := 8) (q := 2 ^ 8 * high + b1.toNat) (by decide)
    (by omega)
  have last := or_wide (x ||| wide b1 <<< 16 ||| wide b2 <<< 8) b3 (n := 0)
    (q := 2 ^ 16 * high + 2 ^ 8 * b1.toNat + b2.toNat) (by decide) (by omega)
  rw [BitVec.shiftLeft_zero] at last
  omega

theorem encodeValue_ranges (value : BitVec 32) : ((0 ≤ value.toInt ∧ value.toInt ≤ 127) ↔ value.toNat ≤ 127) ∧
      ((0 ≤ value.toInt ∧ value.toInt ≤ 16383) ↔ value.toNat ≤ 16383) ∧
      ((0 ≤ value.toInt ∧ value.toInt ≤ 0x1fffffff) ↔ value.toNat ≤ 0x1fffffff) :=
  ⟨toInt_range value (by decide), toInt_range value (by decide), toInt_range value (by decide)⟩

/-- `decode_value` reads what `encode_value` writes, for every value of 32 bits. -/
theorem reads_decodeValue (value : BitVec 32) : Reads decodeValue (encodeValue value) value := by
  have byte1 := lowByte_sshiftRight value (k := 8) (by decide)
  have byte2 := lowByte_sshiftRight value (k := 16) (by decide)
  have byte3 := lowByte_sshiftRight value (k := 24) (by decide)
  have byte0 := lowByte_toNat value
  obtain ⟨range127, range16383, rangeWide⟩ := encodeValue_ranges value
  unfold encodeValue
  simp only [range127, range16383, rangeWide, lowByte_mask]
  split
  next small =>
    have reads := reads_oneByte (b := lowByte value) (by omega)
    have same : wide (lowByte value) = value := by
      apply BitVec.eq_of_toNat_eq
      rw [wide, BitVec.toNat_setWidth]
      omega
    rwa [same] at reads
  split
  next small =>
    have front := lowByte_or (x := 0x80) (y := value.sshiftRight 8) (k := 7) (m := 1) rfl
      (by decide) (by omega)
    have reads := reads_twoBytes (b := lowByte (0x80 ||| value.sshiftRight 8)) (lowByte value)
      (by omega) (by omega)
    have same : (wide (lowByte (0x80 ||| value.sshiftRight 8)) &&& 0x3f) <<< 8 ||| wide (lowByte value)
        = value := by
      have masked : (wide (lowByte (0x80 ||| value.sshiftRight 8)) &&& 0x3f).toNat = value.toNat / 2 ^ 8 := by
        have mask := wide_mask (lowByte (0x80 ||| value.sshiftRight 8)) 6 (by decide)
        refine mask.trans ?_
        omega
      have shifted := shiftLeft_toNat
        (x := wide (lowByte (0x80 ||| value.sshiftRight 8)) &&& 0x3f) (n := 8) (by omega)
      have joined := or_wide _ (lowByte value) (n := 0) (by decide) shifted
      rw [BitVec.shiftLeft_zero] at joined
      apply BitVec.eq_of_toNat_eq
      omega
    rwa [same] at reads
  split
  next small =>
    have front := lowByte_or (x := 0xc0) (y := value.sshiftRight 24) (k := 6) (m := 3) rfl
      (by decide) (by omega)
    rw [BitVec.or_comm] at front
    have reads := reads_fourBytes (b := lowByte (value.sshiftRight 24 ||| 0xc0))
      (lowByte (value.sshiftRight 16)) (lowByte (value.sshiftRight 8)) (lowByte value)
      (by omega) (by omega)
    have masked : (wide (lowByte (value.sshiftRight 24 ||| 0xc0)) &&& 0x1f).toNat
        = value.toNat / 2 ^ 24 := by
      have mask := wide_mask (lowByte (value.sshiftRight 24 ||| 0xc0)) 5 (by decide)
      refine mask.trans ?_
      omega
    have shifted := shiftLeft_toNat
      (x := wide (lowByte (value.sshiftRight 24 ||| 0xc0)) &&& 0x1f) (n := 24) (by omega)
    have joined := join_toNat (lowByte (value.sshiftRight 16)) (lowByte (value.sshiftRight 8))
      (lowByte value) shifted
    rwa [BitVec.eq_of_toNat_eq (y := value) (joined.trans (by omega))] at reads
  next =>
    have reads := reads_fiveBytes (lowByte (value.sshiftRight 24)) (lowByte (value.sshiftRight 16))
      (lowByte (value.sshiftRight 8)) (lowByte value)
    have isByte : (wide (lowByte (value.sshiftRight 24))).toNat = value.toNat / 2 ^ 24 := by
      rw [wide, BitVec.toNat_setWidth]
      omega
    have shifted := shiftLeft_toNat (x := wide (lowByte (value.sshiftRight 24))) (n := 24) (by omega)
    have joined := join_toNat (lowByte (value.sshiftRight 16)) (lowByte (value.sshiftRight 8))
      (lowByte value) shifted
    rwa [BitVec.eq_of_toNat_eq (y := value) (joined.trans (by omega))] at reads

theorem length_encodeValue (value : BitVec 32) : (encodeValue value).length = valueBytes value := by
  obtain ⟨range127, range16383, rangeWide⟩ := encodeValue_ranges value
  unfold encodeValue valueBytes
  simp only [range127, range16383, rangeWide]
  split_ifs <;> rfl

theorem valueBytes_bounds (value : BitVec 32) : 1 ≤ valueBytes value ∧ valueBytes value ≤ 5 := by
  unfold valueBytes
  split_ifs <;> omega

/-! ### Variables -/

/-- The bytes of a variable that has a location. -/
def variableCode (var : MonoDebugVarInfo) : List Byte :=
  encodeValue var.index ++
    if var.index &&& monoDebugVarAddressModeFlags = monoDebugVarAddressModeRegoffset then
      encodeValue var.offset
    else []

/-- What is read back: the offset is kept in one mode only. -/
def restoredVar (var : MonoDebugVarInfo) : MonoDebugVarInfo :=
  if var.index &&& monoDebugVarAddressModeFlags = monoDebugVarAddressModeRegoffset then var
  else ⟨var.index, 0⟩

section Variable

variable {var : MonoDebugVarInfo}

theorem mode_of_located (located : var.location.isSome) :
    var.index &&& monoDebugVarAddressModeFlags = monoDebugVarAddressModeRegister ∨
      var.index &&& monoDebugVarAddressModeFlags = monoDebugVarAddressModeRegoffset ∨
      var.index &&& monoDebugVarAddressModeFlags = monoDebugVarAddressModeDead := by
  by_contra none
  simp only [not_or] at none
  simp [MonoDebugVarInfo.location, none] at located

theorem location_restoredVar (var : MonoDebugVarInfo) : (restoredVar var).location = var.location := by
  unfold restoredVar
  split
  next => rfl
  next notOffset => simp only [MonoDebugVarInfo.location, if_neg notOffset]

theorem serializeVariable_eq (located : var.location.isSome) : serializeVariable var = some (variableCode var) := by
  unfold serializeVariable variableCode
  rcases mode_of_located located with mode | mode | mode
  · rw [mode]
    exact congrArg some (append_nil _).symm
  · rw [mode]
    rfl
  · rw [mode]
    exact congrArg some (append_nil _).symm

theorem reads_deserializeVariable (located : var.location.isSome) :
    Reads deserializeVariable (variableCode var) (restoredVar var) := by
  refine reads_bind (reads_decodeValue var.index) ?_
  unfold restoredVar
  rcases mode_of_located located with mode | mode | mode
  · simp only [mode, if_neg (show monoDebugVarAddressModeRegister ≠ monoDebugVarAddressModeRegoffset by
      decide)]
    exact reads_pure _
  · simp only [mode, if_neg (show monoDebugVarAddressModeRegoffset ≠ monoDebugVarAddressModeRegister by
      decide), if_true]
    exact reads_bind_pure (reads_decodeValue var.offset)
  · simp only [mode, if_neg (show monoDebugVarAddressModeDead ≠ monoDebugVarAddressModeRegister by
      decide), if_neg (show monoDebugVarAddressModeDead ≠ monoDebugVarAddressModeRegoffset by decide),
      if_true]
    exact reads_pure _

theorem length_variableCode (var : MonoDebugVarInfo) : (variableCode var).length = variableBytes var := by
  unfold variableCode variableBytes
  split
  next => rw [length_append, length_encodeValue, length_encodeValue]
  next => rw [append_nil, length_encodeValue]

theorem variableBytes_le (var : MonoDebugVarInfo) : variableBytes var ≤ 10 := by
  have index := valueBytes_bounds var.index
  have offset := valueBytes_bounds var.offset
  unfold variableBytes
  split <;> omega

end Variable

theorem serializeVariables_eq : ∀ {vars : List MonoDebugVarInfo},
    (∀ var ∈ vars, var.location.isSome) → serializeVariables vars = some (vars.flatMap variableCode)
  | [], _ => rfl
  | var :: vars, located => by
      have rest := serializeVariables_eq fun other member => located other (mem_cons_of_mem var member)
      rw [serializeVariables, serializeVariable_eq (located var mem_cons_self), rest]
      rfl

theorem length_flatMap_variableCode : ∀ (vars : List MonoDebugVarInfo),
    (vars.flatMap variableCode).length = (vars.map variableBytes).sum
  | [] => rfl
  | var :: vars => by
      rw [flatMap_cons, length_append, length_variableCode, length_flatMap_variableCode vars,
        map_cons, sum_cons]

theorem sum_variableBytes_le : ∀ (vars : List MonoDebugVarInfo), (vars.map variableBytes).sum ≤ 10 * vars.length
  | [] => Nat.zero_le _
  | var :: vars => by
      have head := variableBytes_le var
      have tail := sum_variableBytes_le vars
      rw [map_cons, sum_cons, length_cons]
      omega

/-! ### Line numbers -/

/-- The differences wrap around, and so do the sums: the induction is on the entries, for any entry before
them. -/
theorem reads_deserializeLines : ∀ (lines : List MonoDebugLineNumberEntry) (prevOffset prevNativeOffset : BitVec 32),
    Reads (deserializeLines prevOffset prevNativeOffset lines.length)
      (serializeLines prevOffset prevNativeOffset lines) lines
  | [], _, _ => reads_pure []
  | lne :: lines, prevOffset, prevNativeOffset => by
      have rest := reads_deserializeLines lines lne.ilOffset lne.nativeOffset
      rw [serializeLines, append_assoc]
      refine reads_bind (reads_decodeValue _) (reads_bind (reads_decodeValue _) ?_)
      have il : prevOffset + (lne.ilOffset - prevOffset) = lne.ilOffset := by
        rw [BitVec.add_comm, BitVec.sub_add_cancel]
      have native : prevNativeOffset + (lne.nativeOffset - prevNativeOffset) = lne.nativeOffset := by
        rw [BitVec.add_comm, BitVec.sub_add_cancel]
      simp only [il, native]
      exact reads_bind_pure rest

theorem length_serializeLines : ∀ (lines : List MonoDebugLineNumberEntry) (prevOffset prevNativeOffset : BitVec 32),
    (serializeLines prevOffset prevNativeOffset lines).length = lineBytes prevOffset prevNativeOffset lines
  | [], _, _ => rfl
  | lne :: lines, prevOffset, prevNativeOffset => by
      rw [serializeLines, length_append, length_append, length_encodeValue, length_encodeValue,
        length_serializeLines lines, lineBytes]

theorem lineBytes_bounds : ∀ (lines : List MonoDebugLineNumberEntry) (prevOffset prevNativeOffset : BitVec 32),
    2 * lines.length ≤ lineBytes prevOffset prevNativeOffset lines ∧
      lineBytes prevOffset prevNativeOffset lines ≤ 10 * lines.length
  | [], _, _ => ⟨Nat.zero_le _, Nat.zero_le _⟩
  | lne :: lines, prevOffset, prevNativeOffset => by
      have il := valueBytes_bounds (lne.ilOffset - prevOffset)
      have native := valueBytes_bounds (lne.nativeOffset - prevNativeOffset)
      have rest := lineBytes_bounds lines lne.ilOffset lne.nativeOffset
      rw [lineBytes, length_cons]
      omega

/-! ### The record -/

/-- The record that is read back. -/
def restoredInfo (codeStart : Nat) (jit : MonoDebugMethodJitInfo) : MonoDebugMethodJitInfo :=
  { jit with
    codeStart := codeStart
    thisVar := jit.thisVar.map restoredVar
    params := jit.params.map restoredVar
    locals := jit.locals.map restoredVar }

section Record

variable {method : MonoMethod} {jit : MonoDebugMethodJitInfo}

theorem sameDebugInfo_restoredInfo (codeStart : Nat) (jit : MonoDebugMethodJitInfo) :
    SameDebugInfo jit (restoredInfo codeStart jit) := by
  have same : MonoDebugVarInfo.location ∘ restoredVar = MonoDebugVarInfo.location :=
    funext location_restoredVar
  exact
    { prologueEnd := rfl
      epilogueBegin := rfl
      codeSize := rfl
      params := by rw [restoredInfo, map_map, same]
      thisVar := by rw [restoredInfo, Option.map_map, same]
      locals := by rw [restoredInfo, map_map, same]
      lineNumbers := rfl }

/-- The variable `this` is written and read when the signature says that there is one. -/
theorem this_spec (record : RecordOf method jit) : ∃ bytes, serializeThis method jit = some bytes ∧
      bytes.length = (jit.thisVar.map variableBytes).getD 0 ∧
      Reads (deserializeThis method) bytes (jit.thisVar.map restoredVar) := by
  have isSome := record.thisVar
  unfold serializeThis deserializeThis
  cases this : jit.thisVar with
  | none =>
    rw [this] at isSome
    rw [← isSome]
    exact ⟨[], rfl, rfl, reads_pure none⟩
  | some var =>
    have located := record.located var (Or.inr (Or.inl this))
    rw [this] at isSome
    rw [← isSome]
    refine ⟨variableCode var, ?_, length_variableCode var, ?_⟩
    · exact serializeVariable_eq located
    · exact reads_bind_pure (reads_deserializeVariable located)

theorem writeDebugInfo_spec (record : RecordOf method jit) :
    ∃ buf, writeDebugInfo method jit = some buf ∧ buf.length = recordBytes jit ∧
      ∀ codeStart, Reads (deserializeDebugInfo method codeStart) buf (restoredInfo codeStart jit) := by
  obtain ⟨this, writesThis, lengthThis, readsThis⟩ := this_spec record
  have params := fun var member => record.located var (Or.inl member)
  have locals := fun var member => record.located var (Or.inr (Or.inr member))
  have readsParams := reads_many jit.params fun var member => reads_deserializeVariable (params var member)
  have readsLocals := reads_many jit.locals fun var member => reads_deserializeVariable (locals var member)
  rw [record.params] at readsParams
  rw [record.locals] at readsLocals
  have count : (BitVec.ofNat 32 jit.lineNumbers.length).toNat = jit.lineNumbers.length :=
    (BitVec.toNat_ofNat _ _).trans (Nat.mod_eq_of_lt record.lines)
  have readsLines := reads_deserializeLines jit.lineNumbers 0 0
  rw [← count] at readsLines
  refine ⟨_, by
    rw [writeDebugInfo, serializeVariables_eq params, writesThis, serializeVariables_eq locals]
    rfl, ?_, fun codeStart => ?_⟩
  · simp only [length_append, length_encodeValue, length_flatMap_variableCode, lengthThis,
      length_serializeLines, recordBytes]
  · simp only [append_assoc]
    refine reads_bind (reads_decodeValue _) (reads_bind (reads_decodeValue _)
      (reads_bind (reads_decodeValue _) (reads_bind readsParams (reads_bind readsThis
        (reads_bind readsLocals (reads_bind (reads_decodeValue _) ?_))))))
    exact reads_bind_pure readsLines

theorem bufferSize_toNat (jit : MonoDebugMethodJitInfo) : (bufferSize jit).toNat = wantedSize jit % 2 ^ 32 := by
  have one : (1 : BitVec 32).toNat = 1 := rfl
  have ten : (10 : BitVec 32).toNat = 10 := rfl
  have spare : (64 : BitVec 32).toNat = 64 := rfl
  simp only [bufferSize, wantedSize, BitVec.toNat_add, BitVec.toNat_mul, BitVec.toNat_ofNat, one, ten,
    spare]
  omega

theorem recordBytes_lt_wantedSize (jit : MonoDebugMethodJitInfo) : recordBytes jit < wantedSize jit := by
  have epilogue := valueBytes_bounds jit.epilogueBegin
  have prologue := valueBytes_bounds jit.prologueEnd
  have size := valueBytes_bounds jit.codeSize
  have params := sum_variableBytes_le jit.params
  have locals := sum_variableBytes_le jit.locals
  have count := valueBytes_bounds (BitVec.ofNat 32 jit.lineNumbers.length)
  have lines := (lineBytes_bounds jit.lineNumbers 0 0).2
  have this : (jit.thisVar.map variableBytes).getD 0 ≤ 10 := by
    cases jit.thisVar with
    | none => exact Nat.zero_le _
    | some var => exact variableBytes_le var
  unfold recordBytes wantedSize
  omega

/-- The assertion behind the writing holds when the bytes fit into the size that was computed. -/
theorem monoDebugSerializeDebugInfo_eq {buf : List Byte} (writes : writeDebugInfo method jit = some buf) :
    monoDebugSerializeDebugInfo method jit
      = if buf.length < wantedSize jit % 2 ^ 32 then some buf else none := by
  rw [monoDebugSerializeDebugInfo, writes, ← bufferSize_toNat]
  rfl

/-- The debug info of a method is restored, and its buffer large enough, exactly when the size of the buffer
is not cut to 32 bits, or the values are so short that they fit into what is left of it. -/
theorem debugInfo_roundTrips_iff (record : RecordOf method jit) :
    RoundTrips method jit ↔ BufferSuffices jit := by
  obtain ⟨buf, writes, length, reads⟩ := writeDebugInfo_spec record
  have serialize := monoDebugSerializeDebugInfo_eq writes
  rw [length] at serialize
  constructor
  · rintro ⟨buf', serialized, _⟩
    rw [serialized] at serialize
    split at serialize
    next fits => exact Or.inr fits
    next => cases serialize
  · intro enough
    have fits : recordBytes jit < wantedSize jit % 2 ^ 32 := by
      rcases enough with notCut | short
      · rw [Nat.mod_eq_of_lt notCut]
        exact recordBytes_lt_wantedSize jit
      · exact short
    rw [if_pos fits] at serialize
    refine ⟨buf, serialize, ?_, fun codeStart => ?_⟩
    · rw [bufferSize_toNat, length]
      exact Nat.le_of_lt fits
    · exact ⟨restoredInfo codeStart jit, reads codeStart, sameDebugInfo_restoredInfo codeStart jit⟩

end Record

/-- A method with `this`, a parameter on the stack, a dead local, and line numbers that go back. -/
def stackMethod : MonoMethod := ⟨1, true, 1⟩

def stackInfo : MonoDebugMethodJitInfo where
  codeStart := 0x1000
  codeSize := 300
  prologueEnd := 7
  epilogueBegin := 20000
  lineNumbers := [⟨0, 7⟩, ⟨40, 30⟩, ⟨12, 200⟩]
  thisVar := some ⟨0x10000005, 0xfffffff8⟩
  params := [⟨0x00000003, 0⟩]
  locals := [⟨0x30000000, 0⟩]

theorem debugInfo_roundTrips_stack : RoundTrips stackMethod stackInfo ↔ BufferSuffices stackInfo :=
  debugInfo_roundTrips_iff
    { params := rfl
      locals := rfl
      thisVar := rfl
      lines := by decide
      located := by
        intro var member
        simp only [stackInfo, mem_singleton, Option.mem_def, Option.some.injEq] at member
        rcases member with rfl | rfl | rfl <;> decide }

/-- A method without variables. -/
def plainMethod : MonoMethod := ⟨0, false, 0⟩

/-- A record that has line numbers only. -/
def linesInfo (lines : List MonoDebugLineNumberEntry) : MonoDebugMethodJitInfo where
  codeStart := 0
  codeSize := 0
  prologueEnd := 0
  epilogueBegin := 0
  lineNumbers := lines
  thisVar := none
  params := []
  locals := []

theorem recordOf_linesInfo {lines : List MonoDebugLineNumberEntry} (few : lines.length < 2 ^ 32) :
    RecordOf plainMethod (linesInfo lines) where
  params := rfl
  locals := rfl
  thisVar := rfl
  lines := few
  located := by rintro var (none | none | none) <;> cases none

/-- Where the size is cut to less than two bytes for each entry, the entries do not fit. -/
theorem linesInfo_overruns {lines : List MonoDebugLineNumberEntry} (few : lines.length < 2 ^ 32)
    (cut : (10 + lines.length * 10 + 64) % 2 ^ 32 ≤ 2 * lines.length) : ¬ RoundTrips plainMethod (linesInfo lines) := by
  rintro ⟨buf, serialized, _, _⟩
  obtain ⟨written, writes, length, _⟩ := writeDebugInfo_spec (recordOf_linesInfo few)
  have wanted : wantedSize (linesInfo lines) = 10 + lines.length * 10 + 64 := rfl
  have bytes : lineBytes 0 0 lines ≤ recordBytes (linesInfo lines) := Nat.le_add_left _ _
  have least := (lineBytes_bounds lines 0 0).1
  rw [monoDebugSerializeDebugInfo_eq writes, length, wanted, if_neg (by omega)] at serialized
  cases serialized

/-- So many line numbers that the size of the buffer is cut to 8. -/
theorem debugInfo_overruns_buffer :
    RecordOf plainMethod (linesInfo (List.replicate 429496723 ⟨0, 0⟩)) ∧
      ¬ RoundTrips plainMethod (linesInfo (List.replicate 429496723 ⟨0, 0⟩)) := by
  have few : (List.replicate 429496723 (⟨0, 0⟩ : MonoDebugLineNumberEntry)).length < 2 ^ 32 := by
    rw [length_replicate]
    decide
  refine ⟨recordOf_linesInfo few, linesInfo_overruns few ?_⟩
  rw [length_replicate]
  decide

end MonoRuntime.DebugInfo
