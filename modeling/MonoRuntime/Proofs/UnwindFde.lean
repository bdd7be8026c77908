/-
Module: MonoRuntime.Proofs.UnwindFde
Purpose: The scan of `mono_unwind_get_ops_from_fde` over the bytes of `mono_unwind_ops_encode` and any padding: it takes for
  each op the bytes that `mono_unwind_frame` takes, and copies all of them, unless an op is written in the extended form of
  `DW_CFA_offset`, which the scan does not know. The copy unwinds a frame as both entries describe it.
Trusted boundary: none (fully proved)
Main exports: scan_meets_iff, scan_misses
-/
import MonoRuntime.Mini.UnwindFde
import MonoRuntime.Proofs.UnwindRoundTrip

namespace MonoRuntime.Unwind

open List
open Leb128

variable {t : DwarfTarget}

/-! ### One op -/

/-- `DW_CFA_offset_extended_sf`. -/
def dwCfaOffsetExtendedSf : Byte := 0x11

theorem decodeCieExtOp_of_execExtended {b : Byte} {p p' : List Byte} {pos pos' : Int} {st st' : FrameState}
    (other : b ≠ dwCfaOffsetExtendedSf) (exec : execExtended t b p pos st = some (p', pos', st')) :
    decodeCieExtOp b p = some p' := by
  unfold execExtended at exec
  unfold decodeCieExtOp
  split at exec
  next kind =>
    simp only [kind]
    simp only [Option.bind_eq_bind, Option.bind_eq_some_iff, Option.pure_def, Option.some.injEq] at exec ⊢
    obtain ⟨⟨reg, q⟩, first, hw, mapped, ⟨offset, q'⟩, second, same⟩ := exec
    cases same
    exact ⟨(reg, q), first, (offset, q'), second, rfl⟩
  next kind =>
    simp only [kind]
    simp only [Option.bind_eq_bind, Option.bind_eq_some_iff, Option.pure_def, Option.some.injEq] at exec ⊢
    obtain ⟨⟨offset, q⟩, first, same⟩ := exec
    cases same
    exact ⟨(offset, q), first, rfl⟩
  next kind =>
    simp only [kind]
    simp only [Option.bind_eq_bind, Option.bind_eq_some_iff, Option.pure_def, Option.some.injEq] at exec ⊢
    obtain ⟨⟨reg, q⟩, first, hw, mapped, same⟩ := exec
    cases same
    exact ⟨(reg, q), first, rfl⟩
  next kind => exact absurd (BitVec.eq_of_toNat_eq kind) other
  next kind =>
    simp only [kind]
    simp only [Option.bind_eq_bind, Option.bind_eq_some_iff, Option.pure_def, Option.some.injEq] at exec
    obtain ⟨⟨delta, q⟩, first, same⟩ := exec
    cases same
    match p, first with
    | b0 :: b1 :: b2 :: b3 :: behind, first =>
      have rest : behind = q := by
        simp only [read32, Option.some.injEq, Prod.mk.injEq] at first
        exact first.2
      subst rest
      simp
  next => contradiction

/-- Whatever the bytes are: where `mono_unwind_frame` runs an op, `decode_cie_op` takes the same bytes, but for the one op it
does not know. -/
theorem decodeCieOp_of_execUnwindOp {b : Byte} {p p' : List Byte} {pos pos' : Int} {st st' : FrameState}
    (other : b ≠ dwCfaOffsetExtendedSf) (exec : execUnwindOp t b p pos st = some (p', pos', st')) :
    decodeCieOp b p = some p' := by
  unfold execUnwindOp at exec
  unfold decodeCieOp
  generalize (b &&& 0xc0).toNat = kind at exec ⊢
  split at exec
  next =>
    cases exec
    rfl
  next =>
    simp only [Option.bind_eq_bind, Option.bind_eq_some_iff, Option.pure_def, Option.some.injEq] at exec ⊢
    obtain ⟨reg, mapped, ⟨value, q⟩, first, same⟩ := exec
    cases same
    exact ⟨(value, q), first, rfl⟩
  next => exact decodeCieExtOp_of_execExtended other exec
  next => contradiction

theorem decodeCieOp_extended (p : List Byte) : decodeCieOp dwCfaOffsetExtendedSf p = none :=
  rfl

/-! ### Streams of ops -/

/-- Bytes that are ops one after the other, as `decode_cie_op` takes them. -/
inductive OpStream : List Byte → Prop
  | nil : OpStream []
  | cons {b : Byte} {operands rest : List Byte} (isOp : b ≠ dwCfaNop) (known : b ≠ dwCfaOffsetExtendedSf)
      (takes : ∀ p, decodeCieOp b (operands ++ p) = some p) (others : OpStream rest) :
      OpStream (b :: (operands ++ rest))

theorem OpStream.append {p q : List Byte} (first : OpStream p) (second : OpStream q) : OpStream (p ++ q) := by
  induction first with
  | nil => exact second
  | cons isOp known takes _ ih =>
    rw [cons_append, append_assoc]
    exact .cons isOp known takes ih

theorem scanOps_stream {p : List Byte} (stream : OpStream p) : ∀ (fuel : Nat) (q : List Byte) (left : Int),
    p.length < fuel → p.length ≤ left →
      ∃ rounds, fuel ≤ rounds + p.length ∧ scanOps fuel (p ++ q) left = scanOps rounds q (left - p.length) := by
  induction stream with
  | nil =>
    intro fuel q left _ _
    exact ⟨fuel, by simp, by simp⟩
  | @cons b operands rest isOp known takes _ ih =>
    intro fuel q left enough inside
    simp only [length_cons, length_append] at enough inside ⊢
    obtain ⟨fuel, rfl⟩ := Nat.exists_eq_add_of_lt (show 0 < fuel by omega)
    obtain ⟨rounds, more, scans⟩ := ih (0 + fuel) q (left - (operands.length + 1)) (by omega) (by omega)
    refine ⟨rounds, by omega, ?_⟩
    have step : left - (((b :: (operands ++ (rest ++ q))).length : Int) - (rest ++ q).length) =
        left - (operands.length + 1) := by
      simp only [length_cons, length_append]
      omega
    rw [cons_append, append_assoc, scanOps, if_pos (by omega), if_neg isOp, takes, Option.bind_eq_bind,
      Option.bind_some, step, scans]
    congr 1
    omega

/-- At the end of the stream the scan stops: at padding, or at the end of the entry. -/
theorem scanOps_stops (fuel pad : Nat) (after : List Byte) :
    scanOps (fuel + 1) (List.replicate pad dwCfaNop ++ after) pad = some (List.replicate pad dwCfaNop ++ after) := by
  unfold scanOps
  cases pad with
  | zero => rw [if_neg (by decide)]
  | succ pad =>
    rw [if_pos (by omega), replicate_succ, cons_append]
    exact if_pos rfl

theorem copiedOps_stream {bytes : List Byte} (stream : OpStream bytes) (pad : Nat) (after : List Byte) :
    copiedOps (bytes ++ (List.replicate pad dwCfaNop ++ after)) (bytes.length + pad : Nat) = some bytes := by
  obtain ⟨rounds, more, scans⟩ := scanOps_stream stream (bytes.length + pad + 1)
    (List.replicate pad dwCfaNop ++ after) (bytes.length + pad : Nat) (by omega) (by omega)
  have left : ((bytes.length + pad : Nat) : Int) - bytes.length = pad := by omega
  obtain ⟨fuel, rfl⟩ : ∃ fuel, rounds = fuel + 1 := Nat.exists_eq_add_one.mpr (by omega)
  unfold copiedOps
  rw [Int.toNat_natCast, scans, left, scanOps_stops, Option.bind_eq_bind, Option.bind_some, length_append,
    Nat.add_sub_cancel, take_left]
  rfl

/-! ### Encoded ops -/

theorem emitAdvanceLoc_stream : ∀ fuel when loc, OpStream (emitAdvanceLoc fuel when loc).1
  | 0, _, _ => .nil
  | fuel + 1, when, loc => by
      have one {delta : Nat} (small : delta < 64) {rest : List Byte} (others : OpStream rest) :
          OpStream (advanceByte delta :: rest) := by
        have fields : ∀ d < 64, advanceByte d ≠ dwCfaNop ∧ advanceByte d ≠ dwCfaOffsetExtendedSf ∧
            (advanceByte d &&& 0xc0).toNat = 0x40 := by
          decide
        obtain ⟨isOp, known, opcode⟩ := fields delta small
        have takes (p : List Byte) : decodeCieOp (advanceByte delta) ([] ++ p) = some p := by
          unfold decodeCieOp
          simp only [opcode]
          rfl
        exact OpStream.cons isOp known takes others
      unfold emitAdvanceLoc
      split
      next ahead =>
        split
        next near => exact one (by omega) .nil
        next => exact one (by omega) (emitAdvanceLoc_stream fuel when (loc + 30))
      next => exact .nil

theorem encodeUnwindOp_stream {op : MonoUnwindOp} {dwarf : Nat} {body : List Byte}
    (entry : monoHwRegToDwarfReg t op.reg.toNat = some dwarf) (encoded : encodeUnwindOp t op dwarf = some body) :
    if op.extended t then ∃ operands, body = dwCfaOffsetExtendedSf :: operands else OpStream body := by
  have whole {b : Byte} {operands : List Byte} (isOp : b ≠ dwCfaNop) (known : b ≠ dwCfaOffsetExtendedSf)
      (takes : ∀ p, decodeCieOp b (operands ++ p) = some p) : OpStream (b :: operands) := by
    have stream := OpStream.cons isOp known takes .nil
    rwa [append_nil] at stream
  cases kind : op.op with
  | defCfa =>
    simp only [encodeUnwindOp, kind, Option.some.injEq] at encoded
    subst encoded
    rw [if_neg (by simp [MonoUnwindOp.extended, kind])]
    refine whole (by decide) (by decide) fun p => ?_
    simp [decodeCieOp, decodeCieExtOp, append_assoc, decodeUnsigned_encodeUnsigned]
  | defCfaOffset | defCfaRegister =>
    simp only [encodeUnwindOp, kind, Option.some.injEq] at encoded
    subst encoded
    rw [if_neg (by simp [MonoUnwindOp.extended, kind])]
    refine whole (by decide) (by decide) fun p => ?_
    simp [decodeCieOp, decodeCieExtOp, decodeUnsigned_encodeUnsigned]
  | offset =>
    have isExtended : op.extended t = decide (63 < dwarf) := by simp [MonoUnwindOp.extended, kind, entry]
    by_cases large : 63 < dwarf
    · simp only [encodeUnwindOp, kind, if_pos large, Option.some.injEq] at encoded
      rw [if_pos (by rw [isExtended, decide_eq_true large])]
      exact ⟨_, encoded.symm⟩
    · simp only [encodeUnwindOp, kind, if_neg large, Option.some.injEq] at encoded
      subst encoded
      have fields : ∀ d < 64, (0x80 ||| BitVec.ofNat 8 d : Byte) ≠ dwCfaNop ∧
          (0x80 ||| BitVec.ofNat 8 d : Byte) ≠ dwCfaOffsetExtendedSf ∧
          ((0x80 ||| BitVec.ofNat 8 d : Byte) &&& 0xc0).toNat = 0x80 := by
        decide
      obtain ⟨isOp, known, opcode⟩ := fields dwarf (by omega)
      rw [if_neg (by rw [isExtended, decide_eq_false large]; decide)]
      refine whole isOp known fun p => ?_
      unfold decodeCieOp
      simp only [opcode, decodeUnsigned_encodeUnsigned]
      rfl
  | sameValue => simp [encodeUnwindOp, kind] at encoded

theorem encodeUnwindOps_stream : ∀ {ops : List MonoUnwindOp} {loc : Nat} {bytes : List Byte},
    encodeUnwindOps t loc ops = some bytes → (∀ op ∈ ops, ¬op.extended t) → OpStream bytes
  | [], _, _, encoded, _ => by
      cases encoded
      exact .nil
  | op :: ops, loc, bytes, encoded, short => by
      simp only [encodeUnwindOps, Option.bind_eq_bind, Option.bind_eq_some_iff, Option.pure_def,
        Option.some.injEq] at encoded
      obtain ⟨dwarf, entry, body, isBody, rest, isRest, rfl⟩ := encoded
      have stream := encodeUnwindOp_stream entry isBody
      rw [if_neg (short op mem_cons_self)] at stream
      exact (emitAdvanceLoc_stream _ _ _).append
        (stream.append (encodeUnwindOps_stream isRest fun other later => short other (mem_cons_of_mem op later)))

theorem scanOps_extended : ∀ {ops : List MonoUnwindOp} {loc : Nat} {bytes : List Byte},
    encodeUnwindOps t loc ops = some bytes → (∃ op ∈ ops, op.extended t) →
      ∀ (fuel : Nat) (q : List Byte) (left : Int), bytes.length < fuel → bytes.length ≤ left →
        scanOps fuel (bytes ++ q) left = none
  | [], _, _, _, long, _, _, _, _, _ => by
      obtain ⟨op, member, -⟩ := long
      contradiction
  | op :: ops, loc, bytes, encoded, long, fuel, q, left, enough, inside => by
      simp only [encodeUnwindOps, Option.bind_eq_bind, Option.bind_eq_some_iff, Option.pure_def,
        Option.some.injEq] at encoded
      obtain ⟨dwarf, entry, body, isBody, rest, isRest, rfl⟩ := encoded
      simp only [length_append] at enough inside
      have stream := encodeUnwindOp_stream entry isBody
      obtain ⟨rounds, more, advances⟩ := scanOps_stream
        (emitAdvanceLoc_stream (op.when.toNat - loc) op.when.toNat loc) fuel (body ++ (rest ++ q)) left
        (by omega) (by omega)
      rw [append_assoc, append_assoc, advances]
      by_cases here : op.extended t
      · rw [if_pos here] at stream
        obtain ⟨operands, rfl⟩ := stream
        rw [length_cons] at enough inside
        obtain ⟨round, rfl⟩ : ∃ round, rounds = round + 1 := Nat.exists_eq_add_one.mpr (by omega)
        rw [cons_append, scanOps, if_pos (by omega), if_neg (by decide), decodeCieOp_extended]
        rfl
      · rw [if_neg here] at stream
        obtain ⟨rounds', more', takes⟩ := scanOps_stream stream rounds (rest ++ q)
          (left - (emitAdvanceLoc (op.when.toNat - loc) op.when.toNat loc).1.length) (by omega) (by omega)
        rw [takes]
        refine scanOps_extended isRest ?_ _ q _ (by omega) (by omega)
        obtain ⟨other, member, isLong⟩ := long
        rcases mem_cons.mp member with rfl | later
        · exact absurd isLong here
        · exact ⟨other, later, isLong⟩

/-! ### The scan -/

/-- The places where `mono_unwind_frame` starts to read an op, by the bytes from there on. -/
inductive OpAt (t : DwarfTarget) (start : List Byte) : List Byte → Prop
  | here : OpAt t start start
  | next {b : Byte} {p p' : List Byte} {pos pos' : Int} {st st' : FrameState} (at_ : OpAt t start (b :: p))
      (exec : execUnwindOp t b p pos st = some (p', pos', st')) : OpAt t start p'

/-- The scan is right: it takes for each op the bytes that `mono_unwind_frame` takes, it copies all ops in front of the
padding, and the copy unwinds to the same state. -/
structure ScanMeets (t : DwarfTarget) (bytes cfi : List Byte) (len : Int) : Prop where
  sameBytes : ∀ b p, OpAt t bytes (b :: p) → ∀ pos st p' pos' st',
    execUnwindOp t b p pos st = some (p', pos', st') → decodeCieOp b p = some p'
  copies : copiedOps cfi len = some bytes
  unwinds : ∀ offset, (copiedOps cfi len).bind (unwindState t · offset) = unwindState t bytes offset

theorem OpAt.stream {bytes p : List Byte} (at_ : OpAt t bytes p) (stream : OpStream bytes) : OpStream p := by
  induction at_ with
  | here => exact stream
  | next _ exec ih =>
    generalize is : _ :: _ = ops at ih
    cases ih with
    | nil => cases is
    | cons isOp known takes others =>
      cases is
      have taken := (decodeCieOp_of_execUnwindOp known exec).symm.trans (takes _)
      cases taken
      exact others

theorem encodeUnwindOps_of_encode {ops : List MonoUnwindOp} {bytes : List Byte}
    (encoded : monoUnwindOpsEncode t ops = some bytes) : encodeUnwindOps t 0 ops = some bytes := by
  simp only [monoUnwindOpsEncode, Option.bind_eq_bind, Option.bind_eq_some_iff] at encoded
  obtain ⟨buf, run, fits⟩ := encoded
  split at fits
  next =>
    cases fits
    exact run
  next => contradiction

/-- The scan is right for the bytes of an encoded list of ops and any padding if and only if none of the ops is written in the
extended form. What comes behind the entry does not matter. -/
theorem scan_meets_iff (t : DwarfTarget) {ops : List MonoUnwindOp} {bytes : List Byte}
    (encoded : monoUnwindOpsEncode t ops = some bytes) (pad : Nat) (after : List Byte) :
    ScanMeets t bytes (bytes ++ (List.replicate pad dwCfaNop ++ after)) (bytes.length + pad : Nat) ↔
      ∀ op ∈ ops, ¬op.extended t := by
  have isBytes := encodeUnwindOps_of_encode encoded
  constructor
  · intro meets op member long
    have aborts := scanOps_extended isBytes ⟨op, member, long⟩ (bytes.length + pad + 1)
      (List.replicate pad dwCfaNop ++ after) (bytes.length + pad : Nat) (by omega) (by omega)
    have copies := meets.copies
    unfold copiedOps at copies
    rw [Int.toNat_natCast, aborts] at copies
    contradiction
  · intro short
    have stream := encodeUnwindOps_stream isBytes short
    have copies := copiedOps_stream stream pad after
    refine ⟨fun b p at_ pos st p' pos' st' exec => ?_, copies, fun offset => by rw [copies]; rfl⟩
    have known : b ≠ dwCfaOffsetExtendedSf := by
      generalize is : b :: p = q at at_
      cases at_.stream stream with
      | nil => cases is
      | cons isOp known takes others =>
        cases is
        exact known
    exact decodeCieOp_of_execUnwindOp known exec

/-- The frame of an amd64 method, with three bytes of padding and the next entry behind. -/
theorem scan_meets_amd64 :
    ScanMeets amd64 [0x0c, 2, 0, 0x48, 0x90, 0xff, 0xff, 0xff, 0xff, 0x0f]
        ([0x0c, 2, 0, 0x48, 0x90, 0xff, 0xff, 0xff, 0xff, 0x0f] ++ (List.replicate 3 dwCfaNop ++ [0x14])) 13 ↔
      ∀ op ∈ saveOps 16, ¬op.extended amd64 :=
  scan_meets_iff amd64 (by decide) 3 [0x14]

/-- On PowerPC the link register is saved in the extended form, at which the scan aborts. -/
theorem scan_misses :
    monoUnwindOpsEncode powerpc (saveOps 256) = some [0x0c, 1, 0, 0x48, 0x11, 108, 0x7e] ∧
      copiedOps [0x0c, 1, 0, 0x48, 0x11, 108, 0x7e, 0] 8 = none ∧
      ¬ScanMeets powerpc [0x0c, 1, 0, 0x48, 0x11, 108, 0x7e] [0x0c, 1, 0, 0x48, 0x11, 108, 0x7e, 0] 8 := by
  refine ⟨by decide, by decide, fun meets => ?_⟩
  have copies := meets.copies
  contradiction

/-! ### The entries -/

theorem encodeUnwindOps_append {fdeOps : List MonoUnwindOp} {fdeBytes : List Byte}
    (isFde : encodeUnwindOps t 0 fdeOps = some fdeBytes) : ∀ {cieOps : List MonoUnwindOp} {cieBytes : List Byte},
      (∀ op ∈ cieOps, op.when = 0) → encodeUnwindOps t 0 cieOps = some cieBytes →
        encodeUnwindOps t 0 (cieOps ++ fdeOps) = some (cieBytes ++ fdeBytes)
  | [], _, _, isCie => by
    cases isCie
    exact isFde
  | op :: ops, _, atStart, isCie => by
    obtain ⟨here, atStart⟩ := forall_mem_cons.mp atStart
    have stays : emitAdvanceLoc op.when.toNat op.when.toNat 0 = ([], 0) := by
      rw [here]
      rfl
    simp only [encodeUnwindOps, Nat.sub_zero, stays, Option.bind_eq_bind, Option.bind_eq_some_iff, Option.pure_def,
      Option.some.injEq] at isCie
    obtain ⟨dwarf, entry, body, isBody, rest, isRest, rfl⟩ := isCie
    simp [encodeUnwindOps, stays, entry, isBody, encodeUnwindOps_append isFde atStart isRest]

/-- The ops of both entries are copied one after the other, whatever the headers hold, and a frame is unwound by the copy
as the ops of the common entry and those of the frame entry describe it. -/
theorem monoUnwindGetOpsFromFde_unwinds {w pcReg : Nat} {memory : List Byte} {fde : Nat} {header : FdeHeader}
    (decodes : decodeFdeHeader t pcReg memory fde = some header) {cieOps fdeOps : List MonoUnwindOp}
    {cieBytes fdeBytes : List Byte} {ciePad fdePad : Nat} {cieAfter fdeAfter : List Byte}
    (cieValid : EncodedOps t cieOps cieBytes) (fdeValid : EncodedOps t fdeOps fdeBytes)
    (cieHolds : header.cieCfi = cieBytes ++ (List.replicate ciePad dwCfaNop ++ cieAfter))
    (cieEnds : header.cieLeft = (cieBytes.length + ciePad : Nat))
    (fdeHolds : header.fdeCfi = fdeBytes ++ (List.replicate fdePad dwCfaNop ++ fdeAfter))
    (fdeEnds : header.fdeLeft = (fdeBytes.length + fdePad : Nat)) (atStart : ∀ op ∈ cieOps, op.when = 0)
    (short : ∀ op ∈ cieOps ++ fdeOps, ¬op.extended t) (complete : t.TableComplete) :
    ∃ ops, monoUnwindGetOpsFromFde t pcReg memory fde = some (ops, header.codeLen) ∧
      ∀ offset (regs : List (BitVec w)) mem, regs.length ≤ t.numRegs →
        monoUnwindFrame t ops offset regs mem = (interpretUnwindOps (cieOps ++ fdeOps) offset).restore regs mem := by
  have isCie := encodeUnwindOps_of_encode cieValid.encoded
  have isFde := encodeUnwindOps_of_encode fdeValid.encoded
  refine ⟨cieBytes ++ fdeBytes, ?_, fun offset regs mem fits => ?_⟩
  · have cieStream := encodeUnwindOps_stream isCie fun op member => short op (mem_append_left fdeOps member)
    have fdeStream := encodeUnwindOps_stream isFde fun op member => short op (mem_append_right cieOps member)
    have fits : ((cieBytes ++ fdeBytes).length : Int) ≤ header.cieLeft + header.fdeLeft := by
      rw [cieEnds, fdeEnds, length_append]
      omega
    unfold monoUnwindGetOpsFromFde
    simp only [decodes, Option.bind_eq_bind, Option.bind_some, cieHolds, fdeHolds]
    rw [cieEnds, fdeEnds] at fits ⊢
    simp only [copiedOps_stream cieStream, copiedOps_stream fdeStream, Option.bind_some, guard, if_pos fits]
    rfl
  · have notLong : fdeBytes.length < 4096 := by
      have encoded := fdeValid.encoded
      simp only [monoUnwindOpsEncode, isFde, Option.bind_eq_bind, Option.bind_some] at encoded
      by_contra long
      rw [if_neg long] at encoded
      cases encoded
    have small : ∀ op ∈ cieOps ++ fdeOps, op.when.toNat < 2 ^ 31 := by
      intro op member
      rcases mem_append.mp member with cie | later
      · rw [atStart op cie]
        decide
      · have := when_le_encodeUnwindOps_length isFde op later
        omega
    have sorted : (cieOps ++ fdeOps).Pairwise fun a b => a.when.toNat ≤ b.when.toNat :=
      pairwise_append.mpr ⟨cieValid.sorted, fdeValid.sorted, fun op cie _ _ => by
        rw [atStart op cie]
        exact Nat.zero_le _⟩
    have aligned : ∀ op ∈ cieOps ++ fdeOps, op.Aligned t := fun op member =>
      (mem_append.mp member).elim (cieValid.aligned op) (fdeValid.aligned op)
    obtain ⟨st, run, same⟩ := foldlM_decodedEffect_agrees (FrameState.SameFrame.refl regs.length FrameState.init)
      fun op (member : op ∈ executedOps (cieOps ++ fdeOps) offset) =>
        (⟨fun _ => complete, fun long => absurd long (short op (mem_of_mem_filter member))⟩ : DecodableAt t regs.length op)
    have run : unwindState t (cieBytes ++ fdeBytes) offset = some st :=
      (unwindLoop_encode (encodeUnwindOps_append isFde atStart isCie) sorted aligned small (by decide)
        (Nat.zero_le _) (Nat.lt_succ_self _)).trans run
    rw [monoUnwindFrame, if_pos fits, run]
    exact same.restore_eq mem

/-- A common entry of 24 bytes and the entry of a function behind it. -/
def sampleEntries : List Byte :=
  [0x14, 0, 0, 0, 0, 0, 0, 0, 1, 0, 1, 0x78, 16, 0x0c, 7, 8, 0x90, 1, 0, 0, 0, 0, 0, 0,
    0x14, 0, 0, 0, 0x1c, 0, 0, 0, 0, 1, 0, 0, 0x40, 0, 0, 0, 0, 0x44, 0x0e, 0x10, 0, 0, 0, 0]

/-- The return address is below the CFA, and a push moves the stack pointer. -/
theorem monoUnwindGetOpsFromFde_unwinds_amd64 :
    ∃ ops, monoUnwindGetOpsFromFde amd64 16 sampleEntries 24 = some (ops, 0x40) ∧
      ∀ offset (regs : List (BitVec 64)) mem, regs.length ≤ 17 → monoUnwindFrame amd64 ops offset regs mem =
          (interpretUnwindOps [⟨.defCfa, 4, 8, 0⟩, ⟨.offset, 16, -8, 0⟩, ⟨.defCfaOffset, 0, 16, 4⟩] offset).restore regs mem :=
  have cie : EncodedOps amd64 [⟨.defCfa, 4, 8, 0⟩, ⟨.offset, 16, -8, 0⟩] [0x0c, 7, 8, 0x90, 1] :=
    ⟨by decide, by decide, by unfold MonoUnwindOp.Aligned; decide⟩
  have fde : EncodedOps amd64 [⟨.defCfaOffset, 0, 16, 4⟩] [0x44, 0x0e, 0x10] :=
    ⟨by decide, by decide, by unfold MonoUnwindOp.Aligned; decide⟩
  have decodes : decodeFdeHeader amd64 16 sampleEntries 24 =
      some ⟨sampleEntries.drop 13, 11, sampleEntries.drop 41, 7, 0x40⟩ := by decide
  have cieHolds : sampleEntries.drop 13 =
      [0x0c, 7, 8, 0x90, 1] ++ (List.replicate 6 dwCfaNop ++ sampleEntries.drop 24) := rfl
  have fdeHolds : sampleEntries.drop 41 = [0x44, 0x0e, 0x10] ++ (List.replicate 4 dwCfaNop ++ []) := rfl
  monoUnwindGetOpsFromFde_unwinds decodes cie fde cieHolds rfl fdeHolds rfl (by decide) (by decide) (by decide)

end MonoRuntime.Unwind
