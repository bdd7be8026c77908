/-
Module: MonoRuntime.Proofs.UnwindRoundTrip
Purpose: What `mono_unwind_frame` computes from the bytes of `mono_unwind_ops_encode`, for any target
  description and any list of ops. The decoder is shown to run the ops with `when` not past the offset
  (`unwindLoop_encode`), each with the effect `decodedEffect`; that effect is the direct one except for
  the extended form of `DW_CFA_offset`, which leaves the frame as it was, and for targets whose register
  table fails the assertion of `init_reg_map`.
Trusted boundary: none
Main exports: monoUnwindFrame_agrees_iff
-/
import MonoRuntime.Mini.Unwind

namespace MonoRuntime.Unwind

open List Option
open Leb128

variable {t : DwarfTarget}

/-! ### The register tables -/

/-- A complete table without repetitions uses every DWARF number, so no number is left for a special
register. -/
theorem specialReg_eq_none (complete : t.TableComplete) : t.specialReg = none := by
  cases special : t.specialReg with
  | none => rfl
  | some pair =>
    obtain ⟨_, small, fresh⟩ := t.special_fresh pair (by simp [special])
    have included : t.mapHwRegToDwarfReg ⊆ List.range t.numRegs := by
      intro d member
      exact mem_range.mpr (t.map_lt d member)
    have same : t.mapHwRegToDwarfReg.Perm (List.range t.numRegs) :=
      (subperm_of_subset t.map_nodup included).perm_of_length_le
        (by rw [length_range]; exact Nat.le_of_eq complete.symm)
    exact absurd (same.mem_iff.mpr (mem_range.mpr small)) fresh

theorem monoHwRegToDwarfReg_of_complete (complete : t.TableComplete) (reg : Nat) :
    monoHwRegToDwarfReg t reg = t.mapHwRegToDwarfReg[reg]? := by
  rw [monoHwRegToDwarfReg, specialReg_eq_none complete]

theorem initRegMap_rounds (complete : t.TableComplete) (n : Nat) (bound : n ≤ t.numRegs) : ∃ table, (List.range n).foldlM
        (fun (table : List Nat) i => do
          let dwarf ← monoHwRegToDwarfReg t i
          pure (table.set dwarf i)) (List.replicate t.numRegs 0) = some table ∧ table.length = t.numRegs ∧
      ∀ reg < n, ∀ dwarf, t.mapHwRegToDwarfReg[reg]? = some dwarf → table[dwarf]? = some reg := by
  induction n with
  | zero => exact ⟨List.replicate t.numRegs 0, rfl, by simp, by simp⟩
  | succ n ih =>
    obtain ⟨table, run, size, right⟩ := ih (by omega)
    have inside : n < t.mapHwRegToDwarfReg.length := by
      rw [complete]
      omega
    refine ⟨table.set t.mapHwRegToDwarfReg[n] n, ?_, by simpa using size, ?_⟩
    · rw [range_succ, foldlM_append, run]
      simp [monoHwRegToDwarfReg_of_complete complete, inside]
    · intro reg small dwarf entry
      rw [getElem?_set]
      split
      · next same =>
        have lt : dwarf < table.length := by
          rw [size]
          exact t.map_lt dwarf (mem_of_getElem? entry)
        obtain ⟨inReg, value⟩ := List.getElem?_eq_some_iff.mp entry
        have : n = reg :=
          (List.Nodup.getElem_inj_iff t.map_nodup).mp (same.trans value.symm)
        rw [if_pos (same ▸ lt), this]
      · next differ =>
        have before : reg < n := by
          rcases Nat.lt_succ_iff_lt_or_eq.mp small with before | rfl
          · exact before
          · rw [getElem?_eq_getElem inside] at entry
            exact absurd (Option.some.inj entry) differ
        exact right reg before dwarf entry

variable {reg dwarf limit nregs : Nat} {p bytes : List Byte} {st other : FrameState}

/-- On a target with a complete table the two register maps are inverse to each other. -/
theorem monoDwarfRegToHwReg_of_hw (complete : t.TableComplete) (entry : monoHwRegToDwarfReg t reg = some dwarf) :
    monoDwarfRegToHwReg t dwarf = some reg := by
  rw [monoHwRegToDwarfReg_of_complete complete] at entry
  obtain ⟨table, run, _, right⟩ := initRegMap_rounds complete t.numRegs (Nat.le_refl _)
  have small : reg < t.numRegs := by
    rw [← complete]
    exact (List.getElem?_eq_some_iff.mp entry).1
  rw [monoDwarfRegToHwReg, initRegMap, if_pos complete, run]
  exact right reg small dwarf entry

theorem monoDwarfRegToHwReg_of_incomplete (incomplete : ¬ t.TableComplete) (dwarf : Nat) :
    monoDwarfRegToHwReg t dwarf = none := by
  rw [monoDwarfRegToHwReg, initRegMap, if_neg incomplete]
  rfl

theorem monoHwRegToDwarfReg_lt (entry : monoHwRegToDwarfReg t reg = some dwarf) : dwarf < t.numRegs := by
  rw [monoHwRegToDwarfReg] at entry
  split at entry
  · next hw special isSpecial =>
    split at entry
    · cases entry
      exact (t.special_fresh (hw, dwarf) (by simp [isSpecial])).2.1
    · exact t.map_lt dwarf (mem_of_getElem? entry)
  · exact t.map_lt dwarf (mem_of_getElem? entry)

/-! ### One op

The decoder's effect of an encoded op differs from the direct one in two cases: an op that names a
register aborts on a target with an incomplete table, and the extended form changes nothing. -/

/-- The op makes the decoder map a register back. -/
def MonoUnwindOp.namesReg (op : MonoUnwindOp) : Bool :=
  op.op ≠ .defCfaOffset

/-- The op is written as `DW_CFA_offset_extended_sf`. -/
def MonoUnwindOp.extended (t : DwarfTarget) (op : MonoUnwindOp) : Bool :=
  op.op = .offset && (monoHwRegToDwarfReg t op.reg.toNat).any (63 < ·)

/-- The effect of an encoded op on the frame, as the decoder computes it. -/
def decodedEffect (t : DwarfTarget) (st : FrameState) (op : MonoUnwindOp) : Option FrameState :=
  if op.namesReg ∧ ¬ t.TableComplete then none
  else if op.extended t then some st
  else some (op.apply st)

/-- Saved-register offsets are multiples of `DWARF_DATA_ALIGN`. -/
def MonoUnwindOp.Aligned (t : DwarfTarget) (op : MonoUnwindOp) : Prop :=
  op.op = .offset → t.dwarfDataAlign ∣ op.val.toInt

theorem factored_mul {align : Int} {val : BitVec 32} (aligned : align ∣ val.toInt) :
    BitVec.ofInt 32 (val.toInt.tdiv align) * BitVec.ofInt 32 align = val := by
  rw [← BitVec.ofInt_mul, Int.tdiv_mul_cancel aligned, BitVec.ofInt_toInt]

theorem execUnwindOp_advance {delta : Nat} (small : delta < 64) (p : List Byte) (pos : Int) (st : FrameState) :
    execUnwindOp t (advanceByte delta) p pos st = some (p, (pos + delta).bmod (2 ^ 32), st) := by
  have fields : ∀ d < 64, (advanceByte d &&& 0xc0).toNat = 0x40 ∧
      (advanceByte d &&& 0x3f).toNat = d := by
    decide
  obtain ⟨opcode, operand⟩ := fields delta small
  simp only [execUnwindOp, opcode, operand]

theorem toNat_ofNat_dwarf (entry : monoHwRegToDwarfReg t reg = some dwarf) : (BitVec.ofNat 32 dwarf).toNat = dwarf := by
  have := monoHwRegToDwarfReg_lt entry
  have := t.numRegs_lt
  rw [BitVec.toNat_ofNat, Nat.mod_eq_of_lt (by omega)]

/-- Running the bytes of one op has the op's decoded effect and stops right after them. -/
theorem execUnwindOp_encodeUnwindOp {op : MonoUnwindOp} {body : List Byte}
    (entry : monoHwRegToDwarfReg t op.reg.toNat = some dwarf)
    (encoded : encodeUnwindOp t op dwarf = some body) (aligned : op.Aligned t)
    (p : List Byte) (pos : Int) (st : FrameState) : ∃ b tail, body = b :: tail ∧ execUnwindOp t b (tail ++ p) pos st
        = (decodedEffect t st op).map fun st => (p, pos, st) := by
  have number := toNat_ofNat_dwarf entry
  have mapBack : monoDwarfRegToHwReg t dwarf
      = if t.TableComplete then some op.reg.toNat else none := by
    split
    · next complete => exact monoDwarfRegToHwReg_of_hw complete entry
    · next incomplete => exact monoDwarfRegToHwReg_of_incomplete incomplete dwarf
  cases kind : op.op with
  | defCfa =>
    simp only [encodeUnwindOp, kind, Option.some.injEq] at encoded
    subst encoded
    refine ⟨_, _, rfl, ?_⟩
    simp only [execUnwindOp, execExtended, append_assoc, decodeUnsigned_encodeUnsigned]
    by_cases complete : t.TableComplete <;>
      simp [number, mapBack, decodedEffect, MonoUnwindOp.namesReg, MonoUnwindOp.extended,
        MonoUnwindOp.apply, kind, complete, decodeUnsigned_encodeUnsigned]
  | defCfaRegister =>
    simp only [encodeUnwindOp, kind, Option.some.injEq] at encoded
    subst encoded
    refine ⟨_, _, rfl, ?_⟩
    simp only [execUnwindOp, execExtended, decodeUnsigned_encodeUnsigned]
    by_cases complete : t.TableComplete <;>
      simp [number, mapBack, decodedEffect, MonoUnwindOp.namesReg, MonoUnwindOp.extended,
        MonoUnwindOp.apply, kind, complete]
  | defCfaOffset =>
    simp only [encodeUnwindOp, kind, Option.some.injEq] at encoded
    subst encoded
    refine ⟨_, _, rfl, ?_⟩
    simp [execUnwindOp, execExtended, decodeUnsigned_encodeUnsigned, decodedEffect,
      MonoUnwindOp.namesReg, MonoUnwindOp.extended, MonoUnwindOp.apply, kind]
  | offset =>
    by_cases large : 63 < dwarf
    · simp only [encodeUnwindOp, kind, large, if_true, Option.some.injEq] at encoded
      subst encoded
      refine ⟨_, _, rfl, ?_⟩
      simp only [execUnwindOp, execExtended, append_assoc, decodeUnsigned_encodeUnsigned]
      by_cases complete : t.TableComplete <;>
        simp [number, mapBack, decodedEffect, MonoUnwindOp.namesReg, MonoUnwindOp.extended,
          kind, complete, entry, large, decodeSigned_encodeSigned]
    · simp only [encodeUnwindOp, kind, large, if_false, Option.some.injEq] at encoded
      subst encoded
      refine ⟨_, _, rfl, ?_⟩
      have fields : ∀ d < 64, ((0x80 ||| BitVec.ofNat 8 d : Byte) &&& 0xc0).toNat = 0x80 ∧
          ((0x80 ||| BitVec.ofNat 8 d : Byte) &&& 0x3f).toNat = d := by
        decide
      obtain ⟨opcode, operand⟩ := fields dwarf (by omega)
      simp only [execUnwindOp, opcode, operand, decodeUnsigned_encodeUnsigned]
      by_cases complete : t.TableComplete <;>
        simp [mapBack, decodedEffect, MonoUnwindOp.namesReg, MonoUnwindOp.extended,
          MonoUnwindOp.apply, kind, complete, entry, large, factored_mul (aligned kind)]
  | sameValue => simp [encodeUnwindOp, kind] at encoded

/-! ### The loop

Advances are cut into pieces, so the location passes through values that no op has. It never passes the
offset before the op it leads to does, and a buffer of 4096 bytes keeps it far from overflow. -/

theorem emitAdvanceLoc_loc (fuel : Nat) :
    ∀ when loc, when - loc ≤ fuel → (emitAdvanceLoc fuel when loc).2 = max loc when := by
  induction fuel with
  | zero =>
    intro when loc enough
    simp only [emitAdvanceLoc]
    omega
  | succ fuel ih =>
    intro when loc enough
    simp only [emitAdvanceLoc]
    split
    · split
      · simp only
        omega
      · simp only
        rw [ih when (loc + 30) (by omega)]
        omega
    · simp only
      omega

theorem max_le_emitAdvanceLoc_length (fuel : Nat) : ∀ when loc, when - loc ≤ fuel →
      max loc when ≤ loc + 31 * (emitAdvanceLoc fuel when loc).1.length := by
  induction fuel with
  | zero =>
    intro when loc enough
    simp only [emitAdvanceLoc, length_nil]
    omega
  | succ fuel ih =>
    intro when loc enough
    simp only [emitAdvanceLoc]
    split
    · split
      · simp only [length_cons, length_nil]
        omega
      · have := ih when (loc + 30) (by omega)
        simp only [length_cons]
        omega
    · simp only [length_nil]
      omega

theorem when_le_encodeUnwindOps_length : ∀ {ops : List MonoUnwindOp} {loc : Nat} {bytes : List Byte},
      encodeUnwindOps t loc ops = some bytes → ∀ op ∈ ops, op.when.toNat ≤ loc + 31 * bytes.length
  | [], _, _, _ => by simp
  | head :: l, loc, bytes, encoded => by
      simp only [encodeUnwindOps, bind_eq_bind, bind_eq_some_iff, Option.pure_def,
        Option.some.injEq] at encoded
      obtain ⟨dwarf, _, body, _, rest, encodedRest, rfl⟩ := encoded
      have advance := max_le_emitAdvanceLoc_length (head.when.toNat - loc) head.when.toNat loc
        (Nat.le_refl _)
      rw [emitAdvanceLoc_loc _ _ _ (Nat.le_refl _)] at encodedRest
      intro op member
      simp only [length_append]
      rcases mem_cons.mp member with rfl | later
      · omega
      · have := when_le_encodeUnwindOps_length encodedRest op later
        omega

theorem unwindLoop_advanceByte {delta fuel pos : Nat}
    (small : delta < 64) (reached : pos ≤ limit) (range : pos + delta < 2 ^ 31) :
    unwindLoop t limit (fuel + 1) (advanceByte delta :: p) pos st
      = unwindLoop t limit fuel p ((pos + delta : Nat) : Int) st := by
  have noWrap : ((pos : Int) + delta).bmod (2 ^ 32) = ((pos + delta : Nat) : Int) := by
    rw [Int.bmod_eq_of_le] <;> push_cast <;> omega
  rw [unwindLoop, if_pos (by exact_mod_cast reached)]
  simp only [execUnwindOp_advance small, noWrap]
  rfl

/-- When the op ahead is within reach, the advances before it lead to its location. -/
theorem unwindLoop_emitAdvanceLoc (fuel : Nat) :
    ∀ when loc rounds, when - loc ≤ fuel → loc ≤ limit → when ≤ limit → loc < 2 ^ 31 → when < 2 ^ 31 →
        unwindLoop t limit (rounds + (emitAdvanceLoc fuel when loc).1.length)
            ((emitAdvanceLoc fuel when loc).1 ++ p) loc st = unwindLoop t limit rounds p (max loc when : Nat) st := by
  induction fuel with
  | zero =>
    intro when loc rounds enough _ _ _ _
    simp [emitAdvanceLoc, show max loc when = loc by omega]
  | succ fuel ih =>
    intro when loc rounds enough locReached whenReached locRange whenRange
    simp only [emitAdvanceLoc]
    split
    · next ahead =>
      split
      · next near =>
        simp only [length_cons, length_nil, cons_append, nil_append]
        rw [unwindLoop_advanceByte (by omega) locReached (by omega)]
        congr 2
        omega
      · next far =>
        simp only [length_cons, cons_append, ← Nat.add_assoc]
        rw [unwindLoop_advanceByte (by omega) locReached (by omega),
          ih when (loc + 30) rounds (by omega) (by omega) whenReached (by omega) whenRange]
        congr 2
        omega
    · simp [show max loc when = loc by omega]

theorem unwindLoop_past {fuel : Nat} {pos : Int}
    (more : 0 < fuel) (past : limit < pos) : unwindLoop t limit fuel p pos st = some st := by
  cases fuel with
  | zero => exact absurd more (Nat.lt_irrefl 0)
  | succ fuel =>
    exact if_neg (by omega)

/-- When the op ahead is past the limit, the run ends among the advances before it. -/
theorem unwindLoop_emitAdvanceLoc_past (fuel : Nat) : ∀ when loc rounds, when - loc ≤ fuel → limit < when → when < 2 ^ 31 →
      (emitAdvanceLoc fuel when loc).1.length < rounds →
        unwindLoop t limit rounds ((emitAdvanceLoc fuel when loc).1 ++ p) loc st = some st := by
  induction fuel with
  | zero =>
    intro when loc rounds enough past range more
    exact unwindLoop_past (by omega) (by omega)
  | succ fuel ih =>
    intro when loc rounds enough past range more
    obtain ⟨rounds, rfl⟩ := Nat.exists_eq_add_one_of_ne_zero (Nat.ne_zero_of_lt more)
    by_cases reached : loc ≤ limit
    · revert more
      simp only [emitAdvanceLoc, if_pos (Nat.lt_of_le_of_lt reached past)]
      split
      · next near =>
        simp only [length_cons, length_nil, cons_append, nil_append]
        intro more
        rw [unwindLoop_advanceByte (by omega) reached (by omega)]
        exact unwindLoop_past (by omega) (by omega)
      · next far =>
        simp only [length_cons, cons_append]
        intro more
        rw [unwindLoop_advanceByte (by omega) reached (by omega),
          ih when (loc + 30) rounds (by omega) past range (by omega)]
    · exact unwindLoop_past (Nat.succ_pos _) (by omega)

/-- Running encoded ops applies the decoded effects of those that are not past the limit. -/
theorem unwindLoop_encode : ∀ {ops : List MonoUnwindOp} {loc : Nat} {bytes : List Byte} {st : FrameState} {fuel : Nat},
      encodeUnwindOps t loc ops = some bytes →
      ops.Pairwise (fun a b => a.when.toNat ≤ b.when.toNat) →
      (∀ op ∈ ops, op.Aligned t) → (∀ op ∈ ops, op.when.toNat < 2 ^ 31) →
      loc < 2 ^ 31 → loc ≤ limit → bytes.length < fuel → unwindLoop t limit fuel bytes loc st
          = (executedOps ops limit).foldlM (decodedEffect t) st
  | [], loc, bytes, st, fuel, encoded, _, _, _, _, reached, enough => by
      cases encoded
      obtain ⟨fuel, rfl⟩ := Nat.exists_eq_add_one_of_ne_zero (Nat.ne_zero_of_lt enough)
      rw [unwindLoop, if_pos (by exact_mod_cast reached)]
      rfl
  | op :: l, loc, bytes, st, fuel, encoded, sorted, aligned, small, locSmall, reached, enough => by
      simp only [encodeUnwindOps, bind_eq_bind, bind_eq_some_iff, Option.pure_def,
        Option.some.injEq] at encoded
      obtain ⟨dwarf, entry, body, encodedBody, rest, encodedRest, rfl⟩ := encoded
      rw [emitAdvanceLoc_loc _ _ _ (Nat.le_refl _)] at encodedRest
      obtain ⟨opBefore, sortedRest⟩ := pairwise_cons.mp sorted
      have opSmall := small op mem_cons_self
      by_cases within : op.when.toNat ≤ limit
      · obtain ⟨b, tail, rfl, run⟩ :=
          execUnwindOp_encodeUnwindOp entry encodedBody (aligned op mem_cons_self) rest
            ((max loc op.when.toNat : Nat) : Int) st
        simp only [length_append, length_cons] at enough
        obtain ⟨extra, rfl⟩ := Nat.exists_eq_add_of_lt enough
        have split : (emitAdvanceLoc (op.when.toNat - loc) op.when.toNat loc).1.length
              + (tail.length + 1 + rest.length) + extra + 1
            = (tail.length + rest.length + extra + 1 + 1)
              + (emitAdvanceLoc (op.when.toNat - loc) op.when.toNat loc).1.length := by
          omega
        have executed : executedOps (op :: l) limit = op :: executedOps l limit := by
          simp [executedOps, within]
        rw [split, unwindLoop_emitAdvanceLoc _ _ _ _ (Nat.le_refl _) reached within locSmall opSmall,
          cons_append, unwindLoop,
          if_pos (by exact_mod_cast Nat.max_le.mpr ⟨reached, within⟩), executed]
        simp only [run, foldlM_cons]
        cases effect : decodedEffect t st op with
        | none => rfl
        | some st' =>
          exact unwindLoop_encode encodedRest sortedRest
            (fun op' later => aligned op' (mem_cons_of_mem _ later))
            (fun op' later => small op' (mem_cons_of_mem _ later))
            (by omega) (by omega) (by dsimp only; omega)
      · have executed : executedOps (op :: l) limit = [] := by
          simp only [executedOps, filter_eq_nil_iff, decide_eq_true_eq]
          intro op' member
          rcases mem_cons.mp member with rfl | later
          · exact within
          · have := opBefore op' later
            omega
        rw [executed, unwindLoop_emitAdvanceLoc_past _ _ _ _ (Nat.le_refl _) (by omega) opSmall]
        · rfl
        · simp only [length_append] at enough
          omega

/-- A list of ops in order of `when`, with factorable offsets, and the bytes it is encoded as. -/
structure EncodedOps (t : DwarfTarget) (ops : List MonoUnwindOp) (bytes : List Byte) : Prop where
  encoded : monoUnwindOpsEncode t ops = some bytes
  sorted : ops.Pairwise fun a b => a.when.toNat ≤ b.when.toNat
  aligned : ∀ op ∈ ops, op.Aligned t

/-- Unwinding to an offset applies, in order, the decoded effects of the ops up to it. -/
theorem unwindState_encode {ops : List MonoUnwindOp} (valid : EncodedOps t ops bytes) (offset : Nat) :
    unwindState t bytes offset = (executedOps ops offset).foldlM (decodedEffect t) FrameState.init := by
  obtain ⟨encoded, sorted, aligned⟩ := valid
  simp only [monoUnwindOpsEncode, bind_eq_bind, bind_eq_some_iff] at encoded
  obtain ⟨buf, run, fits⟩ := encoded
  split at fits
  · next short =>
    cases fits
    have small : ∀ op ∈ ops, op.when.toNat < 2 ^ 31 := by
      intro op member
      have := when_le_encodeUnwindOps_length run op member
      omega
    exact unwindLoop_encode run sorted aligned small (by decide) (Nat.zero_le _)
      (Nat.lt_succ_self _)
  · cases fits

/-! ### Agreement -/

/-- The bytes unwind to the frame the ops describe: the same rule for the CFA, the same saved registers
among the first `nregs`, at the same offsets from the CFA. -/
def UnwindAgrees (t : DwarfTarget) (bytes : List Byte) (ops : List MonoUnwindOp)
    (offset nregs : Nat) : Prop :=
  ∃ st, unwindState t bytes offset = some st ∧
    st.SameFrame nregs (interpretUnwindOps ops offset)

/-- The executed ops the decoder gets right: they name no register on a target with an incomplete table,
and save no register of the frame in the extended form. -/
def DecodableAt (t : DwarfTarget) (nregs : Nat) (op : MonoUnwindOp) : Prop :=
  (op.namesReg → t.TableComplete) ∧ (op.extended t → nregs ≤ op.reg.toNat)

instance (t : DwarfTarget) (nregs : Nat) (op : MonoUnwindOp) : Decidable (DecodableAt t nregs op) :=
  inferInstanceAs (Decidable (_ ∧ _))

theorem FrameState.SameFrame.refl (nregs : Nat) (st : FrameState) : st.SameFrame nregs st :=
  ⟨rfl, rfl, fun _ _ => rfl⟩

theorem FrameState.SameFrame.apply (same : st.SameFrame nregs other) (op : MonoUnwindOp) :
    (op.apply st).SameFrame nregs (op.apply other) := by
  obtain ⟨cfaReg, cfaOffset, locations⟩ := same
  cases kind : op.op <;> simp only [MonoUnwindOp.apply, kind]
  case defCfa => exact ⟨rfl, rfl, locations⟩
  case defCfaRegister => exact ⟨rfl, cfaOffset, locations⟩
  case defCfaOffset => exact ⟨cfaReg, rfl, locations⟩
  all_goals
    refine ⟨cfaReg, cfaOffset, fun reg small => ?_⟩
    by_cases here : reg = op.reg.toNat
    · simp [here]
    · simp [here, locations reg small]

theorem FrameState.SameFrame.skip {op : MonoUnwindOp} (same : st.SameFrame nregs other) (extended : op.extended t)
    (outside : nregs ≤ op.reg.toNat) : st.SameFrame nregs (op.apply other) := by
  obtain ⟨cfaReg, cfaOffset, locations⟩ := same
  have kind : op.op = .offset := by
    simp only [MonoUnwindOp.extended, Bool.and_eq_true, decide_eq_true_eq] at extended
    exact extended.1
  simp only [MonoUnwindOp.apply, kind]
  refine ⟨cfaReg, cfaOffset, fun reg small => ?_⟩
  have : reg ≠ op.reg.toNat := by omega
  simp [this, locations reg small]

theorem foldlM_decodedEffect_agrees : ∀ {ops : List MonoUnwindOp} {st other : FrameState}, st.SameFrame nregs other →
      (∀ op ∈ ops, DecodableAt t nregs op) → ∃ final, ops.foldlM (decodedEffect t) st = some final ∧
          final.SameFrame nregs (ops.foldl MonoUnwindOp.apply other)
  | [], st, _, same, _ => ⟨st, rfl, same⟩
  | op :: l, st, other, same, decodable => by
      obtain ⟨table, outside⟩ := decodable op mem_cons_self
      have decodableRest : ∀ op' ∈ l, DecodableAt t nregs op' :=
        fun op' later => decodable op' (mem_cons_of_mem _ later)
      have notAborted : ¬ (op.namesReg ∧ ¬ t.TableComplete) :=
        fun aborted => aborted.2 (table aborted.1)
      by_cases extended : op.extended t
      · have effect : decodedEffect t st op = some st := by
          rw [decodedEffect, if_neg notAborted, if_pos extended]
        obtain ⟨final, run, agrees⟩ :=
          foldlM_decodedEffect_agrees (same.skip extended (outside extended)) decodableRest
        exact ⟨final, by rw [foldlM_cons, effect]; exact run, agrees⟩
      · have effect : decodedEffect t st op = some (op.apply st) := by
          rw [decodedEffect, if_neg notAborted, if_neg extended]
        obtain ⟨final, run, agrees⟩ :=
          foldlM_decodedEffect_agrees (same.apply op) decodableRest
        exact ⟨final, by rw [foldlM_cons, effect]; exact run, agrees⟩

/-- A run that does not abort names no register on a target with an incomplete table. -/
theorem tableComplete_of_foldlM : ∀ {ops : List MonoUnwindOp} {st final : FrameState},
      ops.foldlM (decodedEffect t) st = some final → ∀ op ∈ ops, op.namesReg → t.TableComplete
  | [], _, _, _ => by simp
  | head :: l, st, final, run => by
      rw [foldlM_cons, bind_eq_bind, bind_eq_some_iff] at run
      obtain ⟨next, effect, runRest⟩ := run
      intro op member names
      rcases mem_cons.mp member with rfl | later
      · by_contra incomplete
        rw [decodedEffect, if_pos ⟨names, incomplete⟩] at effect
        cases effect
      · exact tableComplete_of_foldlM runRest op later names

/-- No decoded op ever saves a register whose DWARF number needs the extended form. -/
theorem locations_of_foldlM (large : ∀ op : MonoUnwindOp, op.reg.toNat = reg →
      op.op = .offset → op.extended t) : ∀ {ops : List MonoUnwindOp} {st final : FrameState},
      ops.foldlM (decodedEffect t) st = some final → st.locations reg = none → final.locations reg = none
  | [], st, final, run, start => by
      cases run
      exact start
  | head :: l, st, final, run, start => by
      rw [foldlM_cons, bind_eq_bind, bind_eq_some_iff] at run
      obtain ⟨next, effect, runRest⟩ := run
      refine locations_of_foldlM large runRest ?_
      rw [decodedEffect] at effect
      split at effect
      · cases effect
      split at effect
      · cases effect
        exact start
      next notExtended =>
        cases effect
        cases kind : head.op <;> simp only [MonoUnwindOp.apply, kind]
        case offset =>
          have : reg ≠ head.reg.toNat := fun same => notExtended (large head same.symm kind)
          simp [this, start]
        case sameValue => by_cases here : reg = head.reg.toNat <;> simp [here, start]
        all_goals exact start

/-- Read directly, a register with an executed `DW_CFA_offset` stays saved: no encodable op undoes it. -/
theorem locations_of_foldl : ∀ (ops : List MonoUnwindOp) (st : FrameState), (∀ op ∈ ops, op.op ≠ .sameValue) →
      ((∃ op ∈ ops, op.op = .offset ∧ op.reg.toNat = reg) ∨ st.locations reg ≠ none) →
        (ops.foldl MonoUnwindOp.apply st).locations reg ≠ none
  | [], st, _, saved => by simpa using saved
  | head :: l, st, plain, saved => by
      refine locations_of_foldl l (head.apply st)
        (fun op later => plain op (mem_cons_of_mem _ later)) ?_
      rcases saved with ⟨op, member, kind, here⟩ | before
      · rcases mem_cons.mp member with rfl | later
        · exact Or.inr (by simp [MonoUnwindOp.apply, kind, here])
        · exact Or.inl ⟨op, later, kind, here⟩
      · refine Or.inr ?_
        cases kind : head.op <;> simp only [MonoUnwindOp.apply, kind]
        case offset =>
          by_cases here : reg = head.reg.toNat
          · simp [← here]
          · simpa [here] using before
        case sameValue => exact absurd kind (plain head mem_cons_self)
        all_goals exact before

theorem encodable_of_encodeUnwindOps : ∀ {ops : List MonoUnwindOp} {loc : Nat} {bytes : List Byte},
      encodeUnwindOps t loc ops = some bytes → ∀ op ∈ ops, op.op ≠ .sameValue
  | [], _, _, _ => by simp
  | head :: l, loc, bytes, encoded => by
      simp only [encodeUnwindOps, bind_eq_bind, bind_eq_some_iff] at encoded
      obtain ⟨dwarf, _, body, encodedBody, rest, encodedRest, _⟩ := encoded
      intro op member
      rcases mem_cons.mp member with rfl | later
      · intro kind
        simp [encodeUnwindOp, kind] at encodedBody
      · exact encodable_of_encodeUnwindOps encodedRest op later

/-- For any target, any encodable list of ops in order of `when` with factorable offsets, and any
instruction offset: unwinding by the encoded bytes agrees with reading the ops directly exactly when
every executed op is decodable. -/
theorem monoUnwindFrame_agrees_iff {ops : List MonoUnwindOp} {bytes : List Byte}
    (valid : EncodedOps t ops bytes) (offset nregs : Nat) :
    UnwindAgrees t bytes ops offset nregs ↔
      ∀ op ∈ executedOps ops offset, DecodableAt t nregs op := by
  have run := unwindState_encode valid offset
  have plain : ∀ op ∈ ops, op.op ≠ .sameValue := by
    have encoded := valid.encoded
    simp only [monoUnwindOpsEncode, bind_eq_bind, bind_eq_some_iff] at encoded
    obtain ⟨buf, run, _⟩ := encoded
    exact encodable_of_encodeUnwindOps run
  rw [UnwindAgrees, run]
  constructor
  · rintro ⟨final, folded, _, _, locations⟩ op member
    refine ⟨tableComplete_of_foldlM folded op member, fun extended => ?_⟩
    by_contra inFrame
    have kind : op.op = .offset ∧
        (monoHwRegToDwarfReg t op.reg.toNat).any (63 < ·) := by
      simpa only [MonoUnwindOp.extended, Bool.and_eq_true, decide_eq_true_eq] using extended
    have large : ∀ other : MonoUnwindOp, other.reg.toNat = op.reg.toNat → other.op = .offset →
        other.extended t := by
      intro other same otherKind
      simp only [MonoUnwindOp.extended, otherKind, same, kind.2, decide_true, Bool.and_self]
    have lost := locations_of_foldlM large folded rfl
    have kept := locations_of_foldl _ FrameState.init
      (fun other executed => plain other (mem_of_mem_filter executed))
      (Or.inl ⟨op, member, kind.1, rfl⟩)
    exact kept ((locations op.reg.toNat (by omega)).symm.trans lost)
  · intro decodable
    exact foldlM_decodedEffect_agrees (FrameState.SameFrame.refl nregs _) decodable

theorem FrameState.SameFrame.restore_eq {w : Nat} {regs : List (BitVec w)}
    (same : st.SameFrame regs.length other) (mem : BitVec w → BitVec w) :
    st.restore regs mem = other.restore regs mem := by
  obtain ⟨cfaReg, cfaOffset, locations⟩ := same
  have registers : ∀ cfaVal : BitVec w,
      st.loadRegs cfaVal regs mem = other.loadRegs cfaVal regs mem := by
    intro cfaVal
    apply ext_getElem
    · simp [FrameState.loadRegs]
    · intro i small _
      have inFrame : i < regs.length := by simpa [FrameState.loadRegs] using small
      simp only [FrameState.loadRegs, getElem_mapIdx, locations i inFrame]
  simp only [FrameState.restore, cfaReg, cfaOffset, registers]

/-! ### Lost registers

The prologue of a PowerPC method saves `ppc_lr`. Its ops can be encoded, but the decoder aborts at the
first register it has to map back. A target with a complete table that reaches beyond number 63 does not
abort, and loses the register. -/

/-- CFA in `r1`, then `reg` saved at offset 8 after the instruction that ends at 8. -/
def saveOps (reg : BitVec 16) : List MonoUnwindOp :=
  [{ op := .defCfa, reg := 1, val := 0, when := 0 },
    { op := .offset, reg := reg, val := 8, when := 8 }]

theorem saveOps_encodes {reg : BitVec 16} (divides : t.dwarfDataAlign ∣ 8)
    (encoded : monoUnwindOpsEncode t (saveOps reg) = some bytes) : EncodedOps t (saveOps reg) bytes := by
  refine ⟨encoded, by simp [saveOps], fun op member => ?_⟩
  simp only [saveOps, mem_cons, not_mem_nil, or_false] at member
  rcases member with rfl | rfl
  · intro kind
    cases kind
  · intro _
    exact divides

theorem saveOps_powerpc : EncodedOps powerpc (saveOps 256) [0x0c, 1, 0, 0x48, 0x11, 108, 0x7e] :=
  saveOps_encodes (by decide) (by decide)

theorem saveOps_wide : EncodedOps wideTarget (saveOps 64) [0x0c, 1, 0, 0x48, 0x11, 64, 0x7f] :=
  saveOps_encodes (by decide) (by decide)

/-- Encoded unwind info does not describe the frame on PowerPC, nor on a target with a register above
63. -/
theorem monoUnwindFrame_loses_register :
    (EncodedOps powerpc (saveOps 256) [0x0c, 1, 0, 0x48, 0x11, 108, 0x7e] ∧
      ¬ UnwindAgrees powerpc [0x0c, 1, 0, 0x48, 0x11, 108, 0x7e] (saveOps 256) 8 32) ∧
    (EncodedOps wideTarget (saveOps 64) [0x0c, 1, 0, 0x48, 0x11, 64, 0x7f] ∧
      ¬ UnwindAgrees wideTarget [0x0c, 1, 0, 0x48, 0x11, 64, 0x7f] (saveOps 64) 8 65) := by
  refine ⟨⟨saveOps_powerpc, ?_⟩, ⟨saveOps_wide, ?_⟩⟩
  · rintro ⟨st, run, _⟩
    have aborts : unwindState powerpc [0x0c, 1, 0, 0x48, 0x11, 108, 0x7e] 8 = none := by
      rw [unwindState_encode saveOps_powerpc]
      rfl
    cases run
  · rintro ⟨st, run, _, _, locations⟩
    have lost : (unwindState wideTarget [0x0c, 1, 0, 0x48, 0x11, 64, 0x7f] 8).bind
        (·.locations 64) = none := by
      rw [unwindState_encode saveOps_wide]
      rfl
    rw [run] at lost
    have kept := (locations 64 (by decide)).symm.trans lost
    cases kept

/-- On amd64 a return address saved next to the CFA is found. -/
theorem monoUnwindFrame_agrees_amd64 :
    UnwindAgrees amd64 [0x0c, 2, 0, 0x48, 0x90, 0xff, 0xff, 0xff, 0xff, 0x0f] (saveOps 16) 8 17 :=
  (monoUnwindFrame_agrees_iff (saveOps_encodes (by decide) (by decide)) 8 17).mpr (by decide)

end MonoRuntime.Unwind
