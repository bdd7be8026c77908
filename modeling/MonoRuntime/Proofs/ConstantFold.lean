/-
Module: MonoRuntime.Proofs.ConstantFold
Purpose: Where the constants that `mono_constant_fold_ins` keeps in eight bytes agree with the CLI. The low words of
  sums, products and the like always do. A right shift that is not cast reads the high word, a count that is not cast
  may be out of range, and the guard of the divisions compares all eight bytes, so that the compiler itself may have
  to divide by zero.
Trusted boundary: none (fully proved)
Main exports: foldCode_agrees
-/
import MonoRuntime.Mini.ConstantFold
import MonoRuntime.Proofs.StrengthReduction

namespace MonoRuntime.ConstantFold

open Option
open LocalCprop (low minInt32 low_mul low_signExtend)

/-! ### Low words -/

section Words

variable {a b : BitVec 64} {k : Nat}

theorem low_add : low (a + b) = low a + low b :=
  BitVec.setWidth_add a b (by decide)

theorem low_neg : low (-a) = -low a :=
  BitVec.setWidth_neg_of_le (by decide)

theorem low_sub : low (a - b) = low a - low b := by
  rw [BitVec.sub_eq_add_neg, low_add, low_neg, BitVec.sub_eq_add_neg]

theorem low_not : low (~~~ a) = ~~~ low a :=
  BitVec.setWidth_not (by decide)

theorem low_guint32 (x : BitVec 32) : low (guint32 x) = x := by
  unfold low guint32
  rw [BitVec.setWidth_setWidth_of_le x (by decide), BitVec.setWidth_eq]

theorem low_gint32 (x : BitVec 32) : low (gint32 x) = x :=
  low_signExtend

theorem low_gboolean (res : Bool) : low (gboolean res) = if res then 1 else 0 := by
  cases res with
  | true | false => rfl

theorem low_shiftLeft : low (a <<< k) = low a <<< k := by
  apply BitVec.eq_of_getLsbD_eq
  intro i inside
  simp only [low, BitVec.getLsbD_setWidth, BitVec.getLsbD_shiftLeft, inside, decide_true, Bool.true_and,
    show i < 64 by omega]
  by_cases lower : i < k
  · simp [lower]
  · simp [lower, show i - k < 32 by omega]

/-- The bits above the sign of the low word that a shift brings into it. -/
def SignFits (a : BitVec 64) (k : Nat) : Prop :=
  ∀ i < k, a.getLsbD (32 + i) = a.getLsbD 31

/-- A right shift of eight bytes shifts the low word exactly if the bits that come in are its sign. -/
theorem low_sshiftRight_iff (small : k < 32) : low (a.sshiftRight k) = (low a).sshiftRight k ↔ SignFits a k := by
  have bits : ∀ i < 32, (low (a.sshiftRight k)).getLsbD i = a.getLsbD (k + i) := by
    intro i inside
    rw [low, BitVec.getLsbD_setWidth, BitVec.getLsbD_sshiftRight, if_pos (show k + i < 64 by omega)]
    simp [inside, show ¬ 64 ≤ i by omega]
  have wordBits : ∀ i < 32, ((low a).sshiftRight k).getLsbD i =
      if k + i < 32 then a.getLsbD (k + i) else a.getLsbD 31 := by
    intro i inside
    rw [BitVec.getLsbD_sshiftRight]
    by_cases lower : k + i < 32
    · simp [low, inside, lower]
    · simp [low, inside, lower, BitVec.msb_eq_getLsbD_last]
  constructor
  · intro same i lower
    have bit := congrArg (fun word => word.getLsbD (32 + i - k)) same
    simp only [bits (32 + i - k) (by omega), wordBits (32 + i - k) (by omega),
      if_neg (show ¬ k + (32 + i - k) < 32 by omega)] at bit
    rwa [show k + (32 + i - k) = 32 + i by omega] at bit
  · intro fits
    apply BitVec.eq_of_getLsbD_eq
    intro i inside
    rw [bits i inside, wordBits i inside]
    split
    next => rfl
    next upper =>
      have bit := fits (k + i - 32) (by omega)
      rwa [show 32 + (k + i - 32) = k + i by omega] at bit

end Words

/-! ### One operation -/

section Operations

variable {op : IntOp} {a b : BitVec 64}

/-- The constant is what the CLI computes, as far as that is said. -/
def Represents (c : BitVec 64) : Event → Prop
  | .value v => ∀ x ∈ v, low c = x
  | _ => False

/-- A count that C shifts by, if the CLI does. -/
def CountFits (b : BitVec 64) : Prop :=
  (low b).toNat < 32 → b.toNat < 64

/-- Where the fold of two registers is right. -/
def IntOp.Safe (a b : BitVec 64) : IntOp → Prop
  | .ishl => CountFits b
  | .ishr => CountFits b ∧ ((low b).toNat < 32 → SignFits a (low b).toNat)
  | .idiv | .irem => ¬ (low b = 0 ∨ low a = minInt32 ∧ low b = -1)
  | .idivUn | .iremUn => low b ≠ 0
  | _ => True

/-- Where the fold of a register and an immediate is right: the shifts are cast there. -/
def IntOp.SafeImm (a imm : BitVec 64) : IntOp → Prop
  | .ishl | .ishr => True
  | op => op.Safe a imm

theorem toNat_low (small : b.toNat < 64) : (low b).toNat = b.toNat := by
  exact Nat.mod_eq_of_lt (by omega)

theorem represents_const {c : BitVec 64} {x : BitVec 32} : Represents c (.value (some x)) ↔ low c = x := by
  simp [Represents]

theorem represents_cliShift {c : BitVec 64} {count x : BitVec 32} :
    Represents c (cliShift count x) ↔ (count.toNat < 32 → low c = x) := by
  unfold cliShift
  by_cases small : count.toNat < 32
  · simp [small, represents_const]
  · simp [small, Represents]

/-- A shift that is not cast, whatever C leaves when the count is out of range. -/
theorem shifted_iff {result : BitVec 64} {x : BitVec 32} : (∀ undef : BitVec 64 → BitVec 64 → BitVec 64,
      Represents (shifted (undef a b) 64 b.toNat result) (cliShift (low b) x)) ↔
        CountFits b ∧ ((low b).toNat < 32 → low result = x) := by
  simp only [represents_cliShift, CountFits, shifted]
  constructor
  · intro all
    have fits : (low b).toNat < 32 → b.toNat < 64 := by
      intro small
      by_contra out
      have wrong := all (fun _ _ => gint32 (~~~ x)) small
      rw [if_neg out, low_gint32] at wrong
      have bit := congrArg (fun word => word.getLsbD 0) wrong
      simp at bit
    refine ⟨fits, fun small => ?_⟩
    have right := all (fun _ _ => 0) small
    rwa [if_pos (fits small)] at right
  · rintro ⟨fits, same⟩ undef small
    rw [if_pos (fits small)]
    exact same small

theorem shifted_cast {undef result : BitVec 64} {x : BitVec 32} (same : low result = x) :
    Represents (shifted undef 32 (low b).toNat result) (cliShift (low b) x) := by
  rw [represents_cliShift]
  intro small
  rw [shifted, if_pos small, same]

theorem signedDivision_iff {divide : BitVec 32 → BitVec 32 → BitVec 32} : (∃ c, signedDivision divide a b = some c ∧
      Represents c (cliSignedDivision (low a) (low b) (divide (low a) (low b)))) ↔
      ¬ (low b = 0 ∨ low a = minInt32 ∧ low b = -1) := by
  unfold signedDivision cliSignedDivision
  by_cases traps : low b = 0 ∨ low a = minInt32 ∧ low b = -1
  · rw [if_pos traps]
    exact iff_of_false (fun ⟨_, is, _⟩ => nomatch is) (not_not.mpr traps)
  · simp only [traps, if_false, Option.some.injEq, exists_eq_left', represents_const, low_gint32, not_false_eq_true]

theorem unsignedDivision_iff {divide : BitVec 32 → BitVec 32 → BitVec 32} :
    (∃ c, unsignedDivision divide a b = some c ∧ Represents c (cliUnsignedDivision (low b) (divide (low a) (low b)))) ↔
      low b ≠ 0 := by
  unfold unsignedDivision cliUnsignedDivision
  by_cases traps : low b = 0
  · rw [if_pos traps]
    exact iff_of_false (fun ⟨_, is, _⟩ => nomatch is) (not_not.mpr traps)
  · simp only [traps, if_false, Option.some.injEq, exists_eq_left', represents_const, low_guint32, ne_eq,
      not_false_eq_true]

/-- The fold of two registers leaves what the CLI computes, whatever C leaves open, exactly where it is safe. -/
theorem foldBinop_iff :
    (∀ undef, ∃ c, foldBinop undef a b op = some c ∧ Represents c (op.compute (low a) (low b))) ↔ op.Safe a b := by
  cases op with
  | imul => simp [foldBinop, IntOp.compute, IntOp.Safe, represents_const, low_mul]
  | iadd => simp [foldBinop, IntOp.compute, IntOp.Safe, represents_const, low_add]
  | iand | ior | ixor => simp [foldBinop, IntOp.compute, IntOp.Safe, represents_const, low]
  | isub => simp [foldBinop, IntOp.compute, IntOp.Safe, represents_const, low_sub]
  | ishl =>
    have right : CountFits b → (low b).toNat < 32 → low (a <<< b.toNat) = low a <<< (low b).toNat := by
      intro fits small
      rw [low_shiftLeft, toNat_low (fits small)]
    simp only [foldBinop, IntOp.compute, IntOp.Safe, Option.some.injEq, exists_eq_left', shifted_iff]
    exact and_iff_left_of_imp right
  | ishr =>
    have right : CountFits b →
        (((low b).toNat < 32 → low (a.sshiftRight b.toNat) = (low a).sshiftRight (low b).toNat) ↔
          ((low b).toNat < 32 → SignFits a (low b).toNat)) := by
      intro fits
      refine forall_congr' fun small => ?_
      rw [← toNat_low (fits small)]
      exact low_sshiftRight_iff small
    simp only [foldBinop, IntOp.compute, IntOp.Safe, Option.some.injEq, exists_eq_left', shifted_iff]
    exact and_congr_right right
  | ishrUn =>
    simp only [foldBinop, IntOp.compute, IntOp.Safe, Option.some.injEq, exists_eq_left', iff_true]
    exact fun undef => shifted_cast (low_guint32 _)
  | idiv | irem => exact (forall_const _).trans signedDivision_iff
  | idivUn | iremUn => exact (forall_const _).trans unsignedDivision_iff

theorem foldBinopImm_eq (undef : BitVec 64 → BitVec 64 → BitVec 64) (left : op ≠ .ishl) (right : op ≠ .ishr) :
    foldBinopImm undef a b op = foldBinop undef a b op ∧ (op.SafeImm a b ↔ op.Safe a b) := by
  cases op with
  | ishl => exact absurd rfl left
  | ishr => exact absurd rfl right
  | _ => exact ⟨rfl, Iff.rfl⟩

/-- The fold of a register and an immediate leaves what the CLI computes, whatever C leaves open, exactly where it is
safe. -/
theorem foldBinopImm_iff :
    (∀ undef, ∃ c, foldBinopImm undef a b op = some c ∧ Represents c (op.compute (low a) (low b))) ↔ op.SafeImm a b := by
  by_cases left : op = .ishl
  · subst left
    simp only [foldBinopImm, IntOp.compute, IntOp.SafeImm, Option.some.injEq, exists_eq_left', iff_true]
    exact fun undef => shifted_cast (low_gint32 _)
  by_cases right : op = .ishr
  · subst right
    simp only [foldBinopImm, IntOp.compute, IntOp.SafeImm, Option.some.injEq, exists_eq_left', iff_true]
    exact fun undef => shifted_cast (low_gint32 _)
  simp only [(foldBinopImm_eq _ left right).1, (foldBinopImm_eq (fun _ b => b) left right).2]
  exact foldBinop_iff

end Operations

/-! ### One instruction -/

/-- What is folded agrees with what the instruction does at run time: a constant has the value, and a branch that is
decided goes the same way. Nothing becomes a constant that leaves no value. -/
def Agrees (ins : MonoInst) : Event → Prop
  | .value v => ins.opcode = .iconst → ∀ x ∈ v, low ins.instC0 = x
  | .outcome taken =>
      ins.opcode ≠ .iconst ∧ ∀ b ∈ taken, (ins.cfoldTaken = true → b = true) ∧ (ins.cfoldNotTaken = true → b = false)
  | .silent => ins.opcode ≠ .iconst
  | .raised => ins.opcode ≠ .iconst
  | .unreached => True

/-- The constant that defines a register. -/
def Defs.const (defs : Defs) (r : Int) : Option (BitVec 64) :=
  (defs r).bind fun def_ => if def_.opcode = .iconst then some def_.instC0 else none

/-- Where the fold of an instruction is right, with the constants that are known before it. -/
def SafeStep (defs : Defs) (ins : MonoInst) : Prop :=
  match ins.opcode with
  | .reg op =>
      ∀ a ∈ defs.const ins.sreg1, ∀ b ∈ defs.const ins.sreg2, op.isDivision ∧ NotDivided a b ∨ op.Safe a b
  | .imm op => ∀ a ∈ defs.const ins.sreg1, op.isDivision ∧ NotDivided a ins.instImm ∨ op.SafeImm a ins.instImm
  | .shlImm => ∀ a ∈ defs.const ins.sreg1, IntOp.ishl.Safe a ins.instImm
  | _ => True

/-- What an instruction does, if it is reached. -/
def eventOf (m : Option Machine) (ins : MonoInst) : Event :=
  match m with
  | none => .unreached
  | some m => m.event ins

/-- The machine after an instruction, if it was reached. -/
def afterOf (m : Option Machine) (ins : MonoInst) : Option Machine :=
  m.bind fun m => m.after ins

/-- A constant that is known is in the register, as far as the CLI says what is there. -/
structure Known (defs : Defs) (m : Option Machine) : Prop where
  noReg : defs (-1) = none
  holds : ∀ m' ∈ m, ∀ r, ∀ c ∈ defs.const r, ∀ x ∈ m'.regs r, low c = x

section Values

variable {undef : BitVec 64 → BitVec 64 → BitVec 64} {defs : Defs} {m : Option Machine} {ins : MonoInst}
  {next : List MonoInst} {op : IntOp} {a b c : BitVec 64}

theorem agrees_of_represents {e : Event} (represents : Represents c e) (is : ins.instC0 = c) : Agrees ins e := by
  subst is
  cases e with
  | value v => exact fun _ => represents
  | outcome taken | silent | raised => exact represents.elim
  | unreached => trivial

theorem agrees_computeOpen {x y : Option (BitVec 32)} (left : ∀ v ∈ x, low a = v) (right : ∀ v ∈ y, low b = v)
    (represents : Represents c (op.compute (low a) (low b))) (is : ins.instC0 = c) : Agrees ins (op.computeOpen x y) := by
  cases x with
  | none => exact fun _ v member => nomatch member
  | some x =>
    cases y with
    | none => exact fun _ v member => nomatch member
    | some y =>
      rw [left x rfl, right y rfl] at represents
      exact agrees_of_represents represents is

/-- An instruction that leaves a value or raises an exception. -/
def Event.LeavesValue : Event → Prop
  | .value _ | .raised => True
  | _ => False

theorem computeOpen_leavesValue (op : IntOp) (x y : Option (BitVec 32)) : (op.computeOpen x y).LeavesValue := by
  cases x with
  | none => trivial
  | some x =>
    cases y with
    | none => trivial
    | some y =>
      cases op <;> simp only [IntOp.computeOpen, IntOp.compute, cliSignedDivision, cliUnsignedDivision] <;>
        first | trivial | (split <;> trivial)

theorem agrees_of_ne {e : Event} (leaves : e.LeavesValue) (notConst : ins.opcode ≠ .iconst) : Agrees ins e := by
  cases e with
  | value v => exact fun is => absurd is notConst
  | outcome taken | silent => exact leaves.elim
  | raised => exact notConst
  | unreached => trivial

/-- An instruction that leaves a value is folded, or not, and those behind it stay. -/
structure FoldsValue (m : Option Machine) (ins : MonoInst) (next : List MonoInst) (result : FoldResult) : Prop where
  next : result.next = next
  dreg : result.ins.dreg = ins.dreg
  agrees : Agrees result.ins (eventOf m ins)

theorem foldsValue_of_ne {result : FoldResult} (leaves : ∀ m : Machine, (m.event ins).LeavesValue)
    (sameNext : result.next = next) (sameDreg : result.ins.dreg = ins.dreg) (notConst : result.ins.opcode ≠ .iconst) :
    FoldsValue m ins next result where
  next := sameNext
  dreg := sameDreg
  agrees := by
    cases m with
    | none => trivial
    | some m => exact agrees_of_ne (leaves m) notConst

theorem foldsValue_store (agrees : ∀ m' ∈ m, ∀ {stored : MonoInst}, stored.instC0 = c → Agrees stored (m'.event ins)) :
    FoldsValue m ins next (storeConst true ins next c) where
  next := rfl
  dreg := rfl
  agrees := by
    cases m with
    | none => trivial
    | some m => exact agrees m rfl rfl

theorem const_eq {r : Int} {def_ : MonoInst} (is : defs r = some def_) (isConst : def_.opcode = .iconst) :
    defs.const r = some def_.instC0 := by
  simp [Defs.const, is, isConst]

theorem foldStep_reg (known : Known defs m) (opcode : ins.opcode = .reg op) (operand : ins.sreg2 ≠ -1)
    (safe : SafeStep defs ins) : ∃ result, foldStep undef defs ins next = some result ∧ FoldsValue m ins next result := by
  have leaves : ∀ m : Machine, (m.event ins).LeavesValue := by
    intro m
    simp only [Machine.event, opcode]
    exact computeOpen_leavesValue op _ _
  have notConst : ins.opcode ≠ .iconst := by simp [opcode]
  unfold foldStep
  cases first : defs ins.sreg1 with
  | none => exact ⟨_, rfl, foldsValue_of_ne leaves rfl rfl notConst⟩
  | some arg1 =>
    simp only [if_neg operand]
    cases second : defs ins.sreg2 with
    | none => exact ⟨_, rfl, foldsValue_of_ne leaves rfl rfl notConst⟩
    | some arg2 =>
      simp only [monoConstantFoldIns, opcode, bind_some, foldReg]
      by_cases isConst1 : arg1.opcode = .iconst
      · by_cases isConst2 : arg2.opcode = .iconst
        · simp only [isConst1, isConst2, or_true, and_self, if_true]
          have safe' := safe
          simp only [SafeStep, opcode] at safe'
          have known1 := const_eq first isConst1
          have known2 := const_eq second isConst2
          rcases safe' _ known1 _ known2 with guarded | isSafe
          · exact ⟨_, if_pos guarded, foldsValue_of_ne leaves rfl rfl notConst⟩
          · by_cases guarded : op.isDivision ∧ NotDivided arg1.instC0 arg2.instC0
            · exact ⟨_, if_pos guarded, foldsValue_of_ne leaves rfl rfl notConst⟩
            · obtain ⟨c, folded, represents⟩ := foldBinop_iff.mpr isSafe undef
              refine ⟨_, (if_neg guarded).trans (by rw [folded]; rfl), foldsValue_store fun m' isM stored is => ?_⟩
              simp only [Machine.event, opcode]
              exact agrees_computeOpen (known.holds m' isM _ _ known1) (known.holds m' isM _ _ known2) represents is
        · simp only [isConst1, isConst2, or_true, and_false, and_true, if_true, if_false]
          split
          · refine ⟨_, rfl, foldsValue_of_ne leaves ?_ ?_ ?_⟩
            all_goals simp [swapArgs, opcode, monoOpToOpImm, returnStored, allocDest]
          · exact ⟨_, rfl, foldsValue_of_ne leaves rfl rfl notConst⟩
      · simp only [isConst1, or_false, false_and, and_false, if_false]
        split
        · exact ⟨_, rfl, foldsValue_of_ne leaves rfl rfl notConst⟩
        · exact ⟨_, rfl, foldsValue_of_ne leaves rfl rfl notConst⟩

theorem foldStep_imm (known : Known defs m) (opcode : ins.opcode = .imm op) (operand : ins.sreg2 = -1)
    (safe : SafeStep defs ins) : ∃ result, foldStep undef defs ins next = some result ∧ FoldsValue m ins next result := by
  have leaves : ∀ m : Machine, (m.event ins).LeavesValue := by
    intro m
    simp only [Machine.event, opcode]
    exact computeOpen_leavesValue op _ _
  have notConst : ins.opcode ≠ .iconst := by simp [opcode]
  unfold foldStep
  cases first : defs ins.sreg1 with
  | none => exact ⟨_, rfl, foldsValue_of_ne leaves rfl rfl notConst⟩
  | some arg1 =>
    simp only [if_pos operand, monoConstantFoldIns, opcode, foldImm]
    by_cases isConst : arg1.opcode = .iconst
    · simp only [isConst, if_true]
      simp only [SafeStep, opcode] at safe
      have isKnown := const_eq first isConst
      by_cases guarded : op.isDivision ∧ NotDivided arg1.instC0 ins.instImm
      · exact ⟨_, if_pos guarded, foldsValue_of_ne leaves rfl rfl notConst⟩
      · have isSafe := (safe _ isKnown).resolve_left guarded
        obtain ⟨c, folded, represents⟩ := foldBinopImm_iff.mpr isSafe undef
        refine ⟨_, (if_neg guarded).trans (by rw [folded]; rfl), foldsValue_store fun m' isM stored is => ?_⟩
        simp only [Machine.event, opcode]
        exact agrees_computeOpen (known.holds m' isM _ _ isKnown) (by simp) represents is
    · simp only [isConst, if_false]
      exact ⟨_, rfl, foldsValue_of_ne leaves rfl rfl notConst⟩

theorem foldStep_shlImm (known : Known defs m) (opcode : ins.opcode = .shlImm) (operand : ins.sreg2 = -1)
    (safe : SafeStep defs ins) : ∃ result, foldStep undef defs ins next = some result ∧ FoldsValue m ins next result := by
  have leaves : ∀ m : Machine, (m.event ins).LeavesValue := by
    intro m
    simp only [Machine.event, opcode]
    exact computeOpen_leavesValue .ishl _ _
  have notConst : ins.opcode ≠ .iconst := by simp [opcode]
  unfold foldStep
  cases first : defs ins.sreg1 with
  | none => exact ⟨_, rfl, foldsValue_of_ne leaves rfl rfl notConst⟩
  | some arg1 =>
    simp only [if_pos operand, monoConstantFoldIns, opcode]
    by_cases isConst : arg1.opcode = .iconst
    · simp only [isConst, if_true]
      simp only [SafeStep, opcode] at safe
      have isKnown := const_eq first isConst
      obtain ⟨c, folded, represents⟩ := foldBinop_iff.mpr (safe _ isKnown) undef
      cases folded
      refine ⟨_, rfl, foldsValue_store fun m' isM stored is => ?_⟩
      simp only [Machine.event, opcode]
      exact agrees_computeOpen (known.holds m' isM _ _ isKnown) (by simp) represents is
    · simp only [isConst, if_false]
      exact ⟨_, rfl, foldsValue_of_ne leaves rfl rfl notConst⟩

/-- What an operation with one operand leaves, where the operand is that of the fold. -/
theorem agrees_map {f : BitVec 32 → BitVec 32} {x : Option (BitVec 32)} (operand : ∀ v ∈ x, low a = v)
    (same : low c = f (low a)) (is : ins.instC0 = c) : Agrees ins (.value (x.map f)) := by
  intro _ v member
  obtain ⟨w, isX, rfl⟩ := mem_map.mp member
  rw [is, same, operand w isX]

theorem foldStep_unop (known : Known defs m) (opcode : ins.opcode = .inot ∨ ins.opcode = .ineg ∨ ins.opcode = .move)
    (operand : ins.sreg2 = -1) : ∃ result, foldStep undef defs ins next = some result ∧ FoldsValue m ins next result := by
  have leaves : ∀ m : Machine, (m.event ins).LeavesValue := by
    intro m
    rcases opcode with opcode | opcode | opcode <;> simp only [Machine.event, opcode] <;> trivial
  have notConst : ins.opcode ≠ .iconst := by rcases opcode with opcode | opcode | opcode <;> simp [opcode]
  unfold foldStep
  cases first : defs ins.sreg1 with
  | none => exact ⟨_, rfl, foldsValue_of_ne leaves rfl rfl notConst⟩
  | some arg1 =>
    simp only [if_pos operand, monoConstantFoldIns]
    by_cases isConst : arg1.opcode = .iconst
    · have operandKnown := fun m' isM => known.holds m' isM _ _ (const_eq first isConst)
      rcases opcode with opcode | opcode | opcode
      · simp only [opcode, isConst, if_true]
        refine ⟨_, rfl, foldsValue_store fun m' isM stored is => ?_⟩
        simp only [Machine.event, opcode]
        exact agrees_map (operandKnown m' isM) low_not is
      · simp only [opcode, isConst, if_true]
        split
        · exact ⟨_, rfl, foldsValue_of_ne leaves rfl rfl notConst⟩
        · refine ⟨_, rfl, foldsValue_store fun m' isM stored is => ?_⟩
          simp only [Machine.event, opcode]
          exact agrees_map (operandKnown m' isM) low_neg is
      · simp only [opcode, isConst, true_or, if_true]
        refine ⟨_, rfl, foldsValue_store fun m' isM stored is => ?_⟩
        simp only [Machine.event, opcode]
        intro _ v member
        rw [is, operandKnown m' isM v member]
    · rcases opcode with opcode | opcode | opcode
      · simp only [opcode, isConst, if_false]
        exact ⟨_, rfl, foldsValue_of_ne leaves rfl rfl notConst⟩
      · simp only [opcode, isConst, if_false]
        exact ⟨_, rfl, foldsValue_of_ne leaves rfl rfl notConst⟩
      · simp only [opcode, isConst, false_or]
        split
        next isLong =>
          refine ⟨_, rfl, foldsValue_of_ne leaves rfl rfl ?_⟩
          simp [returnStored, isLong]
        next => exact ⟨_, rfl, foldsValue_of_ne leaves rfl rfl notConst⟩

end Values

/-! ### One step of the pass -/

section Steps

variable {undef : BitVec 64 → BitVec 64 → BitVec 64} {defs : Defs} {m : Option Machine} {ins orig : MonoInst}
  {next rest : List MonoInst} {a b : BitVec 64}

theorem event_ne_unreached (m : Machine) (ins : MonoInst) : m.event ins ≠ .unreached := by
  have leaves : ∀ {e : Event}, e.LeavesValue → e ≠ .unreached := by
    rintro e leaves rfl
    exact leaves
  unfold Machine.event
  split
  case h_3 | h_4 | h_5 => exact leaves (computeOpen_leavesValue _ _ _)
  all_goals simp

theorem after_regs {m m' : Machine} (noValue : ∀ v, m.event ins ≠ .value v) (after : m' ∈ m.after ins) :
    m'.regs = m.regs := by
  unfold Machine.after at after
  split at after
  next => cases after
  next v isValue => exact absurd isValue (noValue v)
  next =>
    split at after
    all_goals
      cases after
      rfl

theorem Known.after {folded : MonoInst} (known : Known defs m) (agrees : Agrees folded (eventOf m orig))
    (dreg : ∀ m' ∈ m, ∀ v, m'.event orig = .value v → folded.dreg = orig.dreg) :
    Known (defs.define folded) (afterOf m orig) where
  noReg := by
    unfold Defs.define
    split
    next => exact known.noReg
    next isReg => rw [Function.update_of_ne (Ne.symm isReg), known.noReg]
  holds := by
    intro m'' isAfter r c isConst x isThere
    obtain ⟨m', isM, after⟩ := bind_eq_some_iff.mp isAfter
    cases isM
    have other : r ≠ folded.dreg → defs.const r = some c := by
      intro other
      unfold Defs.const Defs.define at isConst
      split at isConst
      next => exact isConst
      next => rwa [Function.update_of_ne other] at isConst
    have own : r = folded.dreg → folded.opcode = .iconst ∧ folded.instC0 = c := by
      rintro rfl
      unfold Defs.const Defs.define at isConst
      split at isConst
      next noReg =>
        rw [noReg, known.noReg] at isConst
        cases isConst
      next =>
        simpa using isConst
    cases isEvent : m'.event orig with
    | value v =>
      have same := dreg m' rfl v isEvent
      simp only [Machine.after, isEvent] at after
      cases after
      dsimp only at isThere
      by_cases isOwn : r = folded.dreg
      · obtain ⟨isIconst, rfl⟩ := own isOwn
        rw [isOwn, same, Function.update_self] at isThere
        simp only [eventOf, isEvent] at agrees
        exact agrees isIconst x isThere
      · rw [Function.update_of_ne (same ▸ isOwn)] at isThere
        exact known.holds m' rfl r c (other isOwn) x isThere
    | raised =>
      simp only [Machine.after, isEvent] at after
      cases after
    | unreached => exact absurd isEvent (event_ne_unreached m' orig)
    | outcome taken =>
      have notConst : folded.opcode ≠ .iconst := by
        simp only [eventOf, isEvent] at agrees
        exact agrees.1
      rw [after_regs (by simp [isEvent]) after] at isThere
      exact known.holds m' rfl r c (other fun isOwn => notConst (own isOwn).1) x isThere
    | silent =>
      have notConst : folded.opcode ≠ .iconst := by
        simp only [eventOf, isEvent] at agrees
        exact agrees
      rw [after_regs (by simp [isEvent]) after] at isThere
      exact known.holds m' rfl r c (other fun isOwn => notConst (own isOwn).1) x isThere

/-- What stands before the pass and what stood there at first: the same code, or the first instruction asks for the
result of a comparison that was folded, and has it. -/
inductive Prepared (m : Option Machine) : List MonoInst → List MonoInst → Prop where
  | same (code : List MonoInst) : Prepared m code code
  | set {ins : MonoInst} {cond : SetCond} {res : Bool} (rest : List MonoInst) (opcode : ins.opcode = .ic cond)
      (holds : ∀ m' ∈ m, ∀ xy ∈ m'.flags, cond.holds xy.1 xy.2 = res) :
      Prepared m ({ ins.nullifySregs with opcode := .iconst, instC0 := gboolean res } :: rest) (ins :: rest)
  | branch {ins : MonoInst} {cond : BranchCond} {res : Bool} (rest : List MonoInst) (opcode : ins.opcode = .ib cond)
      (holds : ∀ m' ∈ m, ∀ xy ∈ m'.flags, cond.holds xy.1 xy.2 = res) :
      Prepared m ((if res then { ins with cfoldTaken := true } else { ins with cfoldNotTaken := true }) :: rest)
        (ins :: rest)

theorem compared_eq {x y : Option (BitVec 32)} (left : ∀ v ∈ x, low a = v) (right : ∀ v ∈ y, low b = v) :
    ∀ xy ∈ compared x y, xy = (low a, low b) := by
  intro xy isFlags
  cases x with
  | none => cases isFlags
  | some x =>
    cases y with
    | none => cases isFlags
    | some y =>
      cases isFlags
      rw [left x rfl, right y rfl]

theorem foldCompare_spec (isInt : ∀ user ∈ next, user.IsInt = true) (notConst : ins.opcode ≠ .iconst)
    (flags : ∀ m' ∈ m, ∀ xy ∈ m'.flags, xy = (low a, low b)) :
    (foldCompare ins next a b true).ins.opcode ≠ .iconst ∧ Prepared m (foldCompare ins next a b true).next next := by
  cases next with
  | nil => exact ⟨notConst, .same []⟩
  | cons user rest =>
    have holds : ∀ f : BitVec 32 → BitVec 32 → Bool, ∀ m' ∈ m, ∀ xy ∈ m'.flags, f xy.1 xy.2 = f (low a) (low b) := by
      intro f m' isM xy isFlags
      rw [flags m' isM xy isFlags]
    simp only [foldCompare]
    split
    next cond opcode =>
      have := isInt user List.mem_cons_self
      simp [MonoInst.IsInt, opcode] at this
    next cond opcode => exact ⟨by simp [MonoInst.nullify], .set rest opcode (holds fun x y => cond.holds x y)⟩
    next cond opcode => exact ⟨notConst, .branch rest opcode (holds fun x y => cond.holds x y)⟩
    next =>
      split
      · exact ⟨by simp [MonoInst.nullify], .same _⟩
      · exact ⟨notConst, .same _⟩
    next =>
      split
      · exact ⟨by simp [MonoInst.nullify], .same _⟩
      · exact ⟨notConst, .same _⟩
    next => exact ⟨notConst, .same _⟩

theorem foldStep_compare (known : Known defs m) (isInt : ∀ user ∈ next, user.IsInt = true)
    (opcode : ins.opcode = .icompare ∧ ins.sreg2 ≠ -1 ∨ ins.opcode = .icompareImm ∧ ins.sreg2 = -1) :
    ∃ result, foldStep undef defs ins next = some result ∧ result.ins.opcode ≠ .iconst ∧
      Prepared (afterOf m ins) result.next next := by
  have notConst : ins.opcode ≠ .iconst := by rcases opcode with ⟨opcode, _⟩ | ⟨opcode, _⟩ <;> simp [opcode]
  unfold foldStep
  cases first : defs ins.sreg1 with
  | none => exact ⟨_, rfl, notConst, .same next⟩
  | some arg1 =>
    rcases opcode with ⟨opcode, operand⟩ | ⟨opcode, operand⟩
    · simp only [if_neg operand]
      cases second : defs ins.sreg2 with
      | none => exact ⟨_, rfl, notConst, .same next⟩
      | some arg2 =>
        simp only [monoConstantFoldIns, opcode, if_neg operand, bind_some]
        by_cases isConst1 : arg1.opcode = .iconst
        · by_cases isConst2 : arg2.opcode = .iconst
          · simp only [isConst1, isConst2, if_true]
            refine ⟨_, rfl, foldCompare_spec isInt notConst fun m'' isAfter xy isFlags => ?_⟩
            obtain ⟨m', isM, after⟩ := bind_eq_some_iff.mp isAfter
            simp only [Machine.after, Machine.event, opcode] at after
            cases after
            exact compared_eq (known.holds m' isM _ _ (const_eq first isConst1))
              (known.holds m' isM _ _ (const_eq second isConst2)) xy isFlags
          · simp only [isConst1, isConst2, if_true, if_false]
            exact ⟨_, rfl, notConst, .same next⟩
        · simp only [isConst1, if_false]
          exact ⟨_, rfl, notConst, .same next⟩
    · simp only [if_pos operand, monoConstantFoldIns, opcode]
      by_cases isConst1 : arg1.opcode = .iconst
      · simp only [isConst1, if_true]
        refine ⟨_, rfl, foldCompare_spec isInt notConst fun m'' isAfter xy isFlags => ?_⟩
        obtain ⟨m', isM, after⟩ := bind_eq_some_iff.mp isAfter
        simp only [Machine.after, Machine.event, opcode] at after
        cases after
        exact compared_eq (known.holds m' isM _ _ (const_eq first isConst1)) (by simp) xy isFlags
      · simp only [isConst1, if_false]
        exact ⟨_, rfl, notConst, .same next⟩

theorem foldStep_alone (known : Known defs m) (operand : ins.sreg1 = -1) :
    foldStep undef defs ins next = some (returnNull ins next) := by
  rw [foldStep, operand, known.noReg]

/-- What one step of the pass leaves. -/
structure StepRight (m : Option Machine) (defs : Defs) (orig : MonoInst) (rest : List MonoInst) (result : FoldResult) :
    Prop where
  agrees : Agrees result.ins (eventOf m orig)
  known : Known (defs.define result.ins) (afterOf m orig)
  prepared : Prepared (afterOf m orig) result.next rest

theorem FoldsValue.stepRight {result : FoldResult} (folds : FoldsValue m ins next result) (known : Known defs m) :
    StepRight m defs ins next result where
  agrees := folds.agrees
  known := known.after folds.agrees fun _ _ _ _ => folds.dreg
  prepared := folds.next ▸ .same _

theorem foldStep_same (known : Known defs m) (isInt : ∀ user ∈ ins :: next, user.IsInt = true) (safe : SafeStep defs ins) :
    ∃ result, foldStep undef defs ins next = some result ∧ StepRight m defs ins next result := by
  obtain ⟨first, others⟩ := List.forall_mem_cons.mp isInt
  have stays : ins.sreg1 = -1 → Agrees ins (eventOf m ins) → ∃ result, foldStep undef defs ins next = some result ∧
      StepRight m defs ins next result := fun operand agrees =>
    ⟨_, foldStep_alone known operand, agrees, known.after agrees fun _ _ _ _ => rfl, .same next⟩
  have value : (∃ result, foldStep undef defs ins next = some result ∧ FoldsValue m ins next result) →
      ∃ result, foldStep undef defs ins next = some result ∧ StepRight m defs ins next result :=
    fun ⟨result, run, folds⟩ => ⟨result, run, folds.stepRight known⟩
  have compares : ins.opcode = .icompare ∧ ins.sreg2 ≠ -1 ∨ ins.opcode = .icompareImm ∧ ins.sreg2 = -1 →
      ∃ result, foldStep undef defs ins next = some result ∧ StepRight m defs ins next result := by
    intro opcode
    obtain ⟨result, run, notConst, prepared⟩ := @foldStep_compare undef _ _ _ _ known others opcode
    have silent : ∀ m' : Machine, m'.event ins = .silent := by
      intro m'
      rcases opcode with ⟨opcode, _⟩ | ⟨opcode, _⟩ <;> simp only [Machine.event, opcode]
    have agrees : Agrees result.ins (eventOf m ins) := by
      cases m with
      | none => trivial
      | some m' =>
        rw [eventOf, silent]
        exact notConst
    refine ⟨result, run, agrees, known.after agrees fun m' _ v isValue => ?_, prepared⟩
    rw [silent] at isValue
    cases isValue
  cases opcode : ins.opcode with
  | reg op =>
    have operands : ins.sreg1 ≠ -1 ∧ ins.sreg2 ≠ -1 := by simp_all [MonoInst.IsInt]
    exact value (foldStep_reg known opcode operands.2 safe)
  | imm op =>
    have operands : ins.sreg1 ≠ -1 ∧ ins.sreg2 = -1 := by simp_all [MonoInst.IsInt]
    exact value (foldStep_imm known opcode operands.2 safe)
  | shlImm =>
    have operands : ins.sreg1 ≠ -1 ∧ ins.sreg2 = -1 := by simp_all [MonoInst.IsInt]
    exact value (foldStep_shlImm known opcode operands.2 safe)
  | inot =>
    have operands : ins.sreg1 ≠ -1 ∧ ins.sreg2 = -1 := by simp_all [MonoInst.IsInt]
    exact value (foldStep_unop known (.inl opcode) operands.2)
  | ineg =>
    have operands : ins.sreg1 ≠ -1 ∧ ins.sreg2 = -1 := by simp_all [MonoInst.IsInt]
    exact value (foldStep_unop known (.inr (.inl opcode)) operands.2)
  | move =>
    have operands : ins.sreg1 ≠ -1 ∧ ins.sreg2 = -1 := by simp_all [MonoInst.IsInt]
    exact value (foldStep_unop known (.inr (.inr opcode)) operands.2)
  | icompare =>
    have operands : ins.sreg1 ≠ -1 ∧ ins.sreg2 ≠ -1 := by simp_all [MonoInst.IsInt]
    exact compares (.inl ⟨opcode, operands.2⟩)
  | icompareImm =>
    have operands : ins.sreg1 ≠ -1 ∧ ins.sreg2 = -1 := by simp_all [MonoInst.IsInt]
    exact compares (.inr ⟨opcode, operands.2⟩)
  | iconst =>
    have operands : ins.sreg1 = -1 ∧ ins.sreg2 = -1 := by simp_all [MonoInst.IsInt]
    refine stays operands.1 ?_
    cases m with
    | none => trivial
    | some m' => simp [eventOf, Machine.event, opcode, Agrees]
  | ic cond =>
    have operands : ins.sreg1 = -1 ∧ ins.sreg2 = -1 := by simp_all [MonoInst.IsInt]
    refine stays operands.1 ?_
    cases m with
    | none => trivial
    | some m' => simp [eventOf, Machine.event, opcode, Agrees]
  | ib cond =>
    have operands : ins.sreg1 = -1 ∧ ins.sreg2 = -1 := by simp_all [MonoInst.IsInt]
    have clear : ins.cfoldTaken = false ∧ ins.cfoldNotTaken = false := by simp_all [MonoInst.IsInt]
    refine stays operands.1 ?_
    cases m with
    | none => trivial
    | some m' => simp [eventOf, Machine.event, opcode, Agrees, clear]
  | _ => simp [MonoInst.IsInt, opcode] at first

theorem foldStep_spec {code : List MonoInst} (prepared : Prepared m code (orig :: rest)) (known : Known defs m)
    (isInt : ∀ ins ∈ orig :: rest, ins.IsInt = true) : ∃ ins next, code = ins :: next ∧ next = rest ∧ (SafeStep defs ins →
      ∃ result, foldStep undef defs ins next = some result ∧ StepRight m defs orig rest result) := by
  cases prepared with
  | same _ => exact ⟨orig, rest, rfl, rfl, fun safe => foldStep_same known isInt safe⟩
  | @set _ cond res _ opcode holds =>
    refine ⟨_, rest, rfl, rfl, fun _ => ⟨_, foldStep_alone known rfl, ?_⟩⟩
    have agrees : Agrees { orig.nullifySregs with opcode := .iconst, instC0 := gboolean res } (eventOf m orig) := by
      cases m with
      | none => trivial
      | some m' =>
        simp only [eventOf, Machine.event, opcode, Agrees]
        intro _ x member
        obtain ⟨xy, isFlags, rfl⟩ := mem_map.mp member
        rw [low_gboolean, holds m' rfl xy isFlags]
    exact ⟨agrees, known.after agrees fun _ _ _ _ => rfl, .same rest⟩
  | @branch _ cond res _ opcode holds =>
    have operands : orig.sreg1 = -1 ∧ orig.sreg2 = -1 := by
      have := isInt orig List.mem_cons_self
      simp_all [MonoInst.IsInt]
    have clear : orig.cfoldTaken = false ∧ orig.cfoldNotTaken = false := by
      have := isInt orig List.mem_cons_self
      simp_all [MonoInst.IsInt]
    have operand :
        (if res then { orig with cfoldTaken := true } else { orig with cfoldNotTaken := true }).sreg1 = -1 := by
      cases res <;> exact operands.1
    refine ⟨_, rest, rfl, rfl, fun _ => ⟨_, foldStep_alone known operand, ?_⟩⟩
    have agrees : Agrees (if res then { orig with cfoldTaken := true } else { orig with cfoldNotTaken := true })
        (eventOf m orig) := by
      cases m with
      | none => trivial
      | some m' =>
        simp only [eventOf, Machine.event, opcode, Agrees]
        refine ⟨by cases res <;> simp, fun b member => ?_⟩
        obtain ⟨xy, isFlags, rfl⟩ := mem_map.mp member
        rw [holds m' rfl xy isFlags]
        cases res <;> simp [clear]
    refine ⟨agrees, known.after agrees fun _ _ _ _ => ?_, .same rest⟩
    cases res <;> rfl

end Steps

/-! ### Straight-line code -/

/-- Every step of the pass is safe, with the constants that are known before it. -/
def StepsSafe (undef : BitVec 64 → BitVec 64 → BitVec 64) : Nat → Defs → List MonoInst → Prop
  | 0, _, _ => True
  | _ + 1, _, [] => True
  | left + 1, defs, ins :: next =>
      SafeStep defs ins ∧ ∀ result, foldStep undef defs ins next = some result →
        StepsSafe undef left (defs.define result.ins) result.next

theorem trace_cons (m : Option Machine) (ins : MonoInst) (rest : List MonoInst) :
    trace m (ins :: rest) = eventOf m ins :: trace (afterOf m ins) rest := by
  cases m <;> rfl

/-- A pass whose steps are safe folds right, from any state in which what is known holds. -/
theorem foldCode_run {undef : BitVec 64 → BitVec 64 → BitVec 64} : ∀ {orig code : List MonoInst} {defs : Defs}
    {m : Option Machine}, Prepared m code orig → Known defs m → (∀ ins ∈ orig, ins.IsInt = true) →
      StepsSafe undef orig.length defs code →
        ∃ out, foldCode undef orig.length defs code = some out ∧ List.Forall₂ Agrees out (trace m orig)
  | [], code, defs, m, _, _, _, _ => ⟨[], rfl, by cases m <;> exact .nil⟩
  | first :: orig, code, defs, m, prepared, known, isInt, safe => by
      obtain ⟨ins, next, rfl, rfl, step⟩ := @foldStep_spec undef _ _ _ _ _ prepared known isInt
      obtain ⟨isSafe, laterSafe⟩ := safe
      obtain ⟨result, run, right⟩ := step isSafe
      obtain ⟨out, rest, agree⟩ := foldCode_run right.prepared right.known (List.forall_mem_cons.mp isInt).2
        (laterSafe result run)
      refine ⟨result.ins :: out, ?_, ?_⟩
      · simp only [List.length_cons, foldCode, run, rest, map_some]
      · rw [trace_cons]
        exact .cons right.agrees agree

/-- Nothing is known before the pass. -/
def noDefs : Defs :=
  fun _ => none

/-- The instructions as the pass sees them. -/
def codeOf (code : List IntInst) : List MonoInst :=
  code.map IntInst.toMonoInst

/-- Straight-line code whose steps are safe is folded without a trap of the compiler, and every constant and every
branch that is decided agrees with the run, whatever the registers hold before it. -/
theorem foldCode_agrees (undef : BitVec 64 → BitVec 64 → BitVec 64) (code : List IntInst) (m : Machine)
    (safe : StepsSafe undef code.length noDefs (codeOf code)) :
    ∃ out, foldCode undef code.length noDefs (codeOf code) = some out ∧
      List.Forall₂ Agrees out (trace (some m) (codeOf code)) := by
  have length : (codeOf code).length = code.length := List.length_map _
  have known : Known noDefs (some m) := ⟨rfl, fun _ _ _ _ isConst => nomatch isConst⟩
  rw [← length] at safe ⊢
  refine foldCode_run (.same _) known ?_ safe
  intro ins member
  obtain ⟨ins', _, rfl⟩ := List.mem_map.mp member
  exact ins'.isInt

/-! ### Code that is folded right, and code that is not -/

/-- An instruction with all its operands. -/
def instOf (opcode : Opcode) (dreg sreg1 sreg2 : Int) (c0 imm : BitVec 64) : MonoInst :=
  { opcode := opcode, dreg := dreg, sreg1 := sreg1, sreg2 := sreg2, instC0 := c0, instImm := imm, cfoldTaken := false,
    cfoldNotTaken := false }

/-- `OP_ICONST`. -/
def iconstOf (dreg : Int) (c0 : BitVec 64) : IntInst :=
  ⟨instOf .iconst dreg (-1) (-1) c0 0, rfl⟩

/-- 7 divided by 2, and a branch if that is 3. -/
def divideAndBranch : List IntInst :=
  [iconstOf 1 7, iconstOf 2 2, ⟨instOf (.reg .idiv) 3 1 2 0 0, rfl⟩, ⟨instOf .icompareImm (-1) 3 (-1) 0 3, rfl⟩,
    ⟨instOf (.ib .eq) (-1) (-1) (-1) 0 0, rfl⟩]

/-- The quotient is folded, and the branch is taken. -/
theorem foldCode_agrees_branch :
    ∃ out, foldCode (fun _ _ => 0) 5 noDefs (codeOf divideAndBranch) = some out ∧
      List.Forall₂ Agrees out (trace (some { regs := fun _ => none, flags := none }) (codeOf divideAndBranch)) := by
  refine foldCode_agrees (fun _ _ => 0) divideAndBranch { regs := fun _ => none, flags := none } ?_
  refine ⟨trivial, ?_⟩
  rintro _ ⟨⟩
  refine ⟨trivial, ?_⟩
  rintro _ ⟨⟩
  refine ⟨?_, ?_⟩
  · rintro _ ⟨⟩ _ ⟨⟩
    right
    unfold IntOp.Safe
    decide
  · rintro _ ⟨⟩
    refine ⟨trivial, ?_⟩
    rintro _ ⟨⟩
    exact ⟨trivial, fun _ _ => trivial⟩

/-- 65536 times itself, and 5 divided by that. -/
def divideByOverflow : List IntInst :=
  [iconstOf 1 0x10000, ⟨instOf (.reg .imul) 2 1 1 0 0, rfl⟩, iconstOf 3 5, ⟨instOf (.reg .idiv) 4 3 2 0 0, rfl⟩]

/-- The greatest number plus one, and that divided by -1. -/
def divideLeast : List IntInst :=
  [iconstOf 1 0x7fffffff, ⟨instOf (.imm .iadd) 2 1 (-1) 0 1, rfl⟩, iconstOf 3 (-1), ⟨instOf (.reg .irem) 4 2 3 0 0, rfl⟩]

/-- The greatest number plus one, and that shifted to the right by one. -/
def shiftOverflow : List IntInst :=
  [iconstOf 1 0x7fffffff, iconstOf 2 1, ⟨instOf (.reg .iadd) 3 1 2 0 0, rfl⟩, ⟨instOf (.reg .ishr) 4 3 2 0 0, rfl⟩]

/-- The product is 2 ^ 32, whose low word is zero, and the sum is 2 ^ 31, whose low word is the least number: the
guard lets both through, and the compiler divides. The shift of the sum leaves a positive number, and a negative one
at run time. -/
theorem foldCode_misses :
    (∀ undef, foldCode undef 4 noDefs (codeOf divideByOverflow) = none) ∧
      (∀ undef, foldCode undef 4 noDefs (codeOf divideLeast) = none) ∧
      ∀ undef m, ∃ out, foldCode undef 4 noDefs (codeOf shiftOverflow) = some out ∧
        ¬ List.Forall₂ Agrees out (trace (some m) (codeOf shiftOverflow)) := by
  refine ⟨fun undef => rfl, fun undef => rfl, fun undef m => ⟨_, rfl, ?_⟩⟩
  rintro (_ | ⟨_, _ | ⟨_, _ | ⟨_, _ | ⟨shift, _⟩⟩⟩⟩)
  have same : 0x40000000#32 = 0xc0000000#32 := shift rfl 0xc0000000#32 rfl
  exact absurd same (by decide)

end MonoRuntime.ConstantFold
