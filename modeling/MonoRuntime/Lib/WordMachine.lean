/-
Module: MonoRuntime.Lib.WordMachine
Purpose: The flags that additions and subtractions of words leave, the conditions that are read off them, and a machine with
  word registers that runs code with exits and forward branches on these conditions.
Trusted boundary: none
Main exports: Flags
-/
import Mathlib.Algebra.Order.Ring.Int

namespace MonoRuntime.WordMachine

open BitVec

/-! ### Flags -/

/-- The flags of a result. -/
structure Flags where
  zero : Bool
  sign : Bool
  carry : Bool
  overflow : Bool
  deriving DecidableEq, Repr

variable {w : Nat}

/-- A sum with a carry in. -/
def adc (x y : BitVec w) (carry : Bool) : BitVec w :=
  x + y + BitVec.ofNat w carry.toNat

/-- A difference with a borrow in. -/
def sbb (x y : BitVec w) (borrow : Bool) : BitVec w :=
  x - y - BitVec.ofNat w borrow.toNat

/-- The flags of a sum: it carries where the unsigned sum is not a word, and overflows where the signed one is not. -/
def adcFlags (x y : BitVec w) (carry : Bool) : Flags where
  zero := adc x y carry == 0#w
  sign := (adc x y carry).msb
  carry := decide (2 ^ w ≤ x.toNat + y.toNat + carry.toNat)
  overflow := decide ((adc x y carry).toInt ≠ x.toInt + y.toInt + carry.toNat)

/-- The flags of a difference: the carry is the borrow. -/
def sbbFlags (x y : BitVec w) (borrow : Bool) : Flags where
  zero := sbb x y borrow == 0#w
  sign := (sbb x y borrow).msb
  carry := decide (x.toNat < y.toNat + borrow.toNat)
  overflow := decide ((sbb x y borrow).toInt ≠ x.toInt - y.toInt - borrow.toNat)

/-- The flags of a comparison are those of the difference. -/
def compareFlags (x y : BitVec w) : Flags :=
  sbbFlags x y false

/-- The conditions on flags. -/
inductive Cond where
  | eq
  | ge
  | gt
  | le
  | lt
  | neUn
  | geUn
  | gtUn
  | leUn
  | ltUn
  | ov
  | c
  deriving DecidableEq, Repr

/-- The signed orders look at sign and overflow, the unsigned ones at the borrow. -/
def Cond.holds (flags : Flags) : Cond → Bool
  | .eq => flags.zero
  | .ge => flags.sign == flags.overflow
  | .gt => !(flags.zero || flags.sign != flags.overflow)
  | .le => flags.zero || flags.sign != flags.overflow
  | .lt => flags.sign != flags.overflow
  | .neUn => !flags.zero
  | .geUn => !flags.carry
  | .gtUn => !(flags.zero || flags.carry)
  | .leUn => flags.zero || flags.carry
  | .ltUn => flags.carry
  | .ov => flags.overflow
  | .c => flags.carry

/-! ### Code -/

/-- Registers and flags. -/
structure State (w : Nat) where
  reg : Nat → BitVec w
  flags : Flags

/-- A register is written. -/
def State.set (s : State w) (r : Nat) (value : BitVec w) : State w :=
  { s with reg := Function.update s.reg r value }

@[simp] theorem State.set_self (s : State w) (r : Nat) (value : BitVec w) : (s.set r value).reg r = value :=
  Function.update_self ..

theorem State.set_of_ne {s : State w} {r r' : Nat} {value : BitVec w} (other : r' ≠ r) :
    (s.set r value).reg r' = s.reg r' :=
  Function.update_of_ne other ..

/-- An operation, an exit with an exception where a condition holds, a branch, or the start of a block. -/
inductive Code (Op Label : Type) where
  | op (op : Op)
  | condExc (cond : Cond)
  | branch (cond : Cond) (target : Label)
  | br (target : Label)
  | startBB (label : Label)

/-- How code is left: at its end, with an exception, or by a branch to a block outside of it. -/
inductive Outcome (w : Nat) (Label : Type) where
  | finished (s : State w)
  | raised
  | branched (target : Label) (s : State w)

section Run

variable {Op Label : Type} [DecidableEq Label] (step : Op → State w → State w)

/-- Code is run from its start, or skipped up to the block that a branch goes to. -/
def runFrom : Option Label → List (Code Op Label) → State w → Outcome w Label
  | none, [], s => .finished s
  | some target, [], s => .branched target s
  | none, .op op :: code, s => runFrom none code (step op s)
  | none, .condExc cond :: code, s => if cond.holds s.flags then .raised else runFrom none code s
  | none, .branch cond target :: code, s => runFrom (if cond.holds s.flags then some target else none) code s
  | none, .br target :: code, s => runFrom (some target) code s
  | none, .startBB _ :: code, s => runFrom none code s
  | some target, .startBB label :: code, s => runFrom (if label = target then none else some target) code s
  | some target, _ :: code, s => runFrom (some target) code s

/-- Code is run. -/
def run (code : List (Code Op Label)) (s : State w) : Outcome w Label :=
  runFrom step none code s

variable {step} {code : List (Code Op Label)} {s : State w}

@[simp] theorem run_nil : run step ([] : List (Code Op Label)) s = .finished s :=
  rfl

@[simp] theorem run_op {op : Op} : run step (.op op :: code) s = run step code (step op s) :=
  rfl

@[simp] theorem run_condExc {cond : Cond} :
    run step (.condExc cond :: code) s = if cond.holds s.flags then .raised else run step code s :=
  rfl

@[simp] theorem run_branch {cond : Cond} {target : Label} : run step (.branch cond target :: code) s =
      if cond.holds s.flags then runFrom step (some target) code s else run step code s := by
  change runFrom step (if cond.holds s.flags then some target else none) code s = _
  split
  all_goals rfl

end Run

/-! ### Comparisons -/

section Compare

variable {x y : BitVec w}

@[simp] theorem adc_false : adc x y false = x + y := by
  simp [adc]

@[simp] theorem sbb_false : sbb x y false = x - y := by
  simp [sbb]

theorem sign_ne_overflow : ((x - y).msb != decide ((x - y).toInt ≠ x.toInt - y.toInt)) = decide (x.toInt < y.toInt) := by
  cases w with
  | zero => simp [of_length_zero]
  | succ w =>
    have upper := x.toInt_lt
    have upper' := y.toInt_lt
    have lower := x.le_toInt
    have lower' := y.le_toInt
    have turn : ((2 ^ (w + 1) : Nat) : Int) = 2 * 2 ^ w := by
      push_cast
      exact pow_succ' 2 w
    rw [Nat.add_sub_cancel] at upper upper' lower lower'
    have wraps : (x - y).toInt = (x.toInt - y.toInt).bmod (2 ^ (w + 1)) := toInt_sub
    rw [msb_eq_toInt]
    by_cases low : x.toInt - y.toInt < -2 ^ w
    · have back : (x - y).toInt = x.toInt - y.toInt + 2 * 2 ^ w := by
        rw [wraps, ← turn, ← Int.add_bmod_right, Int.bmod_eq_of_le (by omega) (by omega)]
      rw [decide_eq_false (by omega), decide_eq_true (by omega), decide_eq_true (by omega)]
      rfl
    by_cases high : 2 ^ w ≤ x.toInt - y.toInt
    · have back : (x - y).toInt = x.toInt - y.toInt - 2 * 2 ^ w := by
        rw [wraps, ← turn, ← Int.sub_bmod_right, Int.bmod_eq_of_le (by omega) (by omega)]
      rw [decide_eq_true (by omega), decide_eq_true (by omega), decide_eq_false (by omega)]
      rfl
    have same : (x - y).toInt = x.toInt - y.toInt := by
      rw [wraps, Int.bmod_eq_of_le (by omega) (by omega)]
    rw [same, decide_eq_false (p := _ ≠ _) (by omega), Bool.bne_false]
    exact decide_eq_decide.mpr (by omega)

theorem compareFlags_lt : ((compareFlags x y).sign != (compareFlags x y).overflow) = decide (x.toInt < y.toInt) := by
  simpa [compareFlags, sbbFlags] using sign_ne_overflow (x := x) (y := y)

theorem compareFlags_zero : (compareFlags x y).zero = decide (x = y) := by
  rw [compareFlags, sbbFlags, sbb_false, Bool.eq_iff_iff, beq_iff_eq, decide_eq_true_iff, BitVec.sub_eq_iff_eq_add,
    BitVec.zero_add]

theorem compareFlags_carry : (compareFlags x y).carry = decide (x.toNat < y.toNat) :=
  rfl

theorem holds_eq : Cond.eq.holds (compareFlags x y) = true ↔ x = y := by
  change (compareFlags x y).zero = true ↔ _
  rw [compareFlags_zero, decide_eq_true_iff]

theorem holds_neUn : Cond.neUn.holds (compareFlags x y) = true ↔ x ≠ y := by
  change (!(compareFlags x y).zero) = true ↔ _
  rw [compareFlags_zero, Bool.not_eq_true', decide_eq_false_iff_not]

theorem holds_lt : Cond.lt.holds (compareFlags x y) = true ↔ x.toInt < y.toInt := by
  change ((compareFlags x y).sign != (compareFlags x y).overflow) = true ↔ _
  rw [compareFlags_lt, decide_eq_true_iff]

theorem holds_gt : Cond.gt.holds (compareFlags x y) = true ↔ y.toInt < x.toInt := by
  change (!((compareFlags x y).zero || (compareFlags x y).sign != (compareFlags x y).overflow)) = true ↔ _
  rw [compareFlags_lt, compareFlags_zero, Bool.not_eq_true', Bool.or_eq_false_iff, decide_eq_false_iff_not,
    decide_eq_false_iff_not, ← toInt_inj]
  omega

theorem holds_ltUn : Cond.ltUn.holds (compareFlags x y) = true ↔ x.toNat < y.toNat := by
  change (compareFlags x y).carry = true ↔ _
  rw [compareFlags_carry, decide_eq_true_iff]

theorem holds_geUn : Cond.geUn.holds (compareFlags x y) = true ↔ y.toNat ≤ x.toNat := by
  change (!(compareFlags x y).carry) = true ↔ _
  rw [compareFlags_carry, Bool.not_eq_true', decide_eq_false_iff_not]
  omega

theorem holds_leUn : Cond.leUn.holds (compareFlags x y) = true ↔ x.toNat ≤ y.toNat := by
  change ((compareFlags x y).zero || (compareFlags x y).carry) = true ↔ _
  rw [compareFlags_carry, compareFlags_zero, Bool.or_eq_true, decide_eq_true_iff, decide_eq_true_iff,
    ← toNat_inj]
  omega

theorem holds_gtUn : Cond.gtUn.holds (compareFlags x y) = true ↔ y.toNat < x.toNat := by
  change (!((compareFlags x y).zero || (compareFlags x y).carry)) = true ↔ _
  rw [compareFlags_carry, compareFlags_zero, Bool.not_eq_true', Bool.or_eq_false_iff, decide_eq_false_iff_not,
    decide_eq_false_iff_not, ← toNat_inj]
  omega

end Compare

/-! ### Sums and differences -/

section Sums

variable {x y : BitVec w} {b : Bool}

theorem toInt_ofInt_ne_iff {value : Int} (bits : 0 < w) :
    (BitVec.ofInt w value).toInt ≠ value ↔ ¬ (-2 ^ (w - 1) ≤ value ∧ value < 2 ^ (w - 1)) := by
  refine not_congr ⟨fun same => ?_, fun range => toInt_ofInt_eq_self bits range.1 range.2⟩
  rw [← same]
  exact ⟨le_toInt _, toInt_lt⟩

theorem ofInt_sub {value value' : Int} : BitVec.ofInt w (value - value') = BitVec.ofInt w value - BitVec.ofInt w value' := by
  rw [Int.sub_eq_add_neg, ofInt_add, ofInt_neg, BitVec.sub_eq_add_neg]

theorem adc_eq_ofInt : adc x y b = BitVec.ofInt w (x.toInt + y.toInt + b.toNat) := by
  rw [ofInt_add, ofInt_add, ofInt_toInt, ofInt_toInt, ofInt_natCast, adc]

theorem sbb_eq_ofInt : sbb x y b = BitVec.ofInt w (x.toInt - y.toInt - b.toNat) := by
  rw [ofInt_sub, ofInt_sub, ofInt_toInt, ofInt_toInt, ofInt_natCast, sbb]

theorem adc_eq_ofNat : adc x y b = BitVec.ofInt w (x.toNat + y.toNat + b.toNat : Int) := by
  rw [ofInt_add, ofInt_add, ofInt_natCast, ofInt_natCast, ofInt_natCast,
    BitVec.ofNat_toNat, BitVec.ofNat_toNat, setWidth_eq, setWidth_eq, adc]

theorem sbb_eq_ofNat : sbb x y b = BitVec.ofInt w (x.toNat - y.toNat - b.toNat : Int) := by
  rw [ofInt_sub, ofInt_sub, ofInt_natCast, ofInt_natCast, ofInt_natCast,
    BitVec.ofNat_toNat, BitVec.ofNat_toNat, setWidth_eq, setWidth_eq, sbb]

theorem holds_ov_adc (bits : 0 < w) : Cond.ov.holds (adcFlags x y b) = true ↔
      ¬ (-2 ^ (w - 1) ≤ x.toInt + y.toInt + b.toNat ∧ x.toInt + y.toInt + b.toNat < 2 ^ (w - 1)) := by
  rw [← toInt_ofInt_ne_iff bits, ← adc_eq_ofInt]
  exact decide_eq_true_iff

theorem holds_ov_sbb (bits : 0 < w) : Cond.ov.holds (sbbFlags x y b) = true ↔
      ¬ (-2 ^ (w - 1) ≤ x.toInt - y.toInt - b.toNat ∧ x.toInt - y.toInt - b.toNat < 2 ^ (w - 1)) := by
  rw [← toInt_ofInt_ne_iff bits, ← sbb_eq_ofInt]
  exact decide_eq_true_iff

theorem holds_c_adc : Cond.c.holds (adcFlags x y b) = true ↔ 2 ^ w ≤ x.toNat + y.toNat + b.toNat :=
  decide_eq_true_iff

theorem holds_c_sbb : Cond.c.holds (sbbFlags x y b) = true ↔ x.toNat < y.toNat + b.toNat :=
  decide_eq_true_iff

end Sums

/-! ### Ranges -/

section Ranges

variable {n : Nat} {x : BitVec w}

theorem signExtend_setWidth (narrow : n ≤ w) (lower : -2 ^ (n - 1) ≤ x.toInt) (upper : x.toInt < 2 ^ (n - 1))
    (bits : 0 < n) : (x.setWidth n).signExtend w = x := by
  obtain ⟨n, rfl⟩ : ∃ k, n = k + 1 := ⟨n - 1, by omega⟩
  have turn : ((2 ^ (n + 1) : Nat) : Int) = 2 * 2 ^ n := by
    push_cast
    exact pow_succ' 2 n
  rw [Nat.add_sub_cancel] at lower upper
  apply eq_of_toInt_eq
  calc ((x.setWidth (n + 1)).signExtend w).toInt
      = (x.setWidth (n + 1)).toInt := toInt_signExtend_of_le narrow
    _ = x.toInt.bmod (2 ^ (n + 1)) := by
      rw [toInt_setWidth, toInt_eq_toNat_bmod, Int.bmod_bmod_of_dvd (Nat.pow_dvd_pow 2 narrow)]
    _ = x.toInt := Int.bmod_eq_of_le (by omega) (by omega)

theorem ofInt_toInt_of_le (narrow : n ≤ w) : BitVec.ofInt n x.toInt = x.setWidth n := by
  apply eq_of_toInt_eq
  rw [toInt_ofInt, toInt_setWidth, toInt_eq_toNat_bmod,
    Int.bmod_bmod_of_dvd (Nat.pow_dvd_pow 2 narrow)]

theorem ofInt_toNat : BitVec.ofInt n x.toNat = x.setWidth n := by
  rw [ofInt_natCast, BitVec.ofNat_toNat]

theorem toNat_lt_iff (narrow : n < w) : x.toNat < 2 ^ n ↔ 0 ≤ x.toInt ∧ x.toInt < 2 ^ n := by
  have half : 2 * 2 ^ n ≤ 2 ^ w := by
    rw [← pow_succ']
    exact Nat.pow_le_pow_right (by decide) narrow
  have cast : ((2 ^ n : Nat) : Int) = 2 ^ n := Nat.cast_pow 2 n
  rw [toInt_eq_toNat_cond]
  split
  all_goals omega

/-- A word whose value fits in fewer bits keeps it under a mask of these bits. -/
theorem and_mask {mask : BitVec w} (bits : mask.toNat = 2 ^ n - 1) (upper : x.toNat < 2 ^ n) : x &&& mask = x := by
  apply eq_of_toNat_eq
  rw [toNat_and, bits, Nat.and_two_pow_sub_one_eq_mod, Nat.mod_eq_of_lt upper]

end Ranges

end MonoRuntime.WordMachine
