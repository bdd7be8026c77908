/-
Module: MonoRuntime.Mini.CliArithmetic
Purpose: What the conversions and the checked additions of the CLI mean, on integers. It is stated apart from the code that
  the JIT emits for them.
Trusted boundary: human-reviewed statement of the CLI
Main exports: IntType
-/
import Mathlib.Algebra.Order.Ring.Int

namespace MonoRuntime.Decompose

/-- An integer type of the CLI. -/
structure IntType where
  bits : Nat
  signed : Bool
  deriving DecidableEq, Repr

namespace IntType

def i1 : IntType := ⟨8, true⟩
def u1 : IntType := ⟨8, false⟩
def i2 : IntType := ⟨16, true⟩
def u2 : IntType := ⟨16, false⟩
def i4 : IntType := ⟨32, true⟩
def u4 : IntType := ⟨32, false⟩
def i8 : IntType := ⟨64, true⟩
def u8 : IntType := ⟨64, false⟩

/-- The value of the low bits of a word. -/
def read {w : Nat} (type : IntType) (word : BitVec w) : Int :=
  if type.signed then (word.setWidth type.bits).toInt else (word.setWidth type.bits).toNat

/-- The values of a type. -/
def Fits (type : IntType) (value : Int) : Prop :=
  if type.signed then -2 ^ (type.bits - 1) ≤ value ∧ value < 2 ^ (type.bits - 1) else 0 ≤ value ∧ value < 2 ^ type.bits

instance (type : IntType) (value : Int) : Decidable (type.Fits value) :=
  inferInstanceAs (Decidable (if type.signed then _ else _))

end IntType

/-- What an instruction does: it raises `OverflowException`, leaves an `int32` or an `int64` on the stack, or branches. -/
inductive Result where
  | raises
  | i4 (value : BitVec 32)
  | i8 (value : BitVec 64)
  | branches (taken : Bool)
  deriving DecidableEq, Repr

/-- A value of a type on the stack: types of at most four bytes are an `int32` there. -/
def Result.of (type : IntType) (value : Int) : Result :=
  if type.bits ≤ 32 then .i4 (BitVec.ofInt 32 value) else .i8 (BitVec.ofInt 64 value)

/-- The value of a type, where it is one. -/
def Result.checked (type : IntType) (value : Int) : Result :=
  if type.Fits value then .of type value else .raises

variable {w : Nat}

/-- `conv.<to>`: the low bits of the operand, extended as the type of the result says. -/
def conv (source target : IntType) (x : BitVec w) : Result :=
  .of target (target.read (BitVec.ofInt 64 (source.read x)))

/-- `conv.ovf.<to>`, and `conv.ovf.<to>.un` where the operand is read as unsigned. -/
def convOvf (source target : IntType) (x : BitVec w) : Result :=
  .checked target (source.read x)

/-- `add.ovf` and `add.ovf.un`. -/
def addOvf (type : IntType) (x y : BitVec w) : Result :=
  .checked type (type.read x + type.read y)

/-- `sub.ovf` and `sub.ovf.un`. -/
def subOvf (type : IntType) (x y : BitVec w) : Result :=
  .checked type (type.read x - type.read y)

end MonoRuntime.Decompose
