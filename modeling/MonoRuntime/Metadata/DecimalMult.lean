/-
Module: MonoRuntime.Metadata.DecimalMult
Purpose: The multiplication of `metadata/decimal.c`: the product of 192 bits, the divisions that bring it into 128
  bits, and the final scaling that it shares with the addition.
Trusted boundary: human-reviewed translation of the source
Main exports: Dec192
-/
import MonoRuntime.Metadata.Decimal

namespace MonoRuntime.Decimal

/-- Three words that are handed on together. -/
structure Dec192 where
  low : BitVec 64
  mid : BitVec 64
  high : BitVec 64
deriving DecidableEq, Repr

/-! ### 192-bit arithmetic -/

/-- `((guint64) x) * y`. -/
def mulWords (x y : BitVec 32) : BitVec 64 :=
  x.setWidth 64 * y.setWidth 64

/-- `a += b; if (a < b) carry++`. -/
def addCarry (a b : BitVec 64) (carry : Nat) : BitVec 64 × Nat :=
  let a := a + b
  (a, if a < b then carry + 1 else carry)

/-- `mult96by96to192`. -/
def mult96by96to192 (alo ami ahi blo bmi bhi : BitVec 32) : Dec192 :=
  let a := mulWords alo blo
  let h0 := a.setWidth 32
  let (a, carry0) := addCarry (a >>> 32) (mulWords alo bmi) 0
  let (a, carry0) := addCarry a (mulWords ami blo) carry0
  let h1 := a.setWidth 32
  let (a, carry1) := addCarry (a >>> 32) (mulWords alo bhi) 0
  let (a, carry1) := addCarry a (mulWords ami bmi) carry1
  let (a, carry1) := addCarry a (mulWords ahi blo) carry1
  let h2 := a.setWidth 32
  -- The carry of the second column is due two columns later.
  let a := (a >>> 32) + BitVec.ofNat 64 carry0
  let (a, carry0) := addCarry a (mulWords ami bhi) 0
  let (a, carry0) := addCarry a (mulWords ahi bmi) carry0
  let h3 := a.setWidth 32
  let a := (a >>> 32) + BitVec.ofNat 64 carry1 + mulWords ahi bhi
  let h4 := a.setWidth 32
  let a := (a >>> 32) + BitVec.ofNat 64 carry0
  let h5 := a.setWidth 32
  { low := joinWords h1 h0, mid := joinWords h3 h2, high := joinWords h5 h4 }

/-- The step that the long divisions repeat for each word: the quotient of the rest so far and the word `h`, and the
new rest. -/
def divWord (rest h : BitVec 64) (factor : BitVec 32) : BitVec 64 × BitVec 64 :=
  let factor64 := factor.setWidth 64
  let a := rest <<< 32 ||| h >>> 32
  let b := a / factor64
  let a := (a - b * factor64) <<< 32 ||| (h.setWidth 32).setWidth 64
  let c := a / factor64
  (b <<< 32 ||| (c.setWidth 32).setWidth 64, a - c * factor64)

/-- `div192by32`. -/
def div192by32 (x : Dec192) (factor : BitVec 32) : Dec192 :=
  let (high, rest) := divWord 0 x.high factor
  let (mid, rest) := divWord rest x.mid factor
  let (low, _) := divWord rest x.low factor
  { low := low, mid := mid, high := high }

/-! ### Multiplication -/

/-- The first scaling step, which divides until the number nearly fits. It is `none` only without fuel. -/
def scaleDown : Nat → Dec192 → BitVec 32 → Int → Option (Dec192 × Int)
  | 0, _, _, _ => none
  | fuel + 1, c, factor, scale =>
      if c.high ≠ 0 ∨ c.mid >>> 32 ≥ factor.setWidth 64 then
        if c.high < 100 then
          -- Some digits are kept for the final rounding.
          scaleDown fuel (div192by32 c (factor / 1000)) (factor / 1000) (scale - (decimalMaxIntfactors - 3))
        else scaleDown fuel (div192by32 c factor) factor (scale - decimalMaxIntfactors)
      else some (c, scale)

/-- `mono_decimalMult`: the return code and the first decimal afterwards. No product needs more than three passes of
the first step. -/
def monoDecimalMult (pA pB : DecimalRepr) : Option (Int × DecimalRepr) :=
  let c := mult96by96to192 pA.lo32 pA.mid32 pA.hi32 pB.lo32 pB.mid32 pB.hi32
  let scale : Int := pA.scale.toNat + pB.scale.toNat
  let sign := pA.sign ^^ pB.sign
  match scaleDown 4 c (decadeFactor decimalMaxIntfactors) scale with
  | none => none
  | some (c, scale) =>
      match rescale128 { lo := c.low, hi := c.mid } scale 0 0 decimalMaxScale true with
      | none => none
      | some (rc, c, scale) => some (if rc ≠ decimalSuccess then (rc, pA) else pack128toDecimal pA c scale sign)

end MonoRuntime.Decimal
