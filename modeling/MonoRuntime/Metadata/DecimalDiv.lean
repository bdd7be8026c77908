/-
Module: MonoRuntime.Metadata.DecimalDiv
Purpose: The divisions of `metadata/decimal.c`: the quotient as a binary fraction of 128 bits from a long division
  whose last word is estimated, the scaling that turns it into a decimal, and the two functions over them.
Trusted boundary: human-reviewed translation of the source
Main exports: Dec96
-/
import MonoRuntime.Metadata.DecimalMult

namespace MonoRuntime.Decimal

def decimalFinished : Int := 1
def decimalDivideByZero : Int := 5

/-- The three words of a divisor. -/
structure Dec96 where
  lo : BitVec 32
  mid : BitVec 32
  hi : BitVec 32
deriving DecidableEq, Repr

/-! ### 192-bit arithmetic -/

def sub192 (a b : Dec192) : Dec192 :=
  let low := a.low - b.low
  let mid := a.mid - b.mid
  let high := a.high - b.high
  let high := if a.low < b.low ∧ mid = 0 then high - 1 else high
  let mid := if a.low < b.low then mid - 1 else mid
  { low := low, mid := mid, high := if a.mid < b.mid then high - 1 else high }

def add192 (a b : Dec192) : Dec192 :=
  let low := a.low + b.low
  let mid := if low < b.low then a.mid + 1 else a.mid
  let high := if low < b.low ∧ mid = 0 then a.high + 1 else a.high
  let mid := mid + b.mid
  let high := if mid < b.mid then high + 1 else high
  { low := low, mid := mid, high := high + b.high }

/-- `mult96by32to128`. -/
def mult96by32to128 (a : Dec96) (factor : BitVec 32) : Dec128 :=
  let x := mulWords a.lo factor
  let h0 := x.setWidth 32
  let x := (x >>> 32) + mulWords a.mid factor
  let h1 := x.setWidth 32
  let x := (x >>> 32) + mulWords a.hi factor
  { lo := joinWords h1 h0, hi := x }

/-- The divisor in the upper words of a term. -/
def Dec96.term (b : Dec96) : Dec192 :=
  { low := 0, mid := joinWords b.mid b.lo, high := b.hi.setWidth 64 }

/-- The loop of `div192by96to32withRest` that lowers an estimated digit while the remainder is negative. -/
def lowerDigit (b : Dec96) : Nat → BitVec 32 → Dec192 → Option (BitVec 32 × Dec192)
  | 0, _, _ => none
  | fuel + 1, c, r =>
      if r.high.toInt < 0 then lowerDigit b fuel (c - 1) (add192 r b.term) else some (c, r)

/-- `div192by96to32withRest`: a digit of 32 bits and the remainder. The estimate is at most two too high. -/
def div192by96to32withRest (a : Dec192) (b : Dec96) : Option (BitVec 32 × Dec192) :=
  let bhi := b.hi.setWidth 64
  let c := if a.high ≥ bhi <<< 32 then BitVec.allOnes 32 else (a.high / bhi).setWidth 32
  let t := mult96by32to128 b c
  lowerDigit b 3 c (sub192 a { low := 0, mid := t.lo, high := t.hi })

/-- The remainder before the next digit. -/
def Dec192.nextDigit (r : Dec192) : Dec192 :=
  { low := r.low <<< 32, mid := r.mid <<< 32 ||| r.low >>> 32, high := r.high <<< 32 ||| r.mid >>> 32 }

/-- The last digit of `div192by96to128`, an estimate. -/
def estimateDigit (r : Dec192) (b : Dec96) : BitVec 32 :=
  let bhi := b.hi.setWidth 64
  if r.high ≥ bhi then BitVec.allOnes 32 else ((r.high <<< 32) / bhi).setWidth 32

/-- `div192by96to128`. -/
def div192by96to128 (a : Dec192) (b : Dec96) : Option Dec128 :=
  match div192by96to32withRest a b with
  | none => none
  | some (high, r) =>
      match div192by96to32withRest r.nextDigit b with
      | none => none
      | some (mid, r) =>
          match div192by96to32withRest r.nextDigit b with
          | none => none
          | some (low, r) => some { lo := joinWords low (estimateDigit r b), hi := joinWords high mid }

/-! ### Normalized operands -/

/-- `lshift96`. -/
def lshift96 (c : Dec96) : Dec96 :=
  { lo := c.lo <<< 1
    mid := c.mid <<< 1 ||| (c.lo &&& 0x80000000) >>> 31
    hi := c.hi <<< 1 ||| (c.mid &&& 0x80000000) >>> 31 }

/-- `lshift128`. -/
def lshift128 (c : Dec128) : Dec128 :=
  { lo := c.lo <<< 1, hi := c.hi <<< 1 ||| (c.lo &&& 0x8000000000000000) >>> 63 }

/-- The loops that shift a number to the left until its highest bit is set, and count. It is `none` only without
fuel. -/
def shiftToTop {α : Type} (shift : α → α) (isTop : α → Bool) : Nat → α → Nat → Option (α × Nat)
  | 0, _, _ => none
  | fuel + 1, x, count =>
      if isTop x then some (x, count) else shiftToTop shift isTop fuel (shift x) (count + 1)

/-- The dividend is enlarged to get maximal precision. -/
def enlargeDividend (a : Dec128) : Option (Dec128 × Nat) :=
  if a.hi = 0 then
    match shiftToTop (fun hi : BitVec 64 => hi <<< 1) (·.msb) 64 a.lo 64 with
    | none => none
    | some (hi, ashift) => some ({ lo := 0, hi := hi }, ashift)
  else shiftToTop lshift128 (·.hi.msb) 64 a 0

/-- The divisor is shifted to at least 2^95. -/
def enlargeDivisor (b : Dec96) : Option (Dec96 × Nat) :=
  if b.hi = 0 then
    if b.mid = 0 then
      let shift := (31 - myGBitNthMsf (b.lo.setWidth 64)).toNat
      some ({ lo := 0, mid := 0, hi := b.lo <<< shift }, 64 + shift)
    else
      -- The lowest word is zero, so that the source shifts the other two only.
      shiftToTop lshift96 (·.hi.msb) 32 { lo := 0, mid := b.lo, hi := b.mid } 32
  else shiftToTop lshift96 (·.hi.msb) 32 b 0

/-! ### Division -/

/-- The right shift that loses nothing, with the exponent that is left. -/
def dropZeros : Nat → Dec128 → Dec128 × Nat
  | 0, c => (c, 0)
  | texp + 1, c => if c.lo &&& 1 = 0 then dropZeros texp (rshift128 c) else (c, texp + 1)

/-- The quotient of normalized operands as a binary fraction, with its exponent. -/
def binaryQuotient (a : Dec128) (ashift : Nat) (b : Dec96) (bshift : Nat) : Option (Dec128 × Nat) :=
  let a : Dec192 := { low := 0, mid := a.lo, high := a.hi }
  let t : Dec192 := { low := 0, mid := b.lo.setWidth 64 <<< 32, high := joinWords b.hi b.mid }
  let extraBit : Bool := a.high > t.high ∨ a.high = t.high ∧ a.mid ≥ t.mid
  match div192by96to128 (if extraBit then sub192 a t else a) b with
  | none => none
  | some c =>
      let texp := 128 + ashift - bshift
      if extraBit then
        let c := rshift128 c
        some (dropZeros (texp - 1) { c with hi := c.hi + 0x8000000000000000 })
      else some (dropZeros texp c)

/-- `decimalDivSub`: the return code, the number and its exponent. Without success the last two are not used. -/
def decimalDivSub (pA pB : DecimalRepr) : Option (Int × Dec128 × Nat) :=
  let a : Dec128 := { lo := pA.lo32.setWidth 64 <<< 32, hi := joinWords pA.hi32 pA.mid32 }
  let b : Dec96 := { lo := pB.lo32, mid := pB.mid32, hi := pB.hi32 }
  if b.lo = 0 ∧ b.mid = 0 ∧ b.hi = 0 then some (decimalDivideByZero, { lo := 0, hi := 0 }, 0)
  else if a.lo = 0 ∧ a.hi = 0 then some (decimalFinished, { lo := 0, hi := 0 }, 0)
  else
    match enlargeDividend a with
    | none => none
    | some (a, ashift) =>
        match enlargeDivisor b with
        | none => none
        | some (b, bshift) =>
            match binaryQuotient a ashift b bshift with
            | none => none
            | some (c, texp) => some (decimalSuccess, c, texp)

/-- What a division leaves: the return code, the result and the first operand. -/
structure Division where
  rc : Int
  pC : DecimalRepr
  pA : DecimalRepr
deriving DecidableEq, Repr

/-- The part that both divisions share: without success the result stays as it was. -/
def divideScaled (pC pA pB : DecimalRepr) (maxScale : Int) (roundFlag sign : Bool) : Option Division :=
  match decimalDivSub pA pB with
  | none => none
  | some (rc, c, texp) =>
      if rc ≠ decimalSuccess then
        some { rc := if rc = decimalFinished then decimalSuccess else rc, pC := pC, pA := pA }
      else
        match rescale128 c ((pA.scale.toNat : Int) - pB.scale.toNat) texp 0 maxScale roundFlag with
        | none => none
        | some (rc, c, scale) =>
            if rc ≠ decimalSuccess then some { rc := rc, pC := pC, pA := pA }
            else
              let (rc, pC) := pack128toDecimal pC c scale sign
              some { rc := rc, pC := pC, pA := pA }

/-- The common cases of `mono_decimalDiv`: the result is one or minus one. -/
def divideEqual (pC pA : DecimalRepr) (sign : Bool) : Division :=
  let (rc, pC) := pack128toDecimal pC { lo := 1, hi := 0 } 0 sign
  { rc := rc, pC := pC, pA := pA }

/-- `mono_decimalDiv`. -/
def monoDecimalDiv (pC pA pB : DecimalRepr) : Option Division :=
  match monoDecimalCompare pA pB with
  | none => none
  | some order =>
      if order = 0 then some (divideEqual pC pA false)
      else
        let pA := { pA with sign := !pA.sign }
        match monoDecimalCompare pA pB with
        | none => none
        | some order =>
            -- The sign of the first operand is not turned back here.
            if order = 0 then some (divideEqual pC pA true)
            else
              let pA := { pA with sign := !pA.sign }
              divideScaled pC pA pB decimalMaxScale true (pA.sign ^^ pB.sign)

/-- `mono_decimalIntDiv`. -/
def monoDecimalIntDiv (pC pA pB : DecimalRepr) : Option Division :=
  divideScaled pC pA pB 0 false pA.sign

end MonoRuntime.Decimal
