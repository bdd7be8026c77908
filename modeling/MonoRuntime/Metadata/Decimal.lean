/-
Module: MonoRuntime.Metadata.Decimal
Purpose: The comparison of `metadata/decimal.c` for `System.Decimal`, with the subtraction that it performs and
  the 128-bit arithmetic under it. Words are bit vectors and an `int` is an integer, since none of these
  overflows here; a failed assertion aborts the process and is the result `none`.
Trusted boundary: human-reviewed translation of the source
Main exports: DecimalRepr
-/
import Mathlib.Algebra.Order.Ring.Int

namespace MonoRuntime.Decimal

/-! ### Representation -/

/-- `decimal_repr`; its reserved bits are read by none of these functions. -/
structure DecimalRepr where
  sign : Bool
  scale : BitVec 8
  hi32 : BitVec 32
  mid32 : BitVec 32
  lo32 : BitVec 32
deriving DecidableEq, Repr

/-- `dec128_repr`: two words that are handed on together. -/
structure Dec128 where
  lo : BitVec 64
  hi : BitVec 64
deriving DecidableEq, Repr

def decimalMaxScale : Nat := 28
def decimalMaxIntfactors : Nat := 9

def decimalSuccess : Int := 0
def decimalOverflow : Int := 2
def decimalInternalError : Int := 3

def decimalLogNeginf : Int := -1000

/-- `constantsDecadeInt32Factors`. -/
def constantsDecadeInt32Factors : List (BitVec 32) :=
  [1, 10, 100, 1000, 10000, 100000, 1000000, 10000000, 100000000, 1000000000]

/-- The entry of the table. -/
def decadeFactor (idx : Nat) : BitVec 32 :=
  constantsDecadeInt32Factors.getD idx 0

/-- Two halves of a word. -/
def joinWords (hi lo : BitVec 32) : BitVec 64 :=
  hi.setWidth 64 <<< 32 ||| lo.setWidth 64

/-- `DECTO128`. -/
def DecimalRepr.to128 (d : DecimalRepr) : Dec128 :=
  { lo := joinWords d.mid32 d.lo32, hi := d.hi32.setWidth 64 }

/-! ### 128-bit arithmetic -/

def add128 (a b : Dec128) : Dec128 :=
  let lo := a.lo + b.lo
  let hi := if lo < b.lo then a.hi + 1 else a.hi
  { lo := lo, hi := hi + b.hi }

def sub128 (a b : Dec128) : Dec128 :=
  let lo := a.lo - b.lo
  let hi := a.hi - b.hi
  { lo := lo, hi := if a.lo < b.lo then hi - 1 else hi }

/-- The negation that follows a subtraction below zero. -/
def negate128 (a : Dec128) : Dec128 :=
  let lo := ~~~ (a.lo - 1)
  let hi := if lo = 0 then a.hi - 1 else a.hi
  { lo := lo, hi := ~~~ hi }

/-- `mult128by32`. -/
def mult128by32 (c : Dec128) (factor : BitVec 32) (roundBit : Bool) : Int × Dec128 :=
  let factor64 := factor.setWidth 64
  let a := (c.lo.setWidth 32).setWidth 64 * factor64
  let a := if roundBit then a + (factor / 2).setWidth 64 else a
  let h0 := a.setWidth 32
  let a := (a >>> 32) + (c.lo >>> 32) * factor64
  let h1 := a.setWidth 32
  let lo := joinWords h1 h0
  let a := (a >>> 32) + (c.hi.setWidth 32).setWidth 64 * factor64
  let h0 := a.setWidth 32
  let a := (a >>> 32) + (c.hi >>> 32) * factor64
  let h1 := a.setWidth 32
  (if a >>> 32 = 0 then decimalSuccess else decimalOverflow, { lo := lo, hi := joinWords h1 h0 })

/-- `div128by32`: the round bit, the rest and the quotient. -/
def div128by32 (x : Dec128) (factor : BitVec 32) : Bool × BitVec 32 × Dec128 :=
  let factor64 := factor.setWidth 64
  let a := x.hi >>> 32
  let b := a / factor64
  let a := (a - b * factor64) <<< 32 ||| (x.hi.setWidth 32).setWidth 64
  let c := a / factor64
  let a := (a - c * factor64) <<< 32
  let hi := b <<< 32 ||| (c.setWidth 32).setWidth 64
  let a := a ||| x.lo >>> 32
  let b := a / factor64
  let a := (a - b * factor64) <<< 32 ||| (x.lo.setWidth 32).setWidth 64
  let c := a / factor64
  let a := a - c * factor64
  let lo := b <<< 32 ||| (c.setWidth 32).setWidth 64
  let rest := a.setWidth 32
  let a := a <<< 1
  (a ≥ factor64 ∨ a = factor64 ∧ c &&& 1 = 1, rest, { lo := lo, hi := hi })

def roundUp128 (c : Dec128) : Dec128 :=
  let lo := c.lo + 1
  { lo := lo, hi := if lo = 0 then c.hi + 1 else c.hi }

def rshift128 (c : Dec128) : Dec128 :=
  { lo := c.lo >>> 1 ||| (c.hi &&& 1) <<< 63, hi := c.hi >>> 1 }

/-- The bits of the upper word above the 96 bits of a mantissa. -/
def Dec128.overhang (c : Dec128) : BitVec 32 :=
  (c.hi >>> 32).setWidth 32

/-! ### Logarithms -/

/-- `my_g_bit_nth_msf`, the place of the highest bit. -/
def myGBitNthMsf (mask : BitVec 64) : Int :=
  if mask = 0 then -1 else mask.toNat.log2

def log2Of32 (a : BitVec 32) : Int :=
  if a = 0 then decimalLogNeginf else myGBitNthMsf (a.setWidth 64) + 1

def log2Of64 (a : BitVec 64) : Int :=
  if a = 0 then decimalLogNeginf else myGBitNthMsf a + 1

def log2Of128 (a : Dec128) : Int :=
  if a.hi = 0 then log2Of64 a.lo else log2Of64 a.hi + 64

/-- What the scale takes from a logarithm. -/
def scaleLog2 (scale : Int) : Int :=
  (scale * 33219).tdiv 10000

/-- `log2withScale_128`. -/
def log2withScale128 (a : Dec128) (scale : Int) : Int :=
  let tlog2 := log2Of128 a
  (if tlog2 < 0 then 0 else tlog2) - scaleLog2 scale

/-- `decimalLog2`. -/
def decimalLog2 (d : DecimalRepr) : Int :=
  let tlog2 :=
    if d.hi32 ≠ 0 then 64 + log2Of32 d.hi32
    else if d.mid32 ≠ 0 then 32 + log2Of32 d.mid32
    else log2Of32 d.lo32
  if tlog2 ≠ decimalLogNeginf then tlog2 - scaleLog2 d.scale.toNat else tlog2

/-! ### Scales -/

/-- The inner loop of `normalize128`: the number of digits of the overhang, at most nine. -/
def overhangDigits (overhang : BitVec 32) : Nat :=
  ((List.range' 1 (decimalMaxIntfactors - 1)).find? fun digits => overhang < decadeFactor digits).getD
    decimalMaxIntfactors

/-- The outer loop of `normalize128`. Every pass takes something from the scale, so that the fuel is not used
up before the scale is negative. -/
def normalizeLoop (roundFlag : Bool) :
    Nat → Dec128 → Int → Bool → BitVec 32 → Option (Dec128 × Int × Bool)
  | 0, _, _, _, _ => none
  | fuel + 1, c, scale, roundBit, overhang =>
      if overhang = 0 then some (c, scale, roundBit)
      else
        let deltaScale := overhangDigits overhang
        let scale := scale - deltaScale
        if scale < 0 then none
        else
          let (roundBit, _, c) := div128by32 c (decadeFactor deltaScale)
          let overhang :=
            if roundFlag ∧ roundBit ∧ c.lo = BitVec.allOnes 64 ∧ c.hi.setWidth 32 = BitVec.allOnes 32 then 1
            else c.overhang
          normalizeLoop roundFlag fuel c scale roundBit overhang

/-- `normalize128`; on overflow only the return code is used. -/
def normalize128 (c : Dec128) (scale : Int) (roundFlag roundBit : Bool) : Int × Dec128 × Int :=
  match normalizeLoop roundFlag (scale.toNat + 1) c scale roundBit c.overhang with
  | none => (decimalOverflow, c, scale)
  | some (c, scale, roundBit) =>
      (decimalSuccess, if roundFlag ∧ roundBit then roundUp128 c else c, scale)

/-- The dividing loop of `adjustScale128`. -/
def divideDecades : Nat → Nat → Dec128 → Dec128
  | 0, _, a => a
  | fuel + 1, deltaScale, a =>
      if deltaScale = 0 then a
      else
        let idx := if deltaScale > decimalMaxIntfactors then decimalMaxIntfactors else deltaScale
        divideDecades fuel (deltaScale - idx) (div128by32 a (decadeFactor idx)).2.2

/-- The multiplying loop of `adjustScale128`. -/
def multiplyDecades : Nat → Nat → Dec128 → Int × Dec128
  | 0, _, a => (decimalSuccess, a)
  | fuel + 1, deltaScale, a =>
      if deltaScale = 0 then (decimalSuccess, a)
      else
        let idx := if deltaScale > decimalMaxIntfactors then decimalMaxIntfactors else deltaScale
        let (rc, a) := mult128by32 a (decadeFactor idx) false
        if rc ≠ decimalSuccess then (rc, a) else multiplyDecades fuel (deltaScale - idx) a

/-- `adjustScale128`. -/
def adjustScale128 (a : Dec128) (deltaScale : Int) : Int × Dec128 :=
  if deltaScale < 0 then
    let deltaScale := (deltaScale * -1).toNat
    if deltaScale > decimalMaxScale then (decimalInternalError, a)
    else (decimalSuccess, divideDecades deltaScale deltaScale a)
  else if deltaScale > 0 then
    let deltaScale := deltaScale.toNat
    if deltaScale > decimalMaxScale then (decimalInternalError, a)
    else multiplyDecades deltaScale deltaScale a
  else (decimalSuccess, a)

/-! ### `rescale128` -/

/-- The variables of `rescale128`. -/
structure Rescale where
  c : Dec128
  scale : Int
  texp : Nat
  roundBit : Bool
deriving DecidableEq, Repr

/-- One bit is shifted out. -/
def Rescale.shift (s : Rescale) : Rescale :=
  { s with
    c := rshift128 s.c
    texp := s.texp - 1
    roundBit := if s.texp - 1 = 0 then s.c.lo.getLsbD 0 else s.roundBit }

/-- The shift by several bits at the begin of a pass, with the overhang. -/
def shiftMany (s : Rescale) : Option (Rescale × BitVec 32) :=
  let overhang := s.c.overhang
  if overhang > 0 then
    let msf := myGBitNthMsf (overhang.setWidth 64)
    let shift := msf - (decimalMaxIntfactors + 2)
    let shift := if shift ≥ s.texp then (s.texp : Int) - 1 else shift
    if shift > 0 then
      let n := shift.toNat
      let lo := s.c.lo >>> n ||| (s.c.hi &&& BitVec.ofNat 64 (2 ^ n - 1)) <<< (64 - n)
      let s := { s with c := { lo := lo, hi := s.c.hi >>> n }, texp := s.texp - n }
      let overhang := overhang >>> n
      -- Both assertions of the source.
      if s.texp > 0 ∧ overhang > BitVec.ofNat 32 (2 <<< decimalMaxIntfactors) then some (s, overhang) else none
    else some (s, overhang)
  else some (s, overhang)

/-- The inner loop of a pass; every round lowers the exponent. -/
def shiftLoop : Nat → Rescale → BitVec 32 → Rescale
  | 0, s, _ => s
  | fuel + 1, s, overhang =>
      if s.texp > 0 ∧ (overhang > BitVec.ofNat 32 (2 <<< decimalMaxIntfactors) ∨ s.c.lo &&& 1 = 0) then
        shiftLoop fuel s.shift (overhang >>> 1)
      else s

/-- The passes that replace powers of two by powers of ten; every pass lowers the exponent. -/
def reduceExp (maxScale : Int) : Nat → Rescale → Option Rescale
  | 0, s => some s
  | fuel + 1, s =>
      if s.texp > 0 ∧ s.scale ≤ maxScale then
        match shiftMany s with
        | none => none
        | some (s, overhang) =>
            let s := shiftLoop s.texp s overhang
            let i : Int := if s.texp > decimalMaxIntfactors then decimalMaxIntfactors else s.texp
            let i := if s.scale + i > maxScale then maxScale - s.scale else i
            if i = 0 then some s
            else
              let factor := decadeFactor i.toNat >>> i.toNat
              reduceExp maxScale fuel
                { s with texp := s.texp - i.toNat, scale := s.scale + i, c := (mult128by32 s.c factor false).2 }
      else some s

/-- The rest of the exponent is shifted out. -/
def shiftRest : Nat → Rescale → Rescale
  | 0, s => s
  | fuel + 1, s => if s.texp > 0 then shiftRest fuel s.shift else s

/-- Digits are dropped down to the greatest scale. -/
def dropDigits (maxScale : Int) : Nat → Rescale → Rescale
  | 0, s => s
  | fuel + 1, s =>
      if s.scale > maxScale then
        let i := s.scale - maxScale
        let i := if i > decimalMaxIntfactors then (decimalMaxIntfactors : Int) else i
        let (roundBit, _, c) := div128by32 s.c (decadeFactor i.toNat)
        dropDigits maxScale fuel { s with c := c, scale := s.scale - i, roundBit := roundBit }
      else s

/-- Digits are added up to the smallest scale. -/
def addDigits (minScale : Int) (roundFlag : Bool) : Nat → Rescale → Int × Rescale
  | 0, s => (decimalSuccess, s)
  | fuel + 1, s =>
      if s.scale < minScale then
        let roundBit := if roundFlag then s.roundBit else false
        let i := minScale - s.scale
        let i := if i > decimalMaxIntfactors then (decimalMaxIntfactors : Int) else i
        let (rc, c) := mult128by32 s.c (decadeFactor i.toNat) roundBit
        let s := { s with c := c, scale := s.scale + i }
        if rc ≠ decimalSuccess then (rc, s)
        else addDigits minScale roundFlag fuel { s with roundBit := false }
      else (decimalSuccess, s)

/-- `rescale128`: the fuel of a loop is the amount by which its variable can change. -/
def rescale128 (c : Dec128) (scale : Int) (texp : Nat) (minScale maxScale : Int) (roundFlag : Bool) :
    Option (Int × Dec128 × Int) :=
  match reduceExp maxScale texp { c := c, scale := scale, texp := texp, roundBit := false } with
  | none => none
  | some s =>
      let s := shiftRest s.texp s
      let s := dropDigits maxScale (s.scale - maxScale).toNat s
      let (rc, s) := addDigits minScale roundFlag (minScale - s.scale).toNat s
      if rc ≠ decimalSuccess then some (rc, s.c, scale)
      else some (normalize128 s.c s.scale roundFlag s.roundBit)

/-! ### Addition -/

/-- `pack128toDecimal`; without success the decimal stays. -/
def pack128toDecimal (d : DecimalRepr) (a : Dec128) (scale : Int) (sign : Bool) : Int × DecimalRepr :=
  if scale < 0 ∨ scale > decimalMaxScale ∨ a.hi >>> 32 ≠ 0 then (decimalOverflow, d)
  else
    (decimalSuccess,
      { sign := sign, scale := BitVec.ofInt 8 scale, lo32 := a.lo.setWidth 32,
        mid32 := (a.lo >>> 32).setWidth 32, hi32 := a.hi.setWidth 32 })

/-- The sum or the difference of the mantissas, and its sign. -/
def combine128 (subFlag sign : Bool) (a b : Dec128) : Bool × Dec128 :=
  if subFlag then
    let c := sub128 a b
    if c.hi.msb then (!sign, negate128 c) else (sign, c)
  else (sign, add128 a b)

/-- `mono_decimalIncr`: the return code and the first decimal afterwards. -/
def monoDecimalIncr (pA pB : DecimalRepr) : Option (Int × DecimalRepr) :=
  let a := pA.to128
  let b := pB.to128
  let subFlag := pA.sign != pB.sign
  let scaleA : Int := pA.scale.toNat
  let scaleB : Int := pB.scale.toNat
  if scaleA = scaleB then
    let (sign, c) := combine128 subFlag pA.sign a b
    let (rc, c, scale) := normalize128 c scaleA true false
    some (if rc ≠ decimalSuccess then (rc, pA) else pack128toDecimal pA c scale sign)
  else
    let log2A := log2withScale128 a scaleA
    let log2B := log2withScale128 b scaleB
    let log2Result := max log2A log2B
    let log2Result := if subFlag then log2Result else log2Result + 1
    let log10Result := (log2Result * 1000).tdiv 3322 + 1
    let scale := if scaleB > scaleA then scaleB else scaleA
    let scale := if scale + log10Result > decimalMaxScale + 7 then decimalMaxScale + 7 - log10Result else scale
    let (rc, a) := adjustScale128 a (scale - pA.scale.toNat)
    if rc ≠ decimalSuccess then some (rc, pA)
    else
      let (rc, b) := adjustScale128 b (scale - scaleB)
      if rc ≠ decimalSuccess then some (rc, pA)
      else
        let (sign, c) := combine128 subFlag pA.sign a b
        match rescale128 c scale 0 0 decimalMaxScale true with
        | none => none
        | some (rc, c, scale) =>
            some (if rc ≠ decimalSuccess then (rc, pA) else pack128toDecimal pA c scale sign)

/-! ### Comparison -/

def decimalIsZero (d : DecimalRepr) : Bool :=
  d.lo32 = 0 ∧ d.mid32 = 0 ∧ d.hi32 = 0

/-- `mono_decimalCompare`; the return code of the subtraction is not looked at. -/
def monoDecimalCompare (pA pB : DecimalRepr) : Option Int :=
  let sign : Int := if pA.sign then -1 else 1
  if pA.sign ≠ pB.sign then
    some (if decimalIsZero pA ∧ decimalIsZero pB then 0 else sign)
  else
    let delta := decimalLog2 pA - decimalLog2 pB
    if delta < -1 then some (-sign)
    else if delta > 1 then some sign
    else
      match monoDecimalIncr { pA with sign := !pA.sign } pB with
      | none => none
      | some (_, aa) => some (if decimalIsZero aa then 0 else if aa.sign then 1 else -1)

end MonoRuntime.Decimal
