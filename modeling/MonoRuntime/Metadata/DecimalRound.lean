/-
Module: MonoRuntime.Metadata.DecimalRound
Purpose: The functions of `metadata/decimal.c` that remove digits of one decimal: rounding, floor and truncation, and
  the conversions to integers.
Trusted boundary: human-reviewed translation of the source
Main exports: div128DecadeFactor
-/
import MonoRuntime.Metadata.Decimal

namespace MonoRuntime.Decimal

/-! ### Digits -/

/-- The loop of `div128DecadeFactor`, with the round bit of the last division. -/
def divideRounding : Nat → Nat → Dec128 → Bool → Dec128 × Bool
  | 0, _, a, roundBit => (a, roundBit)
  | fuel + 1, powerOfTen, a, roundBit =>
      if powerOfTen > 0 then
        let idx := if powerOfTen > decimalMaxIntfactors then decimalMaxIntfactors else powerOfTen
        let (roundBit, _, a) := div128by32 a (decadeFactor idx)
        divideRounding fuel (powerOfTen - idx) a roundBit
      else (a, roundBit)

/-- `div128DecadeFactor`; a power that is not positive divides nothing. -/
def div128DecadeFactor (a : Dec128) (powerOfTen : Int) : Dec128 :=
  let (a, roundBit) := divideRounding powerOfTen.toNat powerOfTen.toNat a false
  if roundBit then roundUp128 a else a

/-- The loop of `mono_decimalFloorAndTrunc`, with the flag for a rest in any step. -/
def divideRest : Nat → Nat → Dec128 → Bool → Dec128 × Bool
  | 0, _, a, hasRest => (a, hasRest)
  | fuel + 1, scale, a, hasRest =>
      if scale > 0 then
        let idx := if scale > decimalMaxIntfactors then decimalMaxIntfactors else scale
        let (_, rest, a) := div128by32 a (decadeFactor idx)
        divideRest fuel (scale - idx) a (hasRest || rest ≠ 0)
      else (a, hasRest)

/-! ### Conversions -/

/-- The integer that both conversions start from. -/
def integerPart128 (pA : DecimalRepr) : Dec128 :=
  if pA.scale.toNat > 0 then div128DecadeFactor pA.to128 pA.scale.toNat else pA.to128

/-- `mono_decimal2UInt64`: the return code and the result, which stays on overflow. -/
def monoDecimal2UInt64 (pA : DecimalRepr) (pResult : BitVec 64) : Int × BitVec 64 :=
  let a := integerPart128 pA
  if a.hi ≠ 0 ∨ a.lo ≠ 0 ∧ pA.sign then (decimalOverflow, pResult) else (decimalSuccess, a.lo)

/-- `mono_decimal2Int64`. -/
def monoDecimal2Int64 (pA : DecimalRepr) (pResult : BitVec 64) : Int × BitVec 64 :=
  let a := integerPart128 pA
  if a.hi ≠ 0 then (decimalOverflow, pResult)
  else if pA.sign ∧ a.lo ≠ 0 then
    if a.lo > 0x8000000000000000 then (decimalOverflow, pResult) else (decimalSuccess, ~~~ (a.lo - 1))
  else if a.lo &&& 0x8000000000000000 ≠ 0 then (decimalOverflow, pResult)
  else (decimalSuccess, a.lo)

/-! ### Rounding -/

/-- `mono_decimalFloorAndTrunc`; the return code of the packing is not looked at. -/
def monoDecimalFloorAndTrunc (pA : DecimalRepr) (floorFlag : Bool) : DecimalRepr :=
  let scale := pA.scale.toNat
  if scale = 0 then pA
  else
    let (a, hasRest) := divideRest scale scale pA.to128 false
    let a := if floorFlag ∧ hasRest ∧ pA.sign then roundUp128 a else a
    (pack128toDecimal pA a 0 pA.sign).2

/-- `mono_decimalRound`. -/
def monoDecimalRound (pA : DecimalRepr) (decimals : Int) : DecimalRepr :=
  let scale : Int := pA.scale.toNat
  if scale > decimals then
    (pack128toDecimal pA (div128DecadeFactor pA.to128 (scale - decimals)) decimals pA.sign).2
  else (pack128toDecimal pA pA.to128 scale pA.sign).2

end MonoRuntime.Decimal
