/-
Module: MonoRuntime.Metadata.DecimalDouble
Purpose: The conversion of `metadata/decimal.c` from a decimal to the 64 bits of a double. The word order of one old
  floating-point unit is left out.
Trusted boundary: human-reviewed translation of the source
Main exports: buildIEEE754Double
-/
import MonoRuntime.Metadata.DecimalDiv

namespace MonoRuntime.Decimal

/-- `buildIEEE754Double`. -/
def buildIEEE754Double (sign : Bool) (texp : Int) (mantisse : BitVec 64) : BitVec 64 :=
  (BitVec.ofBool sign).setWidth 64 <<< 63 ||| (BitVec.ofInt 64 (1023 + texp) &&& 0x7ff) <<< 52 ||| mantisse

/-- The power of five by which a pass divides. -/
def fiveDigits (overhang : BitVec 32) (scale : Nat) : Nat :=
  let log5 := ((log2Of32 overhang * 1000).tdiv 2322).toNat
  let i :=
    if log5 < decimalMaxIntfactors then log5 + (overhang / (decadeFactor log5 >>> log5)).toNat
    else decimalMaxIntfactors
  if i > scale then scale else i

/-- The loop that trades the scale for the binary exponent. It is `none` only without fuel. -/
def reduceScale : Nat → Dec128 → Nat → Nat → Option (Dec128 × Nat)
  | 0, a, texp, scale => if scale > 0 then none else some (a, texp)
  | fuel + 1, a, texp, scale =>
      if scale > 0 then
        match shiftToTop lshift128 (·.hi.msb) 128 a texp with
        | none => none
        | some (a, texp) =>
            if a.overhang ≥ 5 then
              let i := fiveDigits a.overhang scale
              reduceScale fuel (div128by32 a (decadeFactor i >>> i)).2.2 (texp + i) (scale - i)
            else reduceScale fuel a texp scale
      else some (a, texp)

/-- The rounding of the normalized significand and the fields that it is put into. -/
def roundSignificand (sign : Bool) (hi : BitVec 64) (texp : Nat) : BitVec 64 :=
  let roundBits := hi &&& 0x7ff
  let ahi := hi + 0x400
  let (ahi, texp) : BitVec 64 × Int :=
    if ahi.msb = false then (ahi >>> 1, texp - 1)
    else if roundBits &&& 0x400 = 0 then (ahi &&& ~~~ 1, texp)
    else (ahi, texp)
  buildIEEE754Double sign (-texp + 95) ((ahi &&& ~~~ 0x8000000000000000) >>> 11)

/-- `mono_decimal2double`. -/
def monoDecimal2double (pA : DecimalRepr) : Option (BitVec 64) :=
  let a : Dec128 := { lo := pA.lo32.setWidth 64 <<< 32, hi := joinWords pA.hi32 pA.mid32 }
  if a.hi = 0 ∧ a.lo = 0 then some 0
  else
    match reduceScale pA.scale.toNat a 0 pA.scale.toNat with
    | none => none
    | some (a, texp) =>
        match shiftToTop lshift128 (·.hi.msb) 128 a texp with
        | none => none
        | some (a, texp) => some (roundSignificand pA.sign a.hi texp)

end MonoRuntime.Decimal
