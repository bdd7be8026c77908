/-
Module: MonoRuntime.Utils.StrEnc
Purpose: The checks of UTF-8 in `utils/strenc.c`, `mono_utf8_validate_and_len` with and without a bound, and their copy
  `g_utf8_validate` of eglib. Memory is a list of bytes that begins at the source; a read behind it is the result `none`.
Trusted boundary: human-reviewed translation of the source; addresses do not wrap
Main exports: sequenceValid
-/
import MonoRuntime.Eglib.Utf8

namespace MonoRuntime.StrEnc

/-! ### One sequence -/

/-- `trailingBytesForUTF8`, and its copy in eglib. -/
def trailingBytesForUtf8 (first : Nat) : Nat :=
  if first < 0xC0 then 0
  else if first < 0xE0 then 1
  else if first < 0xF0 then 2
  else if first < 0xF8 then 3
  else if first < 0xFC then 4
  else if first < 0xFE then 5
  else 0

/-- A byte of a sequence, as a number. -/
def byteAt (s : List UInt8) (i : Nat) : Nat :=
  (s.getD i 0).toNat

/-- The test of a following byte. -/
def follows (a : Nat) : Bool :=
  !(a < 0x80 || a > 0xBF)

/-- The noncharacters at the end of a plane from the first one on: the last byte, the one before and the one before
that. -/
def endsPlane (a before first : Nat) : Bool :=
  (a == 0xBF || a == 0xBE) && before == 0xBF && (first == 0x8F || first == 0x9F || first == 0xAF || first == 0xBF)

/-- The inner switch: the first byte, the second one, and the one behind it. -/
def innerSwitch (first a after : Nat) : Bool :=
  if first = 0xE0 then !(a < 0xA0)
  else if first = 0xED then !(a > 0x9F)
  else if first = 0xEF then
    !(a == 0xB7 && (after > 0x8F && after < 0xB0)) && !(a == 0xBF && (after == 0xBE || after == 0xBF))
  else if first = 0xF0 then !(a < 0x90)
  else if first = 0xF4 then !(a > 0x8F)
  else !(a < 0x80)

/-- `case 4`, with the place of the byte that it reads. -/
def caseFour (s : List UInt8) (src : Nat) : Bool :=
  follows (byteAt s src) && !endsPlane (byteAt s src) (byteAt s (src - 1)) (byteAt s (src - 2))

/-- `case 3`. -/
def caseThree (s : List UInt8) (src : Nat) : Bool :=
  follows (byteAt s src)

/-- `case 2`. -/
def caseTwo (s : List UInt8) (src : Nat) : Bool :=
  follows (byteAt s src) && innerSwitch (byteAt s 0) (byteAt s src) (byteAt s (src + 1))

/-- `case 1`. -/
def caseOne (s : List UInt8) : Bool :=
  !(byteAt s 0 ≥ 0x80 && byteAt s 0 < 0xC2)

/-- The switch on the length and the test behind it: whether the sequence leaves `retVal` as it is. The cases fall through
to the next one. -/
def sequenceValid (s : List UInt8) : Bool :=
  (match trailingBytesForUtf8 (byteAt s 0) + 1 with
    | 1 => caseOne s
    | 2 => caseTwo s 1 && caseOne s
    | 3 => caseThree s 2 && caseTwo s 1 && caseOne s
    | 4 => caseFour s 3 && caseThree s 2 && caseTwo s 1 && caseOne s
    | _ => false) && !(byteAt s 0 > 0xF4)

/-! ### The loop -/

/-- The variables of the loop. `oEnd` is nothing where the caller's variable has not been stored to. -/
structure Vars where
  ptr : Nat
  retVal : Bool
  lastRet : Bool
  oEnd : Option Nat
  oLength : Nat
deriving DecidableEq

/-- The variables before the loop. -/
def Vars.start : Vars :=
  { ptr := 0, retVal := true, lastRet := true, oEnd := none, oLength := 0 }

/-- The body of the loop behind the switch, for a sequence of a length. -/
def Vars.next (v : Vars) (length : Nat) (valid : Bool) : Vars :=
  let retVal := v.retVal && valid
  { ptr := v.ptr + length, retVal := retVal, lastRet := v.lastRet && retVal,
    oEnd := if retVal = false ∧ v.lastRet = true then some v.ptr else v.oEnd, oLength := v.oLength + 1 }

/-- What a check returns and stores. -/
structure Verdict where
  result : Bool
  oEnd : Option Nat
  oLength : Nat
deriving DecidableEq

/-- Behind the loop. -/
def Vars.verdict (v : Vars) : Verdict :=
  { result := v.retVal, oEnd := if v.retVal then some v.ptr else v.oEnd, oLength := v.oLength }

/-- The loop, over the memory from `ptr` on, with what else its condition asks of `ptr`, and the test that a sequence fits.
A sequence is read from its last byte on. -/
def scan (more fits : Nat → Bool) (v : Vars) (mem : List UInt8) : Option Verdict :=
  match mem with
  | [] => none
  | c :: rest =>
      if c = 0 ∨ more v.ptr = false then some v.verdict
      else
        let length := trailingBytesForUtf8 c.toNat + 1
        if fits (v.ptr + length) = false then some { v with retVal := false }.verdict
        else if (c :: rest).length < length then none
        else scan more fits (v.next length (sequenceValid (c :: rest))) ((c :: rest).drop length)
termination_by mem.length
decreasing_by
  rw [List.length_drop, List.length_cons]
  omega

/-- `mono_utf8_validate_and_len`. -/
def monoUtf8ValidateAndLen (mem : List UInt8) : Option Verdict :=
  scan (fun _ => true) (fun _ => true) Vars.start mem

/-- `mono_utf8_validate_and_len_with_bounds`. -/
def monoUtf8ValidateAndLenWithBounds (mem : List UInt8) (maxBytes : Int) : Option Verdict :=
  if maxBytes < 1 then some { result := false, oEnd := some 0, oLength := 0 }
  else scan (fun _ => true) (fun srcPtr => decide (srcPtr < maxBytes)) Vars.start mem

/-- What `g_utf8_validate` returns and stores: there is no length. -/
def gUtf8Validate (mem : List UInt8) (maxLen : Int) : Option (Bool × Option Nat) :=
  if maxLen = 0 then some (false, none)
  else
    (scan (fun ptr => if maxLen > 0 then decide (ptr ≤ maxLen) else true) (fun _ => true) Vars.start mem).map
      fun verdict => (verdict.result, verdict.oEnd)

/-! ### What the checks are to tell -/

/-- A Unicode noncharacter. -/
def Noncharacter (c : Char) : Prop :=
  (0xFDD0 ≤ c.val.toNat ∧ c.val.toNat ≤ 0xFDEF) ∨ 0xFFFE ≤ c.val.toNat % 0x10000

/-- The encoding of some characters. -/
def encoding (chars : List Char) : List UInt8 :=
  chars.flatMap String.utf8EncodeChar

/-- None of the characters is a noncharacter. -/
def Plain (chars : List Char) : Prop :=
  ∀ c ∈ chars, ¬ Noncharacter c

/-- Well-formed UTF-8 without noncharacters. -/
def Acceptable (s : List UInt8) : Prop :=
  ∃ chars, s = encoding chars ∧ Plain chars

/-- The number of bytes that the first byte of a string announces; at the end there is only the terminator. -/
def announced : List UInt8 → Nat
  | [] => 0
  | c :: _ => trailingBytesForUtf8 c.toNat + 1

/-- No character that is allowed is encoded in front of the rest of a string. -/
def Invalid (rest : List UInt8) : Prop :=
  rest ≠ [] ∧ ∀ c tail, rest = String.utf8EncodeChar c ++ tail → Noncharacter c

/-- At `e` there is the first sequence of the string that is invalid or does not fit: what is in front of it consists of
characters that do. -/
def FirstBad (maxBytes : Int) (s : List UInt8) (e : Nat) : Prop :=
  ∃ chars rest, s = encoding chars ++ rest ∧ Plain chars ∧ e = (encoding chars).length ∧ (chars ≠ [] → e < maxBytes) ∧
    (Invalid rest ∨ maxBytes ≤ e + announced rest)

/-- What is promised for a string, with the bytes that follow its terminator in memory and a bound. -/
structure Promise (s beyond : List UInt8) (maxBytes : Int) : Prop where
  validates : (∃ v, monoUtf8ValidateAndLen (s ++ 0 :: beyond) = some v ∧ v.result = true) ↔ Acceptable s
  validatesEglib : (∃ e, gUtf8Validate (s ++ 0 :: beyond) (-1) = some (true, e)) ↔ Acceptable s
  validatesBounded :
    (∃ v, monoUtf8ValidateAndLenWithBounds (s ++ 0 :: beyond) (s.length + 1) = some v ∧ v.result = true) ↔ Acceptable s
  stores : ∀ chars, s = encoding chars → Plain chars →
    monoUtf8ValidateAndLen (s ++ 0 :: beyond) = some ⟨true, some s.length, chars.length⟩ ∧
      gUtf8Validate (s ++ 0 :: beyond) (-1) = some (true, some s.length) ∧
      monoUtf8ValidateAndLenWithBounds (s ++ 0 :: beyond) (s.length + 1) = some ⟨true, some s.length, chars.length⟩
  refused : ∀ v, monoUtf8ValidateAndLenWithBounds (s ++ 0 :: beyond) maxBytes = some v → v.result = false →
    ∃ e, v.oEnd = some e ∧ FirstBad maxBytes s e

/-- Every sequence that only characters are in front of fits, or not even one byte does. -/
def Fits (maxBytes : Int) (s : List UInt8) : Prop :=
  maxBytes < 1 ∨ ∀ chars rest, s = encoding chars ++ rest → Plain chars → rest ≠ [] →
    ((encoding chars).length + announced rest : Int) < maxBytes

end MonoRuntime.StrEnc
