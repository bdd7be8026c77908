/-
Module: MonoRuntime.Eglib.Utf8
Purpose: The conversions of eglib between UTF-8 and UTF-16, each a counting pass and a converting pass over the same input, and the pieces that a byte string falls into.
Trusted boundary: `glong` holds every length
Main exports: Text
-/
import Mathlib.Algebra.Order.Ring.Int

namespace MonoRuntime.Utf8

/-! ### Arguments and results -/

/-- A buffer that a terminator follows, with the length that the caller gives. -/
structure Text (α : Type) where
  cells : List α
  len : Int
  inside : len ≤ cells.length

/-- What the loops run over: `len` cells, or everything before the first NUL when `len` is
negative. -/
def Text.input {α : Type} [DecidableEq α] [OfNat α 0] (text : Text α) : List α :=
  if text.len < 0 then text.cells.takeWhile (fun cell => cell ≠ 0)
  else text.cells.take text.len.toNat

/-- The reasons for which a counting pass refuses its input. -/
inductive ConvertError where
  | illegalFirstByte
  | overlong
  | codepointRangeExcess
  | illegalFollowingBytes
  | missingSurrogateTail
  | missingSurrogateHead
deriving Repr, DecidableEq

/-- The texts of the errors. -/
def ConvertError.message : ConvertError → String
  | .illegalFirstByte => "invalid utf-8 sequence at %d (illegal first byte)"
  | .overlong => "invalid utf-8 sequence at %d (overlong)"
  | .codepointRangeExcess => "invalid utf-8 sequence at %d (codepoint range excess)"
  | .illegalFollowingBytes => "invalid utf-8 sequence at %d (illegal following bytes)"
  | .missingSurrogateTail => "invalid utf-16 sequence at %d (missing surrogate tail)"
  | .missingSurrogateHead => "invalid utf-16 sequence at %d (missing surrogate head)"

/-- An error and the position that it names, which is also stored to `items_read`. -/
structure Failure where
  error : ConvertError
  position : Nat
deriving Repr, DecidableEq

/-- What a conversion returns: the cells that it allocated, all that it stored through `ret`, and
its two output counts. -/
structure Converted (β : Type) where
  allocated : Nat
  stored : List β
  itemsRead : Nat
  itemsWritten : Nat
deriving Repr, DecidableEq

/-! ### From UTF-8 to UTF-16 -/

/-- The payload and the length that a first byte announces. -/
def leadByte (ch : UInt8) : Option (Nat × Nat) :=
  if ch &&& 0xE0 = 0xC0 then some ((ch &&& 0x1F).toNat, 2)
  else if ch &&& 0xF0 = 0xE0 then some ((ch &&& 0x0F).toNat, 3)
  else if ch &&& 0xF8 = 0xF0 then some ((ch &&& 7).toNat, 4)
  else if ch &&& 0xFC = 0xF8 then some ((ch &&& 3).toNat, 5)
  else if ch &&& 0xFE = 0xFC then some ((ch &&& 3).toNat, 6)
  else none

/-- The test for a following byte. -/
def continues (ch : UInt8) : Bool :=
  ch &&& 0xC0 = 0x80

/-- `codepoint = (codepoint << 6) | (ch & 0x3F)` in 32 bits. -/
def accumulate (codepoint : Nat) (ch : UInt8) : Nat :=
  (codepoint <<< 6 ||| (ch &&& 0x3F).toNat) % 2 ^ 32

/-- The variables `codepoint`, `mb_size` and `mb_remain` of both passes. -/
structure Decoding where
  codepoint : Nat
  mbSize : Nat
  mbRemain : Nat
deriving Repr, DecidableEq

/-- The variables between two characters. -/
def Decoding.reset : Decoding :=
  { codepoint := 0, mbSize := 0, mbRemain := 0 }

/-- The thresholds below which a character counts as overlong. -/
def overlong (mbSize codepoint : Nat) : Bool :=
  match mbSize with
  | 2 => codepoint < 0x7F
  | 3 => codepoint < 0x7FF
  | 4 => codepoint < 0xFFFF
  | 5 => codepoint < 0x1FFFFF
  | 6 => codepoint < 0x03FFFFFF
  | _ => false

/-- An invalid sequence is an error when the caller asks for errors, and else it is skipped. -/
def invalid (error : Bool) (reason : ConvertError) : Except ConvertError (Decoding × Nat) :=
  if error then .error reason else .ok (Decoding.reset, 0)

/-- The counting pass at the last byte of a character. -/
def countCharacter (error : Bool) (mbSize codepoint : Nat) : Except ConvertError (Decoding × Nat) :=
  if codepoint < 0x10000 then
    if overlong mbSize codepoint then invalid error .overlong
    else .ok ({ codepoint := codepoint, mbSize := 0, mbRemain := 0 }, 1)
  else if codepoint < 0x110000 then .ok ({ codepoint := codepoint, mbSize := 0, mbRemain := 0 }, 2)
  else invalid error .codepointRangeExcess

/-- One byte of the counting pass: the new variables and what is added to `ret`. -/
def countByte (error : Bool) (s : Decoding) (ch : UInt8) : Except ConvertError (Decoding × Nat) :=
  if s.mbSize = 0 then
    if ch < 0x80 then .ok (s, 1)
    else
      match leadByte ch with
      | some (codepoint, mbSize) =>
          .ok ({ codepoint := codepoint, mbSize := mbSize, mbRemain := mbSize - 1 }, 0)
      | none => invalid error .illegalFirstByte
  else if continues ch then
    let codepoint := accumulate s.codepoint ch
    if s.mbRemain - 1 = 0 then countCharacter error s.mbSize codepoint
    else .ok ({ s with codepoint := codepoint, mbRemain := s.mbRemain - 1 }, 0)
  else invalid error .illegalFollowingBytes

/-- The main loop of `utf8_to_utf16_len`. -/
def countLoop (error : Bool) : Decoding → Nat → Nat → List UInt8 → Except Failure Nat
  | _, _, ret, [] => .ok ret
  | s, position, ret, ch :: rest =>
      match countByte error s ch with
      | .error reason => .error { error := reason, position := position }
      | .ok (s', n) => countLoop error s' (position + 1) (ret + n) rest

/-- `utf8_to_utf16_len`. -/
def utf8ToUtf16Len (error : Bool) (str : List UInt8) : Except Failure Nat :=
  let common := str.takeWhile (fun ch => ch < 0x80)
  if common.length = str.length then .ok common.length
  else
    countLoop error Decoding.reset common.length common.length (str.drop common.length)

/-- The converting pass at the last byte of a character. -/
def convertCharacter (codepoint : Nat) : Decoding × List UInt16 :=
  if codepoint < 0x10000 then
    ({ codepoint := codepoint, mbSize := 0, mbRemain := 0 }, [UInt16.ofNat (codepoint % 0x10000)])
  else if codepoint < 0x110000 then
    let codepoint := codepoint - 0x10000
    ({ codepoint := codepoint, mbSize := 0, mbRemain := 0 },
      [UInt16.ofNat (codepoint >>> 10 + 0xD800), UInt16.ofNat ((codepoint &&& 0x3FF) + 0xDC00)])
  else (Decoding.reset, [])

/-- One byte of the converting pass: the new variables and the units that are stored. -/
def convertByte (s : Decoding) (ch : UInt8) : Decoding × List UInt16 :=
  if s.mbSize = 0 then
    if ch < 0x80 then (s, [ch.toUInt16])
    else
      match leadByte ch with
      | some (codepoint, mbSize) =>
          ({ codepoint := codepoint, mbSize := mbSize, mbRemain := mbSize - 1 }, [])
      | none => (Decoding.reset, [])
  else if continues ch then
    let codepoint := accumulate s.codepoint ch
    if s.mbRemain - 1 = 0 then convertCharacter codepoint
    else ({ s with codepoint := codepoint, mbRemain := s.mbRemain - 1 }, [])
  else (Decoding.reset, [])

/-- The main loop of `g_utf8_to_utf16`. -/
def convertLoop : Decoding → List UInt8 → List UInt16
  | _, [] => []
  | s, ch :: rest => (convertByte s ch).2 ++ convertLoop (convertByte s ch).1 rest

/-- All units that `g_utf8_to_utf16` stores before its terminator. -/
def utf8Units (str : List UInt8) : List UInt16 :=
  let common := str.takeWhile (fun ch => ch < 0x80)
  common.map UInt8.toUInt16 ++ convertLoop Decoding.reset (str.drop common.length)

/-- `g_utf8_to_utf16`, whose error argument is there or not. -/
def gUtf8ToUtf16 (text : Text UInt8) (error : Bool) : Except Failure (Converted UInt16) :=
  match utf8ToUtf16Len error text.input with
  | .error failure => .error failure
  | .ok utf16Len =>
      .ok { allocated := 1 + utf16Len, stored := utf8Units text.input ++ [0],
            itemsRead := text.input.length, itemsWritten := (utf8Units text.input).length }

/-! ### From UTF-16 to UTF-8 -/

/-- One unit of the counting pass: whether a high surrogate is pending, and what is added to `ret`.
The fast path runs over all ASCII units that follow; unit for unit it adds one. -/
def countUnit (error surrogate : Bool) (ch : UInt16) : Except ConvertError (Bool × Nat) :=
  if surrogate then
    if 0xDC00 ≤ ch ∧ ch ≤ 0xDFFF then .ok (false, 4)
    else if error then .error .missingSurrogateTail
    else .ok (false, 0)
  else if ch < 0x80 then .ok (false, 1)
  else if ch < 0x0800 then .ok (false, 2)
  else if 0xD800 ≤ ch ∧ ch ≤ 0xDBFF then .ok (true, 0)
  else if 0xDC00 ≤ ch ∧ ch ≤ 0xDFFF then
    if error then .error .missingSurrogateHead else .ok (false, 0)
  else .ok (false, 3)

/-- The loop of `utf16_to_utf8_len`. -/
def countUnits (error : Bool) : Bool → Nat → Nat → List UInt16 → Except Failure Nat
  | _, _, ret, [] => .ok ret
  | surrogate, position, ret, ch :: rest =>
      match countUnit error surrogate ch with
      | .error reason => .error { error := reason, position := position }
      | .ok (surrogate', n) => countUnits error surrogate' (position + 1) (ret + n) rest

/-- The bytes that `g_utf16_to_utf8` stores for a code point. -/
def codepointBytes (codepoint : Nat) : List UInt8 :=
  if codepoint < 0x80 then [UInt8.ofNat codepoint]
  else if codepoint < 0x0800 then
    [UInt8.ofNat (0xC0 ||| codepoint >>> 6), UInt8.ofNat (0x80 ||| (codepoint &&& 0x3F))]
  else if codepoint < 0x10000 then
    [UInt8.ofNat (0xE0 ||| codepoint >>> 12), UInt8.ofNat (0x80 ||| (codepoint >>> 6 &&& 0x3F)),
      UInt8.ofNat (0x80 ||| (codepoint &&& 0x3F))]
  else
    [UInt8.ofNat (0xF0 ||| codepoint >>> 18), UInt8.ofNat (0x80 ||| (codepoint >>> 12 &&& 0x3F)),
      UInt8.ofNat (0x80 ||| (codepoint >>> 6 &&& 0x3F)), UInt8.ofNat (0x80 ||| (codepoint &&& 0x3F))]

/-- One unit of the converting pass: the pending high surrogate, zero when there is none, and the
bytes that are stored. -/
def convertUnit (surrogate : Nat) (ch : UInt16) : Nat × List UInt8 :=
  if surrogate ≠ 0 then
    if 0xDC00 ≤ ch ∧ ch ≤ 0xDFFF then
      (0, codepointBytes (0x10000 + (ch.toNat - 0xDC00) + (surrogate - 0xD800) <<< 10))
    else (0, [])
  else if ch < 0x80 then (0, [UInt8.ofNat ch.toNat])
  else if 0xD800 ≤ ch ∧ ch ≤ 0xDBFF then (ch.toNat, [])
  else if 0xDC00 ≤ ch ∧ ch ≤ 0xDFFF then (0, [])
  else (0, codepointBytes ch.toNat)

/-- The loop of `g_utf16_to_utf8`. -/
def convertUnits : Nat → List UInt16 → List UInt8
  | _, [] => []
  | surrogate, ch :: rest =>
      (convertUnit surrogate ch).2 ++ convertUnits (convertUnit surrogate ch).1 rest

/-- `g_utf16_to_utf8`. -/
def gUtf16ToUtf8 (text : Text UInt16) (error : Bool) : Except Failure (Converted UInt8) :=
  match countUnits error false 0 0 text.input with
  | .error failure => .error failure
  | .ok utf8Len =>
      .ok { allocated := 1 + utf8Len, stored := convertUnits 0 text.input ++ [0],
            itemsRead := text.input.length, itemsWritten := (convertUnits 0 text.input).length }

/-! ### The pieces of a byte string -/

/-- A byte string falls into single bytes below 0x80, bytes that start nothing, and sequences that
are whole, broken by a byte that does not continue them (which is lost with them), or cut off by
the end. -/
inductive Piece where
  | single (byte : UInt8)
  | stray (byte : UInt8)
  | whole (codepoint : Nat) (lead : UInt8) (tail : List UInt8)
  | broken (lead : UInt8) (tail : List UInt8) (byte : UInt8)
  | cutOff (lead : UInt8) (tail : List UInt8)
deriving Repr, DecidableEq

/-- The bytes of a piece. -/
def Piece.bytes : Piece → List UInt8
  | .single byte => [byte]
  | .stray byte => [byte]
  | .whole _ lead tail => lead :: tail
  | .broken lead tail byte => lead :: tail ++ [byte]
  | .cutOff lead tail => lead :: tail

/-- Cut a byte string into its pieces; as much fuel as there are bytes is enough. -/
def cut : Nat → List UInt8 → List Piece
  | 0, _ => []
  | _, [] => []
  | fuel + 1, ch :: rest =>
      if ch < 0x80 then .single ch :: cut fuel rest
      else
        match leadByte ch with
        | none => .stray ch :: cut fuel rest
        | some (payload, mbSize) =>
            let tail := (rest.take (mbSize - 1)).takeWhile continues
            if tail.length = mbSize - 1 then
              .whole (tail.foldl accumulate payload) ch tail :: cut fuel (rest.drop tail.length)
            else
              match rest.drop tail.length with
              | [] => [.cutOff ch tail]
              | byte :: rest => .broken ch tail byte :: cut fuel rest

/-- The pieces of a byte string. -/
def pieces (str : List UInt8) : List Piece :=
  cut str.length str

/-- A whole sequence of a value below 0x10000 that lies below the threshold of its length. -/
def Piece.Overlong : Piece → Prop
  | .whole codepoint _ tail => codepoint < 0x10000 ∧ overlong (tail.length + 1) codepoint = true
  | _ => False

/-- The pieces that the counting pass refuses when it is asked for errors. -/
def Piece.Refused : Piece → Prop
  | .single _ => False
  | .stray _ => True
  | .whole codepoint _ tail =>
      (codepoint < 0x10000 ∧ overlong (tail.length + 1) codepoint = true) ∨ 0x110000 ≤ codepoint
  | .broken _ _ _ => True
  | .cutOff _ _ => False

/-- The malformed pieces that the counting pass lets through: an encoded surrogate, the greatest
value of the next shorter length, a value up to U+10FFFF in five or six bytes, and a sequence cut
off by the end. -/
def Piece.Tolerated : Piece → Prop
  | .whole codepoint _ tail =>
      (tail.length = 1 ∧ codepoint = 0x7F)
        ∨ (tail.length = 2 ∧ (codepoint = 0x7FF ∨ (0xD800 ≤ codepoint ∧ codepoint ≤ 0xDFFF)))
        ∨ (tail.length = 3 ∧ codepoint = 0xFFFF)
        ∨ (4 ≤ tail.length ∧ 0x10000 ≤ codepoint ∧ codepoint < 0x110000)
  | .cutOff _ _ => True
  | _ => False

/-! ### Well-formed texts -/

/-- The bytes are the UTF-8 encoding of some characters. -/
def WellFormed (str : List UInt8) : Prop :=
  ∃ chars : List Char, str = chars.flatMap String.utf8EncodeChar

/-- The UTF-16 encoding of a character. -/
def utf16EncodeChar (c : Char) : List UInt16 :=
  let v := c.val.toNat
  if v < 0x10000 then [UInt16.ofNat v]
  else [UInt16.ofNat (0xD800 + (v - 0x10000) / 1024), UInt16.ofNat (0xDC00 + (v - 0x10000) % 1024)]

/-- The UTF-16 encoding of a text. -/
def utf16Encode (chars : List Char) : List UInt16 :=
  chars.flatMap utf16EncodeChar

/-- What is promised of `g_utf8_to_utf16` with an error argument: it succeeds exactly on well-formed
texts, and then it stores their encoding and the terminator. -/
def ConvertsWellFormed (text : Text UInt8) : Prop :=
  ((∃ converted, gUtf8ToUtf16 text true = .ok converted) ↔ WellFormed text.input)
    ∧ ∀ chars : List Char, text.input = chars.flatMap String.utf8EncodeChar →
        ∃ converted, gUtf8ToUtf16 text true = .ok converted
          ∧ converted.stored = utf16Encode chars ++ [0]

end MonoRuntime.Utf8
