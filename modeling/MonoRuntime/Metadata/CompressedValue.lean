/-
Module: MonoRuntime.Metadata.CompressedValue
Purpose: The other readers of compressed values of `metadata/metadata.c`, the signed encoding of ECMA-335 II.23.2, and
  the shape of an array type, whose lower bounds are signed.
Trusted boundary: human-reviewed translation of the source
Main exports: monoMetadataDecodeBlobSize
-/
import MonoRuntime.Metadata.SignatureBlob

namespace MonoRuntime.CompressedValue

open Reader MethodSignature
open DebugInfo (lowByte wide)

/-- `mono_metadata_decode_blob_size`. -/
def monoMetadataDecodeBlobSize : Reader Byte (BitVec 32) := do
  let b ← next
  if b &&& 0x80 = 0 then pure (wide b &&& 0x7f)
  else if b &&& 0x40 = 0 then do
    let b1 ← next
    pure ((wide b &&& 0x3f) <<< 8 + wide b1)
  else do
    let b1 ← next
    let b2 ← next
    let b3 ← next
    pure ((wide b &&& 0x1f) <<< 24 + wide b1 <<< 16 + wide b2 <<< 8 + wide b3)

/-- The value that `mono_metadata_decode_signed_value` makes of the number that it reads. -/
def signedOf (uval : BitVec 32) : Option (BitVec 32) :=
  let ival := uval >>> 1
  if uval &&& 1 = 0 then some ival
  else if ival.slt 0x40 then some (ival - 0x40)
  else if ival.slt 0x2000 then some (ival - 0x2000)
  else if ival.slt 0x10000000 then some (ival - 0x10000000)
  else if ival.slt 0x20000000 then some (ival - 0x20000000)
  else none

/-- `mono_metadata_decode_signed_value`. -/
def monoMetadataDecodeSignedValue : Reader Byte (BitVec 32) := do
  let uval ← monoMetadataDecodeValue
  match signedOf uval with
  | none => fail
  | some value => pure value

/-! ### The signed encoding -/

/-- A number in one, two or four bytes, with the bits of its class. -/
def compressByte (value : BitVec 7) : List Byte :=
  [value.setWidth 8]

def compressTwo (value : BitVec 14) : List Byte :=
  [0x80 ||| (value >>> 8).setWidth 8, value.setWidth 8]

def compressFour (value : BitVec 29) : List Byte :=
  [0xc0 ||| (value >>> 24).setWidth 8, (value >>> 16).setWidth 8, (value >>> 8).setWidth 8, value.setWidth 8]

/-- The compressed signed encoding: the two's complement in 7, 14 or 29 bits, rotated by one to the left. -/
def compressSigned (v : Int) : List Byte :=
  if -2 ^ 6 ≤ v ∧ v < 2 ^ 6 then compressByte ((BitVec.ofInt 7 v).rotateLeft 1)
  else if -2 ^ 13 ≤ v ∧ v < 2 ^ 13 then compressTwo ((BitVec.ofInt 14 v).rotateLeft 1)
  else compressFour ((BitVec.ofInt 29 v).rotateLeft 1)

/-- The numbers that have a signed encoding. -/
def InRange (v : Int) : Prop :=
  -2 ^ 28 ≤ v ∧ v < 2 ^ 28

/-- The least numbers of the two longer classes: without their sign they fit into a shorter class. -/
def Confused (v : Int) : Prop :=
  (-2 ^ 13 ≤ v ∧ v < -2 ^ 13 + 2 ^ 6) ∨ (-2 ^ 28 ≤ v ∧ v < -2 ^ 28 + 2 ^ 13)

instance (v : Int) : Decidable (Confused v) :=
  inferInstanceAs (Decidable (_ ∨ _))

/-! ### Array shapes -/

/-- `MonoArrayType`, with the arrays that `numsizes` and `numlobounds` count. -/
structure MonoArrayType where
  eklass : TypeData
  rank : BitVec 8
  sizes : List (BitVec 32)
  lobounds : List (BitVec 32)
deriving DecidableEq

/-- `mono_metadata_parse_array_full`; the type of the elements is read by `parse`. -/
def monoMetadataParseArrayFull (classes : Classes) (parse : Reader Byte MonoType) : Reader Byte MonoArrayType := do
  let etype ← parse
  let rank ← monoMetadataDecodeValue
  let numsizes ← monoMetadataDecodeValue
  let sizes ← many monoMetadataDecodeValue (numsizes.setWidth 8).toNat
  let numlobounds ← monoMetadataDecodeValue
  let lobounds ← many monoMetadataDecodeSignedValue (numlobounds.setWidth 8).toNat
  pure ⟨monoClassFromMonoType classes etype.data, rank.setWidth 8, sizes, lobounds⟩

/-- The bytes of an array type with the shape, behind those of the type of its elements. -/
def encodeShape (rank : BitVec 8) (sizes : List (BitVec 32)) (lobounds : List Int) : List Byte :=
  monoMetadataEncodeValue (rank.setWidth 32) ++
    (monoMetadataEncodeValue (BitVec.ofNat 32 sizes.length) ++ (sizes.flatMap monoMetadataEncodeValue ++
      (monoMetadataEncodeValue (BitVec.ofNat 32 lobounds.length) ++ lobounds.flatMap compressSigned)))

end MonoRuntime.CompressedValue
