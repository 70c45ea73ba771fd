import FastValidate.Code.SimdUtf8Check
import FastValidate.Lib.Masks

/-!
# `FastValidate.Code.SimdUtf8CheckAvx512`: `include/simdutf8check_avx512.h`

The AVX-512 validators. Errors are bits of a 64-bit mask, the lookbacks are two-register
lookups through index constants, and the tables are packed into 32-bit words. The carry,
the nibble split and the loop have the bodies of the narrower versions (`Shape`).
-/

set_option autoImplicit false

namespace FastValidate.Code

open Simd Memory

/-- The indexes of `avx512_push_last_byte_of_a_to_b`. -/
def pushLastByteIndexes : Reg 64 :=
  setEpi64 64
    [0x3E3D3C3B3A393837, 0x363534333231302F, 0x2E2D2C2B2A292827, 0x262524232221201F,
      0x1E1D1C1B1A191817, 0x161514131211100F, 0x0E0D0C0B0A090807, 0x060504030201007F]

/-- The indexes of `avx512_push_last_2bytes_of_a_to_b`. -/
def pushLast2BytesIndexes : Reg 64 :=
  setEpi64 64
    [0x3D3C3B3A39383736, 0x3534333231302F2E, 0x2D2C2B2A29282726, 0x2524232221201F1E,
      0x1D1C1B1A19181716, 0x1514131211100F0E, 0x0D0C0B0A09080706, 0x0504030201007F7E]

/-- `avx512_push_last_byte_of_a_to_b`, a lookup in both registers. -/
def avx512PushLastByteOfAToB (a b : Reg 64) : Reg 64 :=
  permutex2varEpi8 b pushLastByteIndexes a

/-- `avx512_push_last_2bytes_of_a_to_b`. -/
def avx512PushLast2BytesOfAToB (a b : Reg 64) : Reg 64 :=
  permutex2varEpi8 b pushLast2BytesIndexes a

/-- All byte values must be no larger than `0xF4`. -/
def avx512CheckSmallerThan0xF4 (currentBytes : Reg 64) (hasError : BitVec 64) : BitVec 64 :=
  korMask hasError (cmpgtEpu8Mask currentBytes (set1Epi8 64 0xF4))

/-- The length a byte announces. The table of sixteen bytes is four words, one after the other.
-/
def avx512ContinuationLengths (highNibbles : Reg 64) : Reg 64 :=
  shuffleEpi8 (setr4Epi32 64 0x01010101 0x01010101 0x00000000 0x04030202) highNibbles

/-- The carries of the lengths, with the two-register lookbacks. -/
def avx512CarryContinuations (initialLengths previousCarries : Reg 64) : Reg 64 :=
  Shape.carryContinuations avx512PushLastByteOfAToB avx512PushLast2BytesOfAToB
    initialLengths previousCarries

/-- Overlap or underlap: the two comparisons agree. -/
def avx512CheckContinuations (initialLengths carries : Reg 64) (hasError : BitVec 64) :
    BitVec 64 :=
  korMask hasError
    (kxnorMask (cmpgtEpi8Mask carries initialLengths)
      (cmpgtEpi8Mask initialLengths (setzero 64)))

/-- When `0xED` is found, the next byte must be no larger than `0x9F`. When `0xF4` is
found, the next byte must be no larger than `0x8F`. -/
def avx512CheckFirstContinuationMax (currentBytes off1CurrentBytes : Reg 64)
    (hasError : BitVec 64) : BitVec 64 :=
  let maskED := cmpeqEpi8Mask off1CurrentBytes (set1Epi8 64 0xED)
  let maskF4 := cmpeqEpi8Mask off1CurrentBytes (set1Epi8 64 0xF4)
  let badfollowED := kandMask (cmpgtEpi8Mask currentBytes (set1Epi8 64 0x9F)) maskED
  let badfollowF4 := kandMask (cmpgtEpi8Mask currentBytes (set1Epi8 64 0x8F)) maskF4
  korMask hasError (korMask badfollowED badfollowF4)

/-- The minima of `checkOverlong`, with the tables as words. Both bytes under their minimum set
a bit. -/
def avx512CheckOverlong (currentBytes off1CurrentBytes hibits previousHibits : Reg 64)
    (hasError : BitVec 64) : BitVec 64 :=
  let off1Hibits := avx512PushLastByteOfAToB previousHibits hibits
  let initialMins :=
    shuffleEpi8 (setr4Epi32 64 0x80808080 0x80808080 0x80808080 0xF1E180C2) off1Hibits
  let initialUnder := cmpgtEpi8Mask initialMins off1CurrentBytes
  let secondMins :=
    shuffleEpi8 (setr4Epi32 64 0x80808080 0x80808080 0x80808080 0x90A07F7F) off1Hibits
  let secondUnder := cmpgtEpi8Mask secondMins currentBytes
  korMask hasError (kandMask initialUnder secondUnder)

/-- The bytes and their high nibbles. -/
def avx512CountNibbles (bytes : Reg 64) (answer : ProcessedUtfBytes 64) :
    ProcessedUtfBytes 64 :=
  Shape.countNibbles bytes answer

/-- `checkUTF8Bytes` over 64 bytes, with a mask for the errors. -/
def avx512CheckUTF8Bytes (currentBytes : Reg 64) (previous : ProcessedUtfBytes 64)
    (hasError : BitVec 64) : ProcessedUtfBytes 64 × BitVec 64 :=
  let pb := avx512CountNibbles currentBytes (.zero 64)
  let hasError := avx512CheckSmallerThan0xF4 currentBytes hasError
  let initialLengths := avx512ContinuationLengths pb.highNibbles
  let pb :=
    { pb with
        carriedContinuations :=
          avx512CarryContinuations initialLengths previous.carriedContinuations }
  let hasError := avx512CheckContinuations initialLengths pb.carriedContinuations hasError
  let off1CurrentBytes := avx512PushLastByteOfAToB previous.rawbytes pb.rawbytes
  let hasError := avx512CheckFirstContinuationMax currentBytes off1CurrentBytes hasError
  let hasError :=
    avx512CheckOverlong currentBytes off1CurrentBytes pb.highNibbles previous.highNibbles
      hasError
  (pb, hasError)

/-- The carry threshold of the AVX-512 validators and of their ASCII path. -/
def avx512CarryThreshold (previous : ProcessedUtfBytes 64) (hasError : BitVec 64) :
    BitVec 64 :=
  korMask hasError
    (cmpgtEpi8Mask previous.carriedContinuations
      (setrEpi32 64
        [0x09090909, 0x09090909, 0x09090909, 0x09090909,
          0x09090909, 0x09090909, 0x09090909, 0x09090909,
          0x09090909, 0x09090909, 0x09090909, 0x09090909,
          0x09090909, 0x09090909, 0x09090909, 0x01090909]))

/-- The ASCII path returns the old `previous` on a block of ASCII bytes. Otherwise its body
is a copy of `avx512_checkUTF8Bytes`. -/
def avx512CheckUTF8BytesAsciipath (currentBytes : Reg 64) (previous : ProcessedUtfBytes 64)
    (hasError : BitVec 64) : ProcessedUtfBytes 64 × BitVec 64 :=
  if cmpgeEpu8Mask currentBytes (set1Epi8 64 0x80) = 0 then
    (previous, avx512CarryThreshold previous hasError)
  else
    let pb := avx512CountNibbles currentBytes (.zero 64)
    let hasError := avx512CheckSmallerThan0xF4 currentBytes hasError
    let initialLengths := avx512ContinuationLengths pb.highNibbles
    let pb :=
      { pb with
          carriedContinuations :=
            avx512CarryContinuations initialLengths previous.carriedContinuations }
    let hasError := avx512CheckContinuations initialLengths pb.carriedContinuations hasError
    let off1CurrentBytes := avx512PushLastByteOfAToB previous.rawbytes pb.rawbytes
    let hasError := avx512CheckFirstContinuationMax currentBytes off1CurrentBytes hasError
    let hasError :=
      avx512CheckOverlong currentBytes off1CurrentBytes pb.highNibbles previous.highNibbles
        hasError
    (pb, hasError)

/-- The full blocks take the ASCII path, the last part does not. -/
def validateUtf8FastAvx512Asciipath (src : Ptr) (len : ℕ) : Bool :=
  Shape.validate avx512CheckUTF8BytesAsciipath avx512CheckUTF8Bytes avx512CarryThreshold 0
    (fun hasError => decide (hasError = 0)) src len

/-- `validate_utf8_fast_avx512`. -/
def validateUtf8FastAvx512 (src : Ptr) (len : ℕ) : Bool :=
  Shape.validate avx512CheckUTF8Bytes avx512CheckUTF8Bytes avx512CarryThreshold 0
    (fun hasError => decide (hasError = 0)) src len

end FastValidate.Code
