import FastValidate.Lib.Loops

/-!
# `FastValidate.Code.SimdUtf8Check`: `include/simdutf8check.h`

The SSE and AVX2 validators, function by function. An output parameter of the C code
(`has_error`, `answer`) is an argument and a result here.

The header writes most functions twice, once for each width, with the same body. The body
stands once in the namespace `Shape`, and the function of each width is that body at its
own registers, lookbacks and tables. The validators share their loop as well
(`Shape.validate`): blocks as long as a full one is left, then either one zero-padded block
or the carry threshold.
-/

set_option autoImplicit false

namespace FastValidate.Code

open Simd Memory Loops

/-- `struct processed_utf_bytes` and its wider versions. -/
structure ProcessedUtfBytes (n : ℕ) where
  rawbytes : Reg n
  highNibbles : Reg n
  carriedContinuations : Reg n
  deriving DecidableEq

/-- The all-zero `previous` that every validator starts from. -/
def ProcessedUtfBytes.zero (n : ℕ) : ProcessedUtfBytes n where
  rawbytes := setzero n
  highNibbles := setzero n
  carriedContinuations := setzero n

/-! ### The bodies shared by the widths -/

namespace Shape

variable {n : ℕ}

/-- All byte values must be no larger than `0xF4`: the subtraction saturates to 0 below
it. -/
def checkSmallerThan0xF4 (currentBytes hasError : Reg n) : Reg n :=
  orSi hasError (subsEpu8 currentBytes (set1Epi8 n 0xF4))

/-- The two-step carry. `pushLastByte a b` and `pushLast2Bytes a b` move `b` up by one and
by two lanes and fill in the last lanes of `a`. -/
def carryContinuations (pushLastByte pushLast2Bytes : Reg n → Reg n → Reg n)
    (initialLengths previousCarries : Reg n) : Reg n :=
  let right1 := subsEpu8 (pushLastByte previousCarries initialLengths) (set1Epi8 n 1)
  let sum := addEpi8 initialLengths right1
  let right2 := subsEpu8 (pushLast2Bytes previousCarries sum) (set1Epi8 n 2)
  addEpi8 sum right2

/-- Overlap or underlap: `(carries > lengths) == (lengths > 0)`. -/
def checkContinuations (initialLengths carries hasError : Reg n) : Reg n :=
  let overunder :=
    cmpeqEpi8 (cmpgtEpi8 carries initialLengths) (cmpgtEpi8 initialLengths (setzero n))
  orSi hasError overunder

/-- When `0xED` is found, the next byte must be no larger than `0x9F`. When `0xF4` is
found, the next byte must be no larger than `0x8F`. The comparison is signed. -/
def checkFirstContinuationMax (currentBytes off1CurrentBytes hasError : Reg n) : Reg n :=
  let maskED := cmpeqEpi8 off1CurrentBytes (set1Epi8 n 0xED)
  let maskF4 := cmpeqEpi8 off1CurrentBytes (set1Epi8 n 0xF4)
  let badfollowED := andSi (cmpgtEpi8 currentBytes (set1Epi8 n 0x9F)) maskED
  let badfollowF4 := andSi (cmpgtEpi8 currentBytes (set1Epi8 n 0x8F)) maskF4
  orSi hasError (orSi badfollowED badfollowF4)

/-- The minimum of a lead and of the byte after it, looked up by the high nibble of the
lead. An error has both bytes under their minimum. -/
def checkOverlong (initialMinsTable secondMinsTable : Reg n)
    (currentBytes off1CurrentBytes off1Hibits hasError : Reg n) : Reg n :=
  let initialMins := shuffleEpi8 initialMinsTable off1Hibits
  let initialUnder := cmpgtEpi8 initialMins off1CurrentBytes
  let secondMins := shuffleEpi8 secondMinsTable off1Hibits
  let secondUnder := cmpgtEpi8 secondMins currentBytes
  orSi hasError (andSi initialUnder secondUnder)

/-- Fills in the bytes and their high nibbles. -/
def countNibbles (bytes : Reg n) (answer : ProcessedUtfBytes n) : ProcessedUtfBytes n :=
  { answer with
      rawbytes := bytes
      highNibbles := andSi (srliEpi16 bytes 4) (set1Epi8 n 0x0F) }

/-- The loop of the validators. `step` takes the full blocks, `lastStep` takes the
zero-padded rest when there is one, and `threshold` looks at the carries when there is
none. -/
def validate {ε : Type}
    (step lastStep : Reg n → ProcessedUtfBytes n → ε → ProcessedUtfBytes n × ε)
    (threshold : ProcessedUtfBytes n → ε → ε) (noError : ε) (isZero : ε → Bool)
    (src : Ptr) (len : ℕ) : Bool :=
  let init : ℕ × ProcessedUtfBytes n × ε := (0, .zero n, noError)
  let (i, previous, hasError) :=
    if n ≤ len then
      forLe (len - n) n (fun i s => step (loadu n src i) s.1 s.2) init.1 init.2
    else init
  let hasError :=
    if i < len then
      let buffer := zeroPadded src i (len - i)
      (lastStep (loadu n buffer 0) previous hasError).2
    else threshold previous hasError
  isZero hasError

end Shape

/-! ### SSE -/

/-- All byte values must be no larger than `0xF4`. -/
def checkSmallerThan0xF4 (currentBytes hasError : Reg 16) : Reg 16 :=
  Shape.checkSmallerThan0xF4 currentBytes hasError

/-- The length a byte announces, looked up by its high nibble. -/
def continuationLengths (highNibbles : Reg 16) : Reg 16 :=
  shuffleEpi8
    (setrEpi8 16
      [1, 1, 1, 1, 1, 1, 1, 1, -- 0xxx (ASCII)
        0, 0, 0, 0,            -- 10xx (continuation)
        2, 2,                  -- 110x
        3,                     -- 1110
        4])                    -- 1111, next should be 0 (not checked here)
    highNibbles

/-- The carries of the lengths, with lookbacks through `alignr`. -/
def carryContinuations (initialLengths previousCarries : Reg 16) : Reg 16 :=
  Shape.carryContinuations (fun a b => alignrEpi8 b a (16 - 1))
    (fun a b => alignrEpi8 b a (16 - 2)) initialLengths previousCarries

/-- Overlap or underlap of the lengths. -/
def checkContinuations (initialLengths carries hasError : Reg 16) : Reg 16 :=
  Shape.checkContinuations initialLengths carries hasError

/-- The bytes behind `0xED` and `0xF4` must be no larger than `0x9F` and `0x8F`. -/
def checkFirstContinuationMax (currentBytes off1CurrentBytes hasError : Reg 16) : Reg 16 :=
  Shape.checkFirstContinuationMax currentBytes off1CurrentBytes hasError

/-- Map `off1_hibits` to the error condition:

```
hibits     off1    cur
C       => < C2 && true
E       => < E1 && < A0
F       => < F1 && < 90
else      false && false
```
-/
def checkOverlong (currentBytes off1CurrentBytes hibits previousHibits hasError : Reg 16) :
    Reg 16 :=
  let off1Hibits := alignrEpi8 hibits previousHibits (16 - 1)
  Shape.checkOverlong
    (setrEpi8 16
      [-128, -128, -128, -128, -128, -128, -128, -128, -128, -128, -128, -128, -- 10xx
        0xC2, -128,                                                           -- 110x
        0xE1,                                                                 -- 1110
        0xF1])
    (setrEpi8 16
      [-128, -128, -128, -128, -128, -128, -128, -128, -128, -128, -128, -128, -- 10xx
        127, 127,                                                             -- 110x
        0xA0,                                                                 -- 1110
        0x90])
    currentBytes off1CurrentBytes off1Hibits hasError

/-- The bytes and their high nibbles. The carries of `answer` stay as they are. -/
def countNibbles (bytes : Reg 16) (answer : ProcessedUtfBytes 16) : ProcessedUtfBytes 16 :=
  Shape.countNibbles bytes answer

/-- Checks the current bytes and returns what the next call needs as `previous`. The local
`pb` has no initial value in C; its fields are all assigned before they are read. -/
def checkUTF8Bytes (currentBytes : Reg 16) (previous : ProcessedUtfBytes 16)
    (hasError : Reg 16) : ProcessedUtfBytes 16 × Reg 16 :=
  let pb := countNibbles currentBytes (.zero 16)
  let hasError := checkSmallerThan0xF4 currentBytes hasError
  let initialLengths := continuationLengths pb.highNibbles
  let pb :=
    { pb with
        carriedContinuations :=
          carryContinuations initialLengths previous.carriedContinuations }
  let hasError := checkContinuations initialLengths pb.carriedContinuations hasError
  let off1CurrentBytes := alignrEpi8 pb.rawbytes previous.rawbytes (16 - 1)
  let hasError := checkFirstContinuationMax currentBytes off1CurrentBytes hasError
  let hasError :=
    checkOverlong currentBytes off1CurrentBytes pb.highNibbles previous.highNibbles hasError
  (pb, hasError)

/-- The test after a whole number of blocks: no sequence reaches past the last byte. -/
def carryThreshold (previous : ProcessedUtfBytes 16) (hasError : Reg 16) : Reg 16 :=
  orSi
    (cmpgtEpi8 previous.carriedContinuations
      (setrEpi8 16 [9, 9, 9, 9, 9, 9, 9, 9, 9, 9, 9, 9, 9, 9, 9, 1]))
    hasError

/-- `validate_utf8_fast`. -/
def validateUtf8Fast (src : Ptr) (len : ℕ) : Bool :=
  Shape.validate checkUTF8Bytes checkUTF8Bytes carryThreshold (setzero 16)
    (fun hasError => testz hasError hasError) src len

/-! ### AVX2 -/

/-- `push_last_byte_of_a_to_b`. The permuted register supplies the byte before each half. -/
def pushLastByteOfAToB (a b : Reg 32) : Reg 32 :=
  alignrEpi8 b (permute2x128 a b 0x21) 15

/-- `push_last_2bytes_of_a_to_b`. -/
def pushLast2BytesOfAToB (a b : Reg 32) : Reg 32 :=
  alignrEpi8 b (permute2x128 a b 0x21) 14

/-- All byte values must be no larger than `0xF4`. -/
def avxcheckSmallerThan0xF4 (currentBytes hasError : Reg 32) : Reg 32 :=
  Shape.checkSmallerThan0xF4 currentBytes hasError

/-- The length a byte announces. The lookup is in each half, so the table stands twice. -/
def avxcontinuationLengths (highNibbles : Reg 32) : Reg 32 :=
  shuffleEpi8
    (setrEpi8 32
      [1, 1, 1, 1, 1, 1, 1, 1, -- 0xxx (ASCII)
        0, 0, 0, 0,            -- 10xx (continuation)
        2, 2,                  -- 110x
        3,                     -- 1110
        4,                     -- 1111, next should be 0 (not checked here)
        1, 1, 1, 1, 1, 1, 1, 1, -- 0xxx (ASCII)
        0, 0, 0, 0,             -- 10xx (continuation)
        2, 2,                   -- 110x
        3,                      -- 1110
        4])                     -- 1111, next should be 0 (not checked here)
    highNibbles

/-- The carries of the lengths, with the lookbacks across the halves. -/
def avxcarryContinuations (initialLengths previousCarries : Reg 32) : Reg 32 :=
  Shape.carryContinuations pushLastByteOfAToB pushLast2BytesOfAToB initialLengths
    previousCarries

/-- Overlap or underlap of the lengths. -/
def avxcheckContinuations (initialLengths carries hasError : Reg 32) : Reg 32 :=
  Shape.checkContinuations initialLengths carries hasError

/-- The bytes behind `0xED` and `0xF4` must be no larger than `0x9F` and `0x8F`. -/
def avxcheckFirstContinuationMax (currentBytes off1CurrentBytes hasError : Reg 32) :
    Reg 32 :=
  Shape.checkFirstContinuationMax currentBytes off1CurrentBytes hasError

/-- The minima of `checkOverlong`, once for each half. -/
def avxcheckOverlong (currentBytes off1CurrentBytes hibits previousHibits hasError : Reg 32) :
    Reg 32 :=
  let off1Hibits := pushLastByteOfAToB previousHibits hibits
  Shape.checkOverlong
    (setrEpi8 32
      [-128, -128, -128, -128, -128, -128, -128, -128, -128, -128, -128, -128, -- 10xx
        0xC2, -128,                                                           -- 110x
        0xE1,                                                                 -- 1110
        0xF1,
        -128, -128, -128, -128, -128, -128, -128, -128, -128, -128, -128, -128, -- 10xx
        0xC2, -128,                                                            -- 110x
        0xE1,                                                                  -- 1110
        0xF1])
    (setrEpi8 32
      [-128, -128, -128, -128, -128, -128, -128, -128, -128, -128, -128, -128, -- 10xx
        127, 127,                                                             -- 110x
        0xA0,                                                                 -- 1110
        0x90,
        -128, -128, -128, -128, -128, -128, -128, -128, -128, -128, -128, -128, -- 10xx
        127, 127,                                                              -- 110x
        0xA0,                                                                  -- 1110
        0x90])
    currentBytes off1CurrentBytes off1Hibits hasError

/-- The bytes and their high nibbles. -/
def avxCountNibbles (bytes : Reg 32) (answer : ProcessedUtfBytes 32) :
    ProcessedUtfBytes 32 :=
  Shape.countNibbles bytes answer

/-- `checkUTF8Bytes` over 32 bytes. -/
def avxcheckUTF8Bytes (currentBytes : Reg 32) (previous : ProcessedUtfBytes 32)
    (hasError : Reg 32) : ProcessedUtfBytes 32 × Reg 32 :=
  let pb := avxCountNibbles currentBytes (.zero 32)
  let hasError := avxcheckSmallerThan0xF4 currentBytes hasError
  let initialLengths := avxcontinuationLengths pb.highNibbles
  let pb :=
    { pb with
        carriedContinuations :=
          avxcarryContinuations initialLengths previous.carriedContinuations }
  let hasError := avxcheckContinuations initialLengths pb.carriedContinuations hasError
  let off1CurrentBytes := pushLastByteOfAToB previous.rawbytes pb.rawbytes
  let hasError := avxcheckFirstContinuationMax currentBytes off1CurrentBytes hasError
  let hasError :=
    avxcheckOverlong currentBytes off1CurrentBytes pb.highNibbles previous.highNibbles
      hasError
  (pb, hasError)

/-- The carry threshold of the AVX2 validators and of their ASCII path. -/
def avxCarryThreshold (previous : ProcessedUtfBytes 32) (hasError : Reg 32) : Reg 32 :=
  orSi
    (cmpgtEpi8 previous.carriedContinuations
      (setrEpi8 32
        [9, 9, 9, 9, 9, 9, 9, 9, 9, 9, 9, 9, 9, 9, 9, 9, 9, 9, 9, 9, 9, 9, 9, 9,
          9, 9, 9, 9, 9, 9, 9, 1]))
    hasError

/-- The ASCII path returns the old `previous` on a block of ASCII bytes. Otherwise its body
is a copy of `avxcheckUTF8Bytes`. -/
def avxcheckUTF8BytesAsciipath (currentBytes : Reg 32) (previous : ProcessedUtfBytes 32)
    (hasError : Reg 32) : ProcessedUtfBytes 32 × Reg 32 :=
  if testz currentBytes (set1Epi8 32 0x80) then
    (previous, avxCarryThreshold previous hasError)
  else
    let pb := avxCountNibbles currentBytes (.zero 32)
    let hasError := avxcheckSmallerThan0xF4 currentBytes hasError
    let initialLengths := avxcontinuationLengths pb.highNibbles
    let pb :=
      { pb with
          carriedContinuations :=
            avxcarryContinuations initialLengths previous.carriedContinuations }
    let hasError := avxcheckContinuations initialLengths pb.carriedContinuations hasError
    let off1CurrentBytes := pushLastByteOfAToB previous.rawbytes pb.rawbytes
    let hasError := avxcheckFirstContinuationMax currentBytes off1CurrentBytes hasError
    let hasError :=
      avxcheckOverlong currentBytes off1CurrentBytes pb.highNibbles previous.highNibbles
        hasError
    (pb, hasError)

/-- The full blocks take the ASCII path, the last part does not. -/
def validateUtf8FastAvxAsciipath (src : Ptr) (len : ℕ) : Bool :=
  Shape.validate avxcheckUTF8BytesAsciipath avxcheckUTF8Bytes avxCarryThreshold (setzero 32)
    (fun hasError => testz hasError hasError) src len

/-- `validate_utf8_fast_avx`. -/
def validateUtf8FastAvx (src : Ptr) (len : ℕ) : Bool :=
  Shape.validate avxcheckUTF8Bytes avxcheckUTF8Bytes avxCarryThreshold (setzero 32)
    (fun hasError => testz hasError hasError) src len

end FastValidate.Code
