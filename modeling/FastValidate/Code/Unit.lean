import FastValidate.Code.Hoehrmann
import FastValidate.Code.SimdAsciiCheck
import FastValidate.Code.SimdUtf8CheckAvx512

/-!
# `FastValidate.Code.Unit`: `test`

The two loops of `tests/unit.c` over the first 8 good and the first 23 bad sequences, and the
asserts behind them. A sequence goes to the table-driven validators with its NUL byte, to the
block validators as it is, and to the block validators at every offset of a buffer of spaces.
The asserts are about two ASCII texts and about the carries of some lengths. `none` is a call
of `abort`, an assert that fails, or a read behind the end of an array.
-/

set_option autoImplicit false

namespace FastValidate.Code

open Simd Memory Loops

/-- A string literal of C: the bytes before its NUL byte. -/
abbrev CString := { s : List Byte // 0 ∉ s }

/-- The bytes of a literal, with the NUL byte behind them. -/
def CString.ptr (s : CString) : Ptr := fun i => s.1.getD i 0

/-- `strlen(s)`. -/
def CString.strlen (s : CString) : ℕ := s.1.length

namespace Unit

/-- `if (!ok) abort();` -/
def require (ok : Bool) : Option PUnit := if ok then some ⟨⟩ else none

/-- The loop over the offsets: `validate` has to return `expected` on the buffer. -/
def offsets (validate : Ptr → ℕ → Bool) (expected : Bool) (N : ℕ) (sequence : Ptr) (len : ℕ)
    (buffer : Ptr) : Option Ptr :=
  forLtM (N - len)
    (fun offset buffer =>
      let buffer := memset buffer 0x20 N
      let buffer := memcpy buffer offset sequence len
      if validate buffer N = expected then some buffer else none)
    0 buffer

/-- The body of the loop over `goodsequences`. -/
def goodSequence (N : ℕ) (sequence : CString) (buffer : Ptr) : Option Ptr := do
  let c := sequence.ptr
  let len := sequence.strlen
  require (validateDfaUtf8 c (len + 1))
  require (validateDfaUtf8Branchless c (len + 1))
  require (shiftlessValidateDfaUtf8 c (len + 1))
  require (shiftlessValidateDfaUtf8Branchless c (len + 1))
  require (validateUtf8Fast c len)
  let buffer ← offsets validateUtf8Fast true N c len buffer
  require (validateUtf8FastAvx512 c len)
  let buffer ← offsets validateUtf8FastAvx512 true N c len buffer
  require (validateUtf8FastAvx512Asciipath c len)
  let buffer ← offsets validateUtf8FastAvx512Asciipath true N c len buffer
  require (validateUtf8FastAvx c len)
  let buffer ← offsets validateUtf8FastAvx true N c len buffer
  require (validateUtf8FastAvxAsciipath c len)
  offsets validateUtf8FastAvxAsciipath true N c len buffer

/-- The body of the loop over `badsequences`. It has no call of `validate_utf8_fast` on the
sequence alone. -/
def badSequence (N : ℕ) (sequence : CString) (buffer : Ptr) : Option Ptr := do
  let c := sequence.ptr
  let len := sequence.strlen
  require (!validateDfaUtf8 c (len + 1))
  require (!validateDfaUtf8Branchless c (len + 1))
  require (!shiftlessValidateDfaUtf8 c (len + 1))
  require (!shiftlessValidateDfaUtf8Branchless c (len + 1))
  let buffer ← offsets validateUtf8Fast false N c len buffer
  require (!validateUtf8FastAvx c len)
  let buffer ← offsets validateUtf8FastAvx false N c len buffer
  require (!validateUtf8FastAvxAsciipath c len)
  let buffer ← offsets validateUtf8FastAvxAsciipath false N c len buffer
  require (!validateUtf8FastAvx512 c len)
  let buffer ← offsets validateUtf8FastAvx512 false N c len buffer
  require (!validateUtf8FastAvx512Asciipath c len)
  offsets validateUtf8FastAvx512Asciipath false N c len buffer

/-- Both loops. Their bounds are the constants 8 and 23, whatever the arrays hold, and a read
behind the end of an array has no result. -/
def sequences (N : ℕ) (goodsequences badsequences : List CString) (buffer : Ptr) :
    Option Ptr := do
  let buffer ← forLtM 8
    (fun i buffer => goodsequences[i]?.bind fun sequence => goodSequence N sequence buffer)
    0 buffer
  forLtM 23
    (fun i buffer => badsequences[i]?.bind fun sequence => badSequence N sequence buffer)
    0 buffer

/-- `char ascii[]`. -/
def ascii : CString := ⟨[1, 2, 3, 4, 5, 6, 7, 8, 9, 10, 11, 12, 13, 14, 15, 16, 17], by decide⟩

/-- `char notascii[]`. -/
def notascii : CString :=
  ⟨[128, 129, 130, 131, 132, 133, 134, 135, 136, 137, 138, 139, 140, 141, 142, 143, 144, 145,
    146, 238, 255], by decide⟩

/-- The asserts about the ASCII validators. -/
def asciiAsserts : List Bool :=
  [ validateAsciiFast ascii.ptr ascii.strlen,
    validateAsciiFastAvx ascii.ptr ascii.strlen,
    validateAsciiFastAvx512 ascii.ptr ascii.strlen,
    !validateAsciiFast notascii.ptr notascii.strlen,
    !validateAsciiFastAvx notascii.ptr notascii.strlen,
    !validateAsciiFastAvx512 notascii.ptr notascii.strlen ]

/-- `has_error` after `carryContinuations(cont, previous)` and `checkContinuations`. -/
def carryErrors (cont previous : Reg 16) : Reg 16 :=
  checkContinuations cont (carryContinuations cont previous) (setzero 16)

/-- `_mm_test_all_zeros(has_error, has_error)`. -/
def noErrors (cont previous : Reg 16) : Bool :=
  testz (carryErrors cont previous) (carryErrors cont previous)

/-- `has_error512 == 0`. -/
def noErrors512 (cont previous : Reg 64) : Bool :=
  decide (avx512CheckContinuations cont (avx512CarryContinuations cont previous) 0 = 0)

/-- The asserts about the carries. -/
def carryAsserts : List Bool :=
  [ noErrors (setrEpi8 16 [4, 0, 0, 0, 3, 0, 0, 2, 0, 1, 2, 0, 3, 0, 0, 1]) (set1Epi8 16 1),
    testAllOnes (cmpeqEpi8
      (carryContinuations (setrEpi8 16 [4, 0, 0, 0, 3, 0, 0, 2, 0, 1, 2, 0, 3, 0, 0, 1])
        (set1Epi8 16 1))
      (setrEpi8 16 [4, 3, 2, 1, 3, 2, 1, 2, 1, 1, 2, 1, 3, 2, 1, 1])),
    noErrors512 (set4Epi32 64 0x01000003 0x00020100 0x02000003 0x00000004) (set1Epi8 64 1),
    decide (cmpeqEpi8Mask
      (avx512CarryContinuations
        (set4Epi32 64 0x01000003 0x00020100 0x02000003 0x00000004) (set1Epi8 64 1))
      (set4Epi32 64 0x01010203 0x01020101 0x02010203 0x01020304) = 0xFFFFFFFFFFFFFFFF),
    -- overlap
    !noErrors (setrEpi8 16 [4, 0, 1, 0, 3, 0, 0, 2, 0, 1, 2, 0, 3, 0, 0, 1]) (set1Epi8 16 1),
    !noErrors512 (set4Epi32 64 0x01000003 0x00020100 0x02000003 0x00010004) (set1Epi8 64 1),
    -- underlap
    !noErrors (setrEpi8 16 [4, 0, 0, 0, 0, 0, 0, 2, 0, 1, 2, 0, 3, 0, 0, 1]) (set1Epi8 16 1),
    !noErrors512 (set4Epi32 64 0x01000003 0x00020100 0x02000000 0x00000004) (set1Epi8 64 1),
    -- register crossing
    noErrors (setrEpi8 16 [0, 2, 0, 3, 0, 0, 2, 0, 1, 2, 0, 3, 0, 0, 1, 1])
      (setrEpi8 16 [3, 2, 1, 3, 2, 1, 2, 1, 1, 2, 1, 3, 2, 4, 3, 2]),
    !noErrors512 (set4Epi32 64 0x01010000 0x03000201 0x00020000 0x03000200)
      (set4Epi32 64 0x02030402 0x03010201 0x01020102 0x03010203) ]

/-- `test`, with a buffer of `N` bytes. -/
def test (N : ℕ) (goodsequences badsequences : List CString) (buffer : Ptr) : Option Ptr := do
  let buffer ← sequences N goodsequences badsequences buffer
  require ((asciiAsserts ++ carryAsserts).all id)
  return buffer

end Unit

/-- `char *goodsequences[]`. -/
def goodsequences : List CString :=
  [ ⟨[0x61], by decide⟩,
    ⟨[0xC3, 0xB1], by decide⟩,
    ⟨[0xE2, 0x82, 0xA1], by decide⟩,
    ⟨[0xF0, 0x90, 0x8C, 0xBC], by decide⟩,
    ⟨[0xEC, 0x95, 0x88, 0xEB, 0x85, 0x95, 0xED, 0x95, 0x98, 0xEC, 0x84, 0xB8, 0xEC, 0x9A, 0x94,
      0x2C, 0x20, 0xEC, 0x84, 0xB8, 0xEC, 0x83, 0x81], by decide⟩,
    ⟨[0xC2, 0x80], by decide⟩,
    ⟨[0xF0, 0x90, 0x80, 0x80], by decide⟩,
    ⟨[0xEE, 0x80, 0x80], by decide⟩ ]

/-- `char *badsequences[]`. -/
def badsequences : List CString :=
  [ ⟨[0xC3, 0x28], by decide⟩,
    ⟨[0xA0, 0xA1], by decide⟩,
    ⟨[0xE2, 0x28, 0xA1], by decide⟩,
    ⟨[0xE2, 0x82, 0x28], by decide⟩,
    ⟨[0xF0, 0x28, 0x8C, 0xBC], by decide⟩,
    ⟨[0xF0, 0x90, 0x28, 0xBC], by decide⟩,
    ⟨[0xF0, 0x28, 0x8C, 0x28], by decide⟩,
    ⟨[0xC0, 0x9F], by decide⟩,
    ⟨[0xF5, 0xFF, 0xFF, 0xFF], by decide⟩,
    ⟨[0xED, 0xA0, 0x81], by decide⟩,
    ⟨[0xF8, 0x90, 0x80, 0x80, 0x80], by decide⟩,
    ⟨[0x31, 0x32, 0x33, 0x34, 0x35, 0x36, 0x37, 0x38, 0x39, 0x30, 0x31, 0x32, 0x33, 0x34, 0x35,
      0xED], by decide⟩,
    ⟨[0x31, 0x32, 0x33, 0x34, 0x35, 0x36, 0x37, 0x38, 0x39, 0x30, 0x31, 0x32, 0x33, 0x34, 0x35,
      0xF1], by decide⟩,
    ⟨[0x31, 0x32, 0x33, 0x34, 0x35, 0x36, 0x37, 0x38, 0x39, 0x30, 0x31, 0x32, 0x33, 0x34, 0x35,
      0xC2], by decide⟩,
    ⟨[0xC2, 0x7F], by decide⟩,
    ⟨[0xCE], by decide⟩,
    ⟨[0xCE, 0xBA, 0xE1], by decide⟩,
    ⟨[0xCE, 0xBA, 0xE1, 0xBD], by decide⟩,
    ⟨[0xCE, 0xBA, 0xE1, 0xBD, 0xB9, 0xCF], by decide⟩,
    ⟨[0xCE, 0xBA, 0xE1, 0xBD, 0xB9, 0xCF, 0x83, 0xCE], by decide⟩,
    ⟨[0xCE, 0xBA, 0xE1, 0xBD, 0xB9, 0xCF, 0x83, 0xCE, 0xBC, 0xCE], by decide⟩,
    ⟨[0xDF], by decide⟩,
    ⟨[0xEF, 0xBF], by decide⟩ ]

end FastValidate.Code
