import FastValidate.Code.SimdAsciiCheck
import FastValidate.Code.SimdUtf8CheckAvx512
import FastValidate.Lib.WordLoops

/-!
# `FastValidate.Code.SimdReads`: the validators read by read

The validators of `Code/SimdUtf8Check.lean`, `Code/SimdUtf8CheckAvx512.lean` and
`Code/SimdAsciiCheck.lean` count in naturals and read where they like. Here the counter and
the length are a `size_t`, additions and subtractions wrap, and every look at the text is a
`fetch`, which gives the bytes that it records and no others. A validator has no result when
its rounds exceed `fuel`, or when it copies more bytes than its local buffer holds.

The two word-wise validators move a pointer. Their counter is the distance of `src` from the
first byte, and their conditions compare the addresses, which are `base` and what is added to
it.

`Proofs/SimdReads.lean` shows that both models agree, for every length.
-/

set_option autoImplicit false

namespace FastValidate.Code

open Simd Memory Loops

/-- The counter of a 64-bit loop over blocks, and what the body leaves: its own state, and
the reads so far. -/
abbrev Logged (σ : Type) := σ × List Access

/-- The body of a loop over blocks, with a load of `n` bytes at `i`. -/
def blockRound (n : ℕ) {σ : Type} (body : Reg n → σ → σ) (src : Ptr) (i : BitVec 64)
    (s : Logged σ) : Logged σ :=
  let (block, reads) := fetch src ⟨i, BitVec.ofNat 64 n⟩ s.2
  (body (loadu n block 0) s.1, reads)

/-- The body of a loop over bytes, with a read of the byte at `i`. -/
def byteRound {σ : Type} (body : Byte → σ → σ) (src : Ptr) (i : BitVec 64) (s : Logged σ) :
    Logged σ :=
  let (byte, reads) := fetch src ⟨i, 1⟩ s.2
  (body (byte 0) s.1, reads)

/-- `if (len >= n) for (; i <= len - n; i += n)`. -/
def blocksReads (n : ℕ) {σ : Type} (body : Reg n → σ → σ) (init : σ) (src : Ptr) (fuel : ℕ)
    (len : BitVec 64) : Option (BitVec 64 × Logged σ) :=
  if BitVec.ofNat 64 n ≤ len then
    whileWord (fun i => i ≤ len - BitVec.ofNat 64 n) (BitVec.ofNat 64 n)
      (blockRound n body src) fuel 0 (init, [])
  else some (0, init, [])

/-- `for (; i < len; i++)`. -/
def tailReads {σ : Type} (body : Byte → σ → σ) (src : Ptr) (fuel : ℕ) (len i : BitVec 64)
    (s : Logged σ) : Option (BitVec 64 × Logged σ) :=
  whileWord (fun i => i < len) 1 (byteRound body src) fuel i s

/-- `char buffer[n]; memset(buffer, 0, n); memcpy(buffer, src + i, count);` -/
def copyTail (n : ℕ) (src : Ptr) (i count : BitVec 64) (reads : List Access) :
    Option (Ptr × List Access) :=
  if count.toNat ≤ n then some (fetch src ⟨i, count⟩ reads) else none

/-! ### UTF-8 -/

/-- `Shape.validate` with its reads. -/
def Shape.validateReads (n : ℕ) {ε : Type}
    (step lastStep : Reg n → ProcessedUtfBytes n → ε → ProcessedUtfBytes n × ε)
    (threshold : ProcessedUtfBytes n → ε → ε) (noError : ε) (isZero : ε → Bool)
    (src : Ptr) (fuel : ℕ) (len : BitVec 64) : Option (Bool × List Access) := do
  let (i, (previous, hasError), reads) ←
    blocksReads n (fun block s => step block s.1 s.2) (.zero n, noError) src fuel len
  -- last part
  if i < len then
    let (buffer, reads) ← copyTail n src i (len - i) reads
    return (isZero (lastStep (loadu n buffer 0) previous hasError).2, reads)
  else return (isZero (threshold previous hasError), reads)

/-- `validateUtf8Fast` with its reads. -/
def validateUtf8FastReads : Ptr → ℕ → BitVec 64 → Option (Bool × List Access) :=
  Shape.validateReads 16 checkUTF8Bytes checkUTF8Bytes carryThreshold (setzero 16)
    fun hasError => testz hasError hasError

/-- `validateUtf8FastAvx` with its reads. -/
def validateUtf8FastAvxReads : Ptr → ℕ → BitVec 64 → Option (Bool × List Access) :=
  Shape.validateReads 32 avxcheckUTF8Bytes avxcheckUTF8Bytes avxCarryThreshold (setzero 32)
    fun hasError => testz hasError hasError

/-- `validateUtf8FastAvxAsciipath` with its reads. -/
def validateUtf8FastAvxAsciipathReads : Ptr → ℕ → BitVec 64 → Option (Bool × List Access) :=
  Shape.validateReads 32 avxcheckUTF8BytesAsciipath avxcheckUTF8Bytes avxCarryThreshold
    (setzero 32) fun hasError => testz hasError hasError

/-- `validateUtf8FastAvx512` with its reads. -/
def validateUtf8FastAvx512Reads : Ptr → ℕ → BitVec 64 → Option (Bool × List Access) :=
  Shape.validateReads 64 avx512CheckUTF8Bytes avx512CheckUTF8Bytes avx512CarryThreshold 0
    fun hasError => decide (hasError = 0)

/-- `validateUtf8FastAvx512Asciipath` with its reads. -/
def validateUtf8FastAvx512AsciipathReads : Ptr → ℕ → BitVec 64 → Option (Bool × List Access) :=
  Shape.validateReads 64 avx512CheckUTF8BytesAsciipath avx512CheckUTF8Bytes
    avx512CarryThreshold 0 fun hasError => decide (hasError = 0)

/-! ### ASCII -/

/-- `validateAsciiBlocks` with its reads. -/
def validateAsciiBlocksReads (n : ℕ) (src : Ptr) (fuel : ℕ) (len : BitVec 64) :
    Option (Bool × List Access) := do
  let (i, hasError, reads) ←
    blocksReads n (fun block hasError => orSi hasError block) (setzero n) src fuel len
  let errorMask : BitVec 32 := movemaskEpi8 hasError
  let (_, tailHasError, reads) ←
    tailReads (fun byte tail => tail ||| byte) src fuel len i ((0 : Byte), reads)
  let errorMask := errorMask ||| (tailHasError.signExtend 32 &&& 0x80)
  return (decide (errorMask = 0), reads)

/-- `validateAsciiFast` with its reads. -/
def validateAsciiFastReads : Ptr → ℕ → BitVec 64 → Option (Bool × List Access) :=
  validateAsciiBlocksReads 16

/-- `validateAsciiFastAvx` with its reads. -/
def validateAsciiFastAvxReads : Ptr → ℕ → BitVec 64 → Option (Bool × List Access) :=
  validateAsciiBlocksReads 32

/-- `validateAsciiFastAvx512` with its reads. The bytes of the tail go into the same `int` as
the blocks. -/
def validateAsciiFastAvx512Reads (src : Ptr) (fuel : ℕ) (len : BitVec 64) :
    Option (Bool × List Access) := do
  let (i, hasError, reads) ←
    blocksReads 64 (fun block hasError => orSi hasError block) (setzero 64) src fuel len
  let reduced : BitVec 32 := reduceOrEpi32 hasError
  let (_, reduced, reads) ←
    tailReads (fun byte reduced => reduced ||| byte.signExtend 32) src fuel len i (reduced, reads)
  return (decide (reduced &&& 0x80808080 = 0), reads)

/-! ### The word-wise versions -/

/-- The four masks of the first loop. -/
abbrev FourMasks := BitVec 64 × BitVec 64 × BitVec 64 × BitVec 64

/-- The body of the first loop, which reads `p[0]` to `p[3]`. -/
def fourWordsRound (src : Ptr) (i : BitVec 64) (s : Logged FourMasks) : Logged FourMasks :=
  let ((mask1, mask2, mask3, mask4), reads) := s
  let (p0, reads) := fetch src ⟨i, 8⟩ reads
  let (p1, reads) := fetch src ⟨i + 8, 8⟩ reads
  let (p2, reads) := fetch src ⟨i + 16, 8⟩ reads
  let (p3, reads) := fetch src ⟨i + 24, 8⟩ reads
  ((mask1 ||| load64 p0 0, mask2 ||| load64 p1 0, mask3 ||| load64 p2 0,
    mask4 ||| load64 p3 0), reads)

/-- `for (; src < end - 32; src += 32)`. -/
def orFourWordsReads (src : Ptr) (base : BitVec 64) (fuel : ℕ) (len : BitVec 64) :
    Option (BitVec 64 × Logged FourMasks) :=
  whileWord (fun i => base + i < base + len - 32) 32 (fourWordsRound src) fuel 0
    ((0, 0, 0, 0), [])

/-- The body of the second loop, which reads one word. -/
def wordRound (src : Ptr) (i : BitVec 64) (s : Logged (BitVec 64)) : Logged (BitVec 64) :=
  let (p, reads) := fetch src ⟨i, 8⟩ s.2
  (s.1 ||| load64 p 0, reads)

/-- `validateAsciiWords` with its reads, over the bytes from the address `base` on. -/
def validateAsciiWordsReads (src : Ptr) (base : BitVec 64) (fuel : ℕ) (len : BitVec 64) :
    Option (Bool × List Access) := do
  let (i, (mask1, mask2, mask3, mask4), reads) ← orFourWordsReads src base fuel len
  -- The first mask goes on, and the others are as the first loop left them.
  let (i, mask1, reads) ←
    whileWord (fun i => base + i < base + len - 8) 8 (wordRound src) fuel i (mask1, reads)
  let (_, tailMask, reads) ←
    whileWord (fun i => base + i < base + len) 1
      (byteRound (fun byte tailMask => tailMask ||| byte) src) fuel i ((0 : Byte), reads)
  let finalMask : BitVec 64 := mask1 ||| mask2 ||| mask3 ||| mask4 ||| tailMask.setWidth 64
  return (decide (finalMask &&& 0x8080808080808080 = 0), reads)

/-- `validateAsciiNosimd` with its reads. -/
def validateAsciiNosimdReads : Ptr → BitVec 64 → ℕ → BitVec 64 → Option (Bool × List Access) :=
  validateAsciiWordsReads

/-- `validateAsciiNointrin` with its reads. -/
def validateAsciiNointrinReads :
    Ptr → BitVec 64 → ℕ → BitVec 64 → Option (Bool × List Access) :=
  validateAsciiWordsReads

end FastValidate.Code
