import FastValidate.Lib.Loops

/-!
# `FastValidate.Code.SimdAsciiCheck`: the ASCII validators

`include/simdasciicheck.h` and `include/simdasciicheck_avx512.h`, and the two word-wise
validators of `benchmarks/benchmark.c`. Each of them ors the bytes together, block by block
and then byte by byte, and looks at the top bits of the result.
-/

set_option autoImplicit false

namespace FastValidate.Code

open Simd Memory Loops

/-- The full blocks: `has_error` collects the bits of the bytes. The result is the counter
and the register at the exit. -/
def orBlocks (n : ℕ) (src : Ptr) (len : ℕ) : ℕ × Reg n :=
  if n ≤ len then
    forLe (len - n) n (fun i hasError => orSi hasError (loadu n src i)) 0 (setzero n)
  else (0, setzero n)

/-- The body of the SSE and AVX2 versions. `tail_has_error` is a `char`, promoted to `int`
with its sign. -/
def validateAsciiBlocks (n : ℕ) (src : Ptr) (len : ℕ) : Bool :=
  let (i, hasError) := orBlocks n src len
  let errorMask : BitVec 32 := movemaskEpi8 hasError
  let tailHasError : Byte := (forLt len 1 (fun i tail => tail ||| src i) i 0).2
  let errorMask := errorMask ||| (tailHasError.signExtend 32 &&& 0x80)
  decide (errorMask = 0)

/-- `validate_ascii_fast`, with blocks of 16 bytes. -/
def validateAsciiFast (src : Ptr) (len : ℕ) : Bool := validateAsciiBlocks 16 src len

/-- `validate_ascii_fast_avx`, with blocks of 32 bytes. -/
def validateAsciiFastAvx (src : Ptr) (len : ℕ) : Bool := validateAsciiBlocks 32 src len

/-- The AVX-512 version reduces the register to one `int` and ors the tail into it, each
`char` promoted with its sign. -/
def validateAsciiFastAvx512 (src : Ptr) (len : ℕ) : Bool :=
  let (i, hasError) := orBlocks 64 src len
  let reduced : BitVec 32 := reduceOrEpi32 hasError
  let reduced := (forLt len 1 (fun i reduced => reduced ||| (src i).signExtend 32) i reduced).2
  decide (reduced &&& 0x80808080 = 0)

/-! ### The word-wise versions -/

/-- The first loop: four words at a time, each into a mask of its own. -/
def orFourWords (src : Ptr) (len : ℕ) :
    ℕ × BitVec 64 × BitVec 64 × BitVec 64 × BitVec 64 :=
  forLt (len - 32) 32
    (fun i (mask1, mask2, mask3, mask4) =>
      (mask1 ||| load64 src i, mask2 ||| load64 src (i + 8),
        mask3 ||| load64 src (i + 16), mask4 ||| load64 src (i + 24)))
    0 (0, 0, 0, 0)

/-- The body of `validate_ascii_nosimd` and `validate_ascii_nointrin`: four words at a time,
then one word at a time, then one byte at a time. The bounds `end - 32` and `end - 8` are
strict. -/
def validateAsciiWords (src : Ptr) (len : ℕ) : Bool :=
  let (i, mask1, mask2, mask3, mask4) := orFourWords src len
  let (i, mask1) := forLt (len - 8) 8 (fun i mask1 => mask1 ||| load64 src i) i mask1
  let tailMask : Byte := (forLt len 1 (fun i tail => tail ||| src i) i 0).2
  let finalMask : BitVec 64 := mask1 ||| mask2 ||| mask3 ||| mask4 ||| tailMask.setWidth 64
  decide (finalMask &&& 0x8080808080808080 = 0)

/-- `validate_ascii_nosimd`. -/
def validateAsciiNosimd (src : Ptr) (len : ℕ) : Bool := validateAsciiWords src len

/-- `validate_ascii_nointrin`, the same code without the attribute against vectorization. -/
def validateAsciiNointrin (src : Ptr) (len : ℕ) : Bool := validateAsciiWords src len

end FastValidate.Code
