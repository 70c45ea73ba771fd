import FastValidate.Code.Benchmark

/-!
# `FastValidate.Code.BenchmarkReads`: `validate_utf8` read by read

The `validateUtf8` of `Code/Benchmark.lean` counts in naturals and has no result where it
would read outside the buffer. Here `index` and `length` are 64-bit words, `index++` and
`index + 2` wrap, every read goes through, and its index is recorded in the order of the
reads. The outer loop has no condition, so its rounds are bounded by `fuel`.

`Proofs/ValidateUtf8Reads.lean` shows that the two definitions agree.
-/

set_option autoImplicit false

namespace FastValidate.Code

open Simd Memory

/-- The largest length of an object in C. -/
def PTRDIFF_MAX : ℕ := 2 ^ 63 - 1

/-- The local `index`, and the indexes of the reads so far, the last one first. -/
structure Cursor where
  index : BitVec 64
  reads : List (BitVec 64)
  deriving DecidableEq, Repr

/-- The state at the start: `size_t index = 0`. -/
def Cursor.init : Cursor where
  index := 0
  reads := []

/-- `bytes[index++]` -/
def Cursor.next (bytes : Ptr) (c : Cursor) : Byte × Cursor :=
  (bytes c.index.toNat, { index := c.index + 1, reads := c.index :: c.reads })

/-- `bytes[index++] > 0xBF`, where the function returns false if so and `rest` is what it
does otherwise. -/
def trailingTest (bytes : Ptr) (c : Cursor) (rest : Cursor → Option Bool × Cursor) :
    Option Bool × Cursor :=
  let (byte, c) := c.next bytes
  if byte > 0xBF then (some false, c) else rest c

/-- The two-byte form. The result is the value that the function returns, or `none` where
the outer loop goes on. -/
def twoByteForm (bytes : Ptr) (length : BitVec 64) (byte1 : Byte) (c : Cursor) :
    Option Bool × Cursor :=
  if c.index = length then (some false, c)
  else if byte1 < 0xC2 then (some false, c)
  else trailingTest bytes c fun c => (none, c)

/-- The three-byte form. -/
def threeByteForm (bytes : Ptr) (length : BitVec 64) (byte1 : Byte) (c : Cursor) :
    Option Bool × Cursor :=
  if c.index + 1 ≥ length then (some false, c)
  else
    let (byte2, c) := c.next bytes
    if byte2 > 0xBF
        -- Overlong? 5 most significant bits must not all be zero.
        ∨ (byte1 = 0xE0 ∧ byte2 < 0xA0)
        -- Check for illegal surrogate codepoints.
        ∨ (byte1 = 0xED ∧ 0xA0 ≤ byte2) then (some false, c)
    -- Third byte trailing-byte test.
    else trailingTest bytes c fun c => (none, c)

/-- The four-byte form. -/
def fourByteForm (bytes : Ptr) (length : BitVec 64) (byte1 : Byte) (c : Cursor) :
    Option Bool × Cursor :=
  if c.index + 2 ≥ length then (some false, c)
  else
    let (byte2, c) := c.next bytes
    if byte2 > 0xBF ∨ badPlane byte1 byte2 then (some false, c)
    -- Third byte trailing-byte test, then fourth byte trailing-byte test.
    else trailingTest bytes c fun c => trailingTest bytes c fun c => (none, c)

/-- One round: the test of the fast ASCII path, its read, and the form that the byte
selects. A byte below `0x80` goes back to the same test and read, as the outer loop does
after a sequence. -/
def validateUtf8Round (bytes : Ptr) (length : BitVec 64) (c : Cursor) :
    Option Bool × Cursor :=
  if c.index ≥ length then (some true, c)
  else
    let (byte1, c) := c.next bytes
    if byte1 < 0x80 then (none, c)
    else if byte1 < 0xE0 then twoByteForm bytes length byte1 c
    else if byte1 < 0xF0 then threeByteForm bytes length byte1 c
    else fourByteForm bytes length byte1 c

/-- The loop `for (size_t index = 0;;)`, for at most `fuel` rounds: the returned value and
the last state. -/
def validateUtf8Rounds (bytes : Ptr) (length : BitVec 64) :
    ℕ → Cursor → Option (Bool × Cursor)
  | 0, _ => none
  | fuel + 1, c =>
      match validateUtf8Round bytes length c with
      | (some verdict, c) => some (verdict, c)
      | (none, c) => validateUtf8Rounds bytes length fuel c

end FastValidate.Code
