import FastValidate.Spec.Utf8

/-!
# `FastValidate.Spec.CodePoints`: the code points of the header's table

The first column of the table: `codePoints` has the range of each row. `encode` writes a
code point as bytes, six bits to a continuation byte, and `codePoint` reads them back.
`Proofs/CodePoints.lean` shows that each row of the table has the encodings of the code
points of its range, so the two columns say the same.
-/

set_option autoImplicit false

namespace FastValidate.Spec

open Simd (Byte)

/-- A range of code points, both ends included. -/
structure CodePointRange where
  lo : ℕ
  hi : ℕ
  deriving DecidableEq, Repr

/-- The column `Code Points` of the table, in the order of `legalSequences`. -/
def codePoints : List CodePointRange :=
  [ ⟨0x0000, 0x007F⟩,
    ⟨0x0080, 0x07FF⟩,
    ⟨0x0800, 0x0FFF⟩,
    ⟨0x1000, 0xCFFF⟩,
    ⟨0xD000, 0xD7FF⟩,
    ⟨0xE000, 0xFFFF⟩,
    ⟨0x10000, 0x3FFFF⟩,
    ⟨0x40000, 0xFFFFF⟩,
    ⟨0x100000, 0x10FFFF⟩ ]

/-- A code point of the table. -/
def IsCodePoint (v : ℕ) : Prop := ∃ r ∈ codePoints, r.lo ≤ v ∧ v ≤ r.hi

/-- Whether a number is a code point is decided by the table. -/
instance (v : ℕ) : Decidable (IsCodePoint v) :=
  inferInstanceAs (Decidable (∃ r ∈ codePoints, r.lo ≤ v ∧ v ≤ r.hi))

/-- A code point with its range. -/
abbrev CodePoint := { v : ℕ // IsCodePoint v }

/-- A code point as a `uint32_t`. -/
def CodePoint.toWord (v : CodePoint) : BitVec 32 := BitVec.ofNat 32 v

/-- The continuation byte for the six bits of `v` from bit `6 * k` on. -/
def continuation (v k : ℕ) : Byte := BitVec.ofNat 8 (0x80 + v / 64 ^ k % 64)

/-- The bytes of a code point. -/
def encode (v : ℕ) : List Byte :=
  if v < 0x80 then [BitVec.ofNat 8 v]
  else if v < 0x800 then [BitVec.ofNat 8 (0xC0 + v / 64), continuation v 0]
  else if v < 0x10000 then
    [BitVec.ofNat 8 (0xE0 + v / 64 ^ 2), continuation v 1, continuation v 0]
  else
    [BitVec.ofNat 8 (0xF0 + v / 64 ^ 3), continuation v 2, continuation v 1,
      continuation v 0]

/-- The bytes of a text, code point by code point. -/
def encodeText (vs : List CodePoint) : List Byte := vs.flatMap fun v : CodePoint => encode v

/-- The bits of the code point in a first byte. -/
def payload (b : Byte) : ℕ :=
  if b < 0x80 then b.toNat
  else if b < 0xE0 then b.toNat - 0xC0
  else if b < 0xF0 then b.toNat - 0xE0
  else b.toNat - 0xF0

/-- The number that the bytes of a sequence stand for. -/
def codePoint : List Byte → ℕ
  | [] => 0
  | b :: w => w.foldl (fun v c => 64 * v + c.toNat % 64) (payload b)

end FastValidate.Spec
