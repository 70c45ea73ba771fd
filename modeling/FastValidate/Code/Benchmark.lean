import FastValidate.Lib.Loops

/-!
# `FastValidate.Code.Benchmark`: `validate_utf8` and `populate_utf8`

The scalar validator and the text generator of `benchmarks/benchmark.c`.

`validateUtf8` reads through `read`, which has no result outside the buffer, so a result is
also a proof that every read was inside. The generator takes the values of `rand()` as a
stream, and a bound on the number of rounds because it need not end.
-/

set_option autoImplicit false

namespace FastValidate.Code

open Simd Memory

/-! ### `validate_utf8` -/

/-- `bytes[index]`, inside the buffer only. -/
def read (bytes : Ptr) (length index : ℕ) : Option Byte :=
  if index < length then some (bytes index) else none

/-- The plane check `((byte1 << 28) + (byte2 - 0x90)) >> 30 != 0`, on 32-bit integers with an
arithmetic shift. -/
def badPlane (byte1 byte2 : Byte) : Bool :=
  let x : BitVec 32 := (byte1.setWidth 32 <<< 28) + (byte2.setWidth 32 - 0x90)
  x.sshiftRight 30 != 0

/-- The bytes behind a lead `byte1` of `0x80` or above, which start at `index`. The result is
the number of bytes passed over, or `none` where the source returns false. A condition of
the source that reads bytes in its middle is cut there. -/
def trailingBytes (bytes : Ptr) (length : ℕ) (byte1 : Byte) (index : ℕ) :
    Option (Option ℕ) := do
  if byte1 < 0xE0 then
    -- Two-byte form.
    if index = length then return none
    if byte1 < 0xC2 then return none
    let byte2 ← read bytes length index
    if byte2 > 0xBF then return none
    return some 1
  else if byte1 < 0xF0 then
    -- Three-byte form.
    if index + 1 ≥ length then return none
    let byte2 ← read bytes length index
    if byte2 > 0xBF
        -- Overlong? 5 most significant bits must not all be zero.
        ∨ (byte1 = 0xE0 ∧ byte2 < 0xA0)
        -- Check for illegal surrogate codepoints.
        ∨ (byte1 = 0xED ∧ 0xA0 ≤ byte2) then return none
    -- Third byte trailing-byte test.
    let byte3 ← read bytes length (index + 1)
    if byte3 > 0xBF then return none
    return some 2
  else
    -- Four-byte form.
    if index + 2 ≥ length then return none
    let byte2 ← read bytes length index
    if byte2 > 0xBF ∨ badPlane byte1 byte2 then return none
    -- Third byte trailing-byte test
    let byte3 ← read bytes length (index + 1)
    if byte3 > 0xBF then return none
    -- Fourth byte trailing-byte test
    let byte4 ← read bytes length (index + 2)
    if byte4 > 0xBF then return none
    return some 3

/-- The loop of `validate_utf8`. The outer loop and the fast ASCII path begin with the same
test and the same read, so one recursion is both. -/
def validateUtf8From (bytes : Ptr) (length index : ℕ) : Option Bool :=
  if index ≥ length then some true
  else
    (read bytes length index).bind fun byte1 =>
      if byte1 < 0x80 then validateUtf8From bytes length (index + 1)
      else
        (trailingBytes bytes length byte1 (index + 1)).bind fun
          | none => some false
          | some count => validateUtf8From bytes length (index + 1 + count)
termination_by length - index

/-- `validate_utf8(bytes, length)`. -/
def validateUtf8 (bytes : Ptr) (length : ℕ) : Option Bool := validateUtf8From bytes length 0

/-! ### `populate_utf8` -/

/-- The right-hand side of a statement `data[i++] = ...;`. -/
inductive Emit where
  /-- `w` -/
  | byte (w : ℕ)
  /-- `lo + rand() % (hi - lo + 1)` -/
  | random (lo hi : ℕ)
  deriving DecidableEq, Repr

/-- The statements of the branch for `w`. -/
def emits (w : ℕ) : List Emit :=
  if w < 0x80 then [.byte 0x20]
  else if w < 0xE0 then [.random 0xC2 0xDF, .random 0x80 0xBF]
  else if w = 0xE0 then [.byte w, .random 0xA0 0xBF, .random 0x80 0xBF]
  else if w ≤ 0xEC then [.byte w, .random 0x80 0xBF, .random 0x80 0xBF]
  else if w = 0xED then [.byte w, .random 0x80 0x9F, .random 0x80 0xBF]
  else if w ≤ 0xEF then [.byte w, .random 0x80 0xBF, .random 0x80 0xBF]
  -- This branch is never taken: the one before it covers its values.
  else if w < 0xF0 then
    [.random 0xF1 0xF3, .random 0x80 0xBF, .random 0x80 0xBF, .random 0x80 0xBF]
  else if w = 0xF0 then
    [.byte w, .random 0x90 0xBF, .random 0x80 0xBF, .random 0x80 0xBF]
  else if w ≤ 0xF3 then
    [.random 0xF1 0xF3, .random 0x80 0xBF, .random 0x80 0xBF, .random 0x80 0xBF]
  else if w = 0xF4 then
    [.byte w, .random 0x80 0x8F, .random 0x80 0xBF, .random 0x80 0xBF]
  else []

/-- The state of the generator. `calls` counts the calls of `rand`, and `written` keeps the
indexes written so far. -/
structure Populating where
  data : Ptr
  i : ℕ
  calls : ℕ
  written : List ℕ

/-- `data[i] = x`, converted to `char`. -/
def Populating.store (s : Populating) (x : ℕ) : Populating :=
  { s with
      data := Function.update s.data s.i (BitVec.ofNat 8 x)
      written := s.i :: s.written }

/-- `data[i++] = ...` -/
def Populating.emit (rand : ℕ → ℕ) (s : Populating) : Emit → Populating
  | .byte w => { s.store w with i := s.i + 1 }
  | .random lo hi =>
      { s.store (lo + rand s.calls % (hi - lo + 1)) with
          i := s.i + 1
          calls := s.calls + 1 }

/-- One round of the loop: `w = rand() & 0xFF` and the statements for it. -/
def Populating.round (rand : ℕ → ℕ) (s : Populating) : Populating :=
  let w := rand s.calls &&& 0xFF
  (emits w).foldl (Populating.emit rand) { s with calls := s.calls + 1 }

/-- `for (; i < N;)`, for at most `fuel` rounds. -/
def Populating.loop (rand : ℕ → ℕ) (N : ℕ) : ℕ → Populating → Option Populating
  | 0, s => if s.i < N then none else some s
  | fuel + 1, s => if s.i < N then loop rand N fuel (s.round rand) else some s

/-- `populate_utf8(data, N)` with the values `rand` of `rand()`, where it returns within
`fuel` rounds. The returned length is the `i` of the result. -/
def populateUtf8 (rand : ℕ → ℕ) (fuel : ℕ) (data : Ptr) (N : ℕ) : Option Populating :=
  (Populating.loop rand N fuel { data := data, i := 0, calls := 0, written := [] }).map
    fun s => s.store 0

end FastValidate.Code
