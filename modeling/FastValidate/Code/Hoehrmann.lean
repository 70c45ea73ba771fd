import FastValidate.Lib.Loops

/-!
# `FastValidate.Code.Hoehrmann`: `benchmarks/hoehrmann.h`

The table-driven validators. `updatestate` classifies a byte through `utf8d` and looks the
next state up by the state and the class, and `decode` collects the code point as well. The
shiftless versions keep the state multiplied by sixteen, with a table of its own. States
stay below 144, so the `uint32_t` sums of the lookups are sums of naturals.

Each validator is written twice in the header, once for each `updatestate`. The body stands
once in the namespace `Dfa`. The double validators index a `size_t` length with an `int`:
`forInt` is that loop, and it has no result where the C code has no defined behaviour.
-/

set_option autoImplicit false

namespace FastValidate.Code

open Simd Memory Loops

/-! ### The tables -/

/-- The state at the start of a sequence. -/
def UTF8_ACCEPT : ℕ := 0
/-- The state that no byte leaves. -/
def UTF8_REJECT : ℕ := 1
/-- The reject state, multiplied by sixteen as all states of the shiftless versions. -/
def SHIFTLESS_UTF8_REJECT : ℕ := 16

/-- The class of each byte. -/
def utf8d : List ℕ :=
  [0, 0, 0, 0, 0, 0, 0, 0, 0, 0, 0, 0, 0, 0, 0, 0,
    0, 0, 0, 0, 0, 0, 0, 0, 0, 0, 0, 0, 0, 0, 0, 0,                                 -- 00..1f
    0, 0, 0, 0, 0, 0, 0, 0, 0, 0, 0, 0, 0, 0, 0, 0,
    0, 0, 0, 0, 0, 0, 0, 0, 0, 0, 0, 0, 0, 0, 0, 0,                                 -- 20..3f
    0, 0, 0, 0, 0, 0, 0, 0, 0, 0, 0, 0, 0, 0, 0, 0,
    0, 0, 0, 0, 0, 0, 0, 0, 0, 0, 0, 0, 0, 0, 0, 0,                                 -- 40..5f
    0, 0, 0, 0, 0, 0, 0, 0, 0, 0, 0, 0, 0, 0, 0, 0,
    0, 0, 0, 0, 0, 0, 0, 0, 0, 0, 0, 0, 0, 0, 0, 0,                                 -- 60..7f
    1, 1, 1, 1, 1, 1, 1, 1, 1, 1, 1, 1, 1, 1, 1, 1,
    9, 9, 9, 9, 9, 9, 9, 9, 9, 9, 9, 9, 9, 9, 9, 9,                                 -- 80..9f
    7, 7, 7, 7, 7, 7, 7, 7, 7, 7, 7, 7, 7, 7, 7, 7,
    7, 7, 7, 7, 7, 7, 7, 7, 7, 7, 7, 7, 7, 7, 7, 7,                                 -- a0..bf
    8, 8, 2, 2, 2, 2, 2, 2, 2, 2, 2, 2, 2, 2, 2, 2,
    2, 2, 2, 2, 2, 2, 2, 2, 2, 2, 2, 2, 2, 2, 2, 2,                                 -- c0..df
    0xa, 0x3, 0x3, 0x3, 0x3, 0x3, 0x3, 0x3, 0x3, 0x3, 0x3, 0x3, 0x3, 0x4, 0x3, 0x3, -- e0..ef
    0xb, 0x6, 0x6, 0x6, 0x5, 0x8, 0x8, 0x8, 0x8, 0x8, 0x8, 0x8, 0x8, 0x8, 0x8, 0x8] -- f0..ff

/-- The next state, by the state and the class: sixteen entries a state. -/
def utf8dTransition : List ℕ :=
  [0x0, 0x1, 0x2, 0x3, 0x5, 0x8, 0x7, 0x1, 0x1, 0x1, 0x4, 0x6, 0x1, 0x1, 0x1, 0x1,  -- s0..s0
    1, 1, 1, 1, 1, 1, 1, 1, 1, 1, 1, 1, 1, 1, 1, 1,
    1, 0, 1, 1, 1, 1, 1, 0, 1, 0, 1, 1, 1, 1, 1, 1,                                 -- s1..s2
    1, 2, 1, 1, 1, 1, 1, 2, 1, 2, 1, 1, 1, 1, 1, 1,
    1, 1, 1, 1, 1, 1, 1, 2, 1, 1, 1, 1, 1, 1, 1, 1,                                 -- s3..s4
    1, 2, 1, 1, 1, 1, 1, 1, 1, 2, 1, 1, 1, 1, 1, 1,
    1, 1, 1, 1, 1, 1, 1, 3, 1, 3, 1, 1, 1, 1, 1, 1,                                 -- s5..s6
    1, 3, 1, 1, 1, 1, 1, 3, 1, 3, 1, 1, 1, 1, 1, 1,
    1, 3, 1, 1, 1, 1, 1, 1, 1, 1, 1, 1, 1, 1, 1, 1]                                 -- s7..s8

/-- The next state multiplied by sixteen. -/
def shiftedUtf8dTransition : List ℕ :=
  [0x0, 0x10, 0x20, 0x30, 0x50, 0x80, 0x70, 0x10, 0x10, 0x10, 0x40, 0x60,
    0x10, 0x10, 0x10, 0x10, 0x10, 0x10, 0x10, 0x10, 0x10, 0x10, 0x10, 0x10,
    0x10, 0x10, 0x10, 0x10, 0x10, 0x10, 0x10, 0x10, 0x10, 0x0, 0x10, 0x10,
    0x10, 0x10, 0x10, 0x0, 0x10, 0x0, 0x10, 0x10, 0x10, 0x10, 0x10, 0x10,
    0x10, 0x20, 0x10, 0x10, 0x10, 0x10, 0x10, 0x20, 0x10, 0x20, 0x10, 0x10,
    0x10, 0x10, 0x10, 0x10, 0x10, 0x10, 0x10, 0x10, 0x10, 0x10, 0x10, 0x20,
    0x10, 0x10, 0x10, 0x10, 0x10, 0x10, 0x10, 0x10, 0x10, 0x20, 0x10, 0x10,
    0x10, 0x10, 0x10, 0x10, 0x10, 0x20, 0x10, 0x10, 0x10, 0x10, 0x10, 0x10,
    0x10, 0x10, 0x10, 0x10, 0x10, 0x10, 0x10, 0x30, 0x10, 0x30, 0x10, 0x10,
    0x10, 0x10, 0x10, 0x10, 0x10, 0x30, 0x10, 0x10, 0x10, 0x10, 0x10, 0x30,
    0x10, 0x30, 0x10, 0x10, 0x10, 0x10, 0x10, 0x10, 0x10, 0x30, 0x10, 0x10,
    0x10, 0x10, 0x10, 0x10, 0x10, 0x10, 0x10, 0x10, 0x10, 0x10, 0x10, 0x10]

/-- The two values that `decode` takes and leaves behind pointers, each a `uint32_t`. -/
structure Decoding where
  state : ℕ
  codep : BitVec 32
  deriving DecidableEq, Repr

/-- A byte of a sequence adds six bits to the code point. The first byte starts it, without
the bits that its class masks out. -/
def decode (d : Decoding) (byte : Byte) : Decoding :=
  let type := utf8d.getD byte.toNat 0
  let codep :=
    if d.state ≠ UTF8_ACCEPT then (byte.setWidth 32 &&& 0x3f#32) ||| (d.codep <<< 6)
    else (0xff#32 >>> type) &&& byte.setWidth 32
  { state := utf8dTransition.getD (16 * d.state + type) 0, codep := codep }

/-- The same with the state multiplied by sixteen, so that the lookup needs no shift. -/
def shiftlessDecode (d : Decoding) (byte : Byte) : Decoding :=
  let type := utf8d.getD byte.toNat 0
  let codep :=
    if d.state ≠ UTF8_ACCEPT then (byte.setWidth 32 &&& 0x3f#32) ||| (d.codep <<< 6)
    else (0xff#32 >>> type) &&& byte.setWidth 32
  { state := shiftedUtf8dTransition.getD (d.state + type) 0, codep := codep }

/-- The C function stores the new state and returns it. -/
def updatestate (state : ℕ) (byte : Byte) : ℕ :=
  let type := utf8d.getD byte.toNat 0
  utf8dTransition.getD (16 * state + type) 0

/-- `decode` without the code point, on the states multiplied by sixteen. -/
def shiftlessUpdatestate (state : ℕ) (byte : Byte) : ℕ :=
  let type := utf8d.getD byte.toNat 0
  shiftedUtf8dTransition.getD (state + type) 0

/-- Whether no byte is negative as a signed `char`. -/
def isAscii (c : Ptr) (len : ℕ) : Bool :=
  (forLtM len (fun i _ => if (c i).slt 0 then none else some ()) 0 ()).isSome

/-! ### The bodies shared by the two tables -/

/-- `for (int j = start; j < stop; j++)` with a `size_t` bound. The comparison converts `j`
to 64 bits without sign. There is no result where the body would read at a negative index,
or where `j++` would exceed `INT_MAX`. -/
def forInt {σ : Type} (stop : ℕ) (body : ℕ → σ → σ) (j : ℤ) (s : σ) : Option σ :=
  if (BitVec.ofInt 64 j).toNat < stop then
    if 0 ≤ j ∧ j < 2 ^ 31 - 1 then forInt stop body (j + 1) (body j.toNat s) else none
  else some s
termination_by (2 ^ 31 - j).toNat
decreasing_by omega

/-- The conversion of a `size_t` to an `int`: the low 32 bits, in two's complement. -/
def toCInt (x : ℕ) : ℤ := (BitVec.ofNat 32 x).toInt

namespace Dfa

variable (update : ℕ → Byte → ℕ) (reject : ℕ)

/-- Takes every byte and looks at the last state only. -/
def branchless (cu : Ptr) (len : ℕ) : Bool :=
  let state := (forLt len 1 (fun i state => update state (cu i)) 0 0).2
  state != reject

/-- Leaves the loop at the first reject. -/
def earlyExit (cu : Ptr) (len : ℕ) : Bool :=
  let state :=
    forLtM len
      (fun i state =>
        let state := update state (cu i)
        if state = reject then none else some state)
      0 0
  state.isSome

/-- `while (c[half] <= 0xBF && c[half] > 0x80 && half > 0) half--;` -/
def splitPoint (c : Ptr) : ℕ → ℕ
  | 0 => 0
  | half + 1 =>
      if c (half + 1) ≤ 0xBF ∧ c (half + 1) > 0x80 then splitPoint c half else half + 1

/-- Two runs side by side, over the two halves, and then the bytes left over. -/
def double (c : Ptr) (len : ℕ) : Option Bool := do
  let half := splitPoint c (len / 2)
  let (s1, s2) :=
    (forLt half 1 (fun i s => (update s.1 (c i), update s.2 (c (half + i)))) 0 (0, 0)).2
  let s2 ← forInt len (fun j s2 => update s2 (c j)) (toCInt (half * 2)) s2
  return s1 != reject && s2 != reject

end Dfa

/-! ### The validators -/

/-- `validate_dfa_utf8_branchless`. -/
def validateDfaUtf8Branchless (c : Ptr) (len : ℕ) : Bool :=
  Dfa.branchless updatestate UTF8_REJECT c len

/-- `shiftless_validate_dfa_utf8_branchless`. -/
def shiftlessValidateDfaUtf8Branchless (c : Ptr) (len : ℕ) : Bool :=
  Dfa.branchless shiftlessUpdatestate SHIFTLESS_UTF8_REJECT c len

/-- `validate_dfa_utf8`, which stops at the first reject. -/
def validateDfaUtf8 (c : Ptr) (len : ℕ) : Bool :=
  Dfa.earlyExit updatestate UTF8_REJECT c len

/-- `shiftless_validate_dfa_utf8`, which stops at the first reject. -/
def shiftlessValidateDfaUtf8 (c : Ptr) (len : ℕ) : Bool :=
  Dfa.earlyExit shiftlessUpdatestate SHIFTLESS_UTF8_REJECT c len

/-- `validate_dfa_utf8_double`. No result is a read at a negative index, or an overflow of the
`int` index. -/
def validateDfaUtf8Double (c : Ptr) (len : ℕ) : Option Bool :=
  Dfa.double updatestate UTF8_REJECT c len

/-- `shiftless_validate_dfa_utf8_double`. No result is as for the other one. -/
def shiftlessValidateDfaUtf8Double (c : Ptr) (len : ℕ) : Option Bool :=
  Dfa.double shiftlessUpdatestate SHIFTLESS_UTF8_REJECT c len

end FastValidate.Code
