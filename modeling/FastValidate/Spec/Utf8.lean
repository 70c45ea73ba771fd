import FastValidate.Lib.Automaton
import FastValidate.Lib.Lanes

/-!
# `FastValidate.Spec.Utf8`: legal UTF-8, as the header's table gives it

`legalSequences` is the table in the comment at the top of `simdutf8check.h`, row by row. A
string is `WellFormed` when it is a concatenation of zero or more sequences of the table,
and it `IsPrefix` when some continuation makes it well formed.

`utf8Machine` reads well-formed strings one byte at a time. Its states are the ranges the
next bytes still have to fall in (`State.rest`). `lateMachine` is the machine the block
checkers implement: a lead `C0` or `C1` takes it to a state of its own, and it refuses one
byte later. The theorems about both are in `Proofs/Utf8.lean`.
-/

set_option autoImplicit false

namespace FastValidate.Spec

open Simd (Byte)
open Automata
open Computability

/-- A byte range of the table, both ends included. -/
structure ByteRange where
  lo : Byte
  hi : Byte
  deriving DecidableEq, Repr

/-- Whether a range holds a byte. -/
def ByteRange.admits (r : ByteRange) (b : Byte) : Bool := decide (r.lo ≤ b ∧ b ≤ r.hi)

/-- The legal utf-8 byte sequences, in the rows of the header:

```
Code Points        1st       2s       3s       4s
U+0000..U+007F     00..7F
U+0080..U+07FF     C2..DF   80..BF
U+0800..U+0FFF     E0       A0..BF   80..BF
U+1000..U+CFFF     E1..EC   80..BF   80..BF
U+D000..U+D7FF     ED       80..9F   80..BF
U+E000..U+FFFF     EE..EF   80..BF   80..BF
U+10000..U+3FFFF   F0       90..BF   80..BF   80..BF
U+40000..U+FFFFF   F1..F3   80..BF   80..BF   80..BF
U+100000..U+10FFFF F4       80..8F   80..BF   80..BF
```
-/
def legalSequences : List (List ByteRange) :=
  [ [⟨0x00, 0x7F⟩],
    [⟨0xC2, 0xDF⟩, ⟨0x80, 0xBF⟩],
    [⟨0xE0, 0xE0⟩, ⟨0xA0, 0xBF⟩, ⟨0x80, 0xBF⟩],
    [⟨0xE1, 0xEC⟩, ⟨0x80, 0xBF⟩, ⟨0x80, 0xBF⟩],
    [⟨0xED, 0xED⟩, ⟨0x80, 0x9F⟩, ⟨0x80, 0xBF⟩],
    [⟨0xEE, 0xEF⟩, ⟨0x80, 0xBF⟩, ⟨0x80, 0xBF⟩],
    [⟨0xF0, 0xF0⟩, ⟨0x90, 0xBF⟩, ⟨0x80, 0xBF⟩, ⟨0x80, 0xBF⟩],
    [⟨0xF1, 0xF3⟩, ⟨0x80, 0xBF⟩, ⟨0x80, 0xBF⟩, ⟨0x80, 0xBF⟩],
    [⟨0xF4, 0xF4⟩, ⟨0x80, 0x8F⟩, ⟨0x80, 0xBF⟩, ⟨0x80, 0xBF⟩] ]

/-- The legal sequences as a language. -/
def legalSequence : Language Byte := rowLanguage ByteRange.admits legalSequences

/-- A concatenation of zero or more legal sequences. -/
def WellFormed (s : List Byte) : Prop := s ∈ legalSequence∗

/-- A prefix of a well-formed string. -/
def IsPrefix (s : List Byte) : Prop := ∃ r, WellFormed (s ++ r)

/-! ### The machine of well-formed strings -/

/-- Where a well-formed string stands between two bytes. -/
inductive State where
  /-- Between sequences. -/
  | start
  /-- One continuation byte to come. -/
  | tail1
  /-- Two continuation bytes to come. -/
  | tail2
  /-- Three continuation bytes to come. -/
  | tail3
  /-- After `E0`. -/
  | afterE0
  /-- After `ED`. -/
  | afterED
  /-- After `F0`. -/
  | afterF0
  /-- After `F4`. -/
  | afterF4
  deriving DecidableEq, Repr

/-- The ranges of the bytes to come. -/
def State.rest : State → List ByteRange
  | .start => []
  | .tail1 => [⟨0x80, 0xBF⟩]
  | .tail2 => [⟨0x80, 0xBF⟩, ⟨0x80, 0xBF⟩]
  | .tail3 => [⟨0x80, 0xBF⟩, ⟨0x80, 0xBF⟩, ⟨0x80, 0xBF⟩]
  | .afterE0 => [⟨0xA0, 0xBF⟩, ⟨0x80, 0xBF⟩]
  | .afterED => [⟨0x80, 0x9F⟩, ⟨0x80, 0xBF⟩]
  | .afterF0 => [⟨0x90, 0xBF⟩, ⟨0x80, 0xBF⟩, ⟨0x80, 0xBF⟩]
  | .afterF4 => [⟨0x80, 0x8F⟩, ⟨0x80, 0xBF⟩, ⟨0x80, 0xBF⟩]

/-- The number of continuation bytes to come. -/
def State.need (q : State) : ℕ := q.rest.length

/-- The state after a first byte. -/
def lead (b : Byte) : Option State :=
  if b ≤ 0x7F then some .start
  else if b < 0xC2 then none
  else if b ≤ 0xDF then some .tail1
  else if b = 0xE0 then some .afterE0
  else if b = 0xED then some .afterED
  else if b ≤ 0xEF then some .tail2
  else if b = 0xF0 then some .afterF0
  else if b ≤ 0xF3 then some .tail3
  else if b = 0xF4 then some .afterF4
  else none

/-- The state `q` after a byte of the range `lo..hi`. -/
def follow (lo hi : Byte) (q : State) (b : Byte) : Option State :=
  if lo ≤ b ∧ b ≤ hi then some q else none

/-- The machine of well-formed strings. -/
def utf8Machine : Partial Byte State where
  start := .start
  step
    | .start => lead
    | .tail1 => follow 0x80 0xBF .start
    | .tail2 => follow 0x80 0xBF .tail1
    | .tail3 => follow 0x80 0xBF .tail2
    | .afterE0 => follow 0xA0 0xBF .tail1
    | .afterED => follow 0x80 0x9F .tail1
    | .afterF0 => follow 0x90 0xBF .tail2
    | .afterF4 => follow 0x80 0x8F .tail2

/-! ### The machine of the block checkers -/

/-- What a block checker has seen: a prefix of a well-formed string, or such a prefix up to
the end of a sequence and then a byte `C0` or `C1`. -/
inductive Seen where
  | valid (q : State)
  | overlongLead
  deriving DecidableEq, Repr

/-- The number of continuation bytes to come, as the lead announces it. -/
def Seen.need : Seen → ℕ
  | .valid q => q.need
  | .overlongLead => 1

/-- The machine of the block checkers. A lead `C0` or `C1` is noticed one byte late: no byte
can follow it. -/
def lateMachine : Partial Byte Seen where
  start := .valid .start
  step
    | .valid q, b =>
        if q = .start ∧ (b = 0xC0 ∨ b = 0xC1) then some .overlongLead
        else (utf8Machine.step q b).map .valid
    | .overlongLead, _ => none

end FastValidate.Spec
