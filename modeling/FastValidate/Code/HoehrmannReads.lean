import FastValidate.Code.Hoehrmann

/-!
# `FastValidate.Code.HoehrmannReads`: the table-driven validators read by read

The validators of `Code/Hoehrmann.lean` with the indexes of their reads, in order. Every look
at the text is a `readAt`, which gives a byte and records its index. A counter `size_t i` below
`len` does not wrap, so it counts in naturals here as well.

`Proofs/HoehrmannReads.lean` shows that the verdicts agree, and where the reads are.
-/

set_option autoImplicit false

namespace FastValidate.Code

open Simd Memory Loops

/-- `c[i]`, with its index behind the reads so far. -/
def readAt (c : Ptr) (i : ℕ) (reads : List ℕ) : Byte × List ℕ := (c i, reads ++ [i])

/-- `for (i = 0; i < len; i++)` with one read in each round and an exit in the body: the state
at the end of the loop, unless it was left, and the indexes read. -/
def untilExit {σ : Type} (step : σ → Byte → Option σ) (c : Ptr) (len i : ℕ) (s : σ)
    (reads : List ℕ) : Option σ × List ℕ :=
  if i < len then
    let (byte, reads) := readAt c i reads
    match step s byte with
    | none => (none, reads)
    | some s => untilExit step c len (i + 1) s reads
  else (some s, reads)
termination_by len - i

/-- `is_ascii` with its reads. The loop ends at the first byte that is negative as a `char`. -/
def isAsciiReads (c : Ptr) (len : ℕ) : Bool × List ℕ :=
  let (result, reads) :=
    untilExit (fun _ byte => if byte.slt 0 then none else some ()) c len 0 () []
  (result.isSome, reads)

namespace Dfa

variable (update : ℕ → Byte → ℕ) (reject : ℕ)

/-- One step of a run: the byte at `i` is read, and the state is updated with it. -/
def updateAt (c : Ptr) (i : ℕ) (s : ℕ × List ℕ) : ℕ × List ℕ :=
  let (byte, reads) := readAt c i s.2
  (update s.1 byte, reads)

/-- One step of two runs, the second one `half` bytes ahead. -/
def updatePairAt (c : Ptr) (half i : ℕ) (s : ℕ × ℕ × List ℕ) : ℕ × ℕ × List ℕ :=
  let (s1, s2, reads) := s
  let (s1, reads) := updateAt update c i (s1, reads)
  let (s2, reads) := updateAt update c (half + i) (s2, reads)
  (s1, s2, reads)

/-- `Dfa.branchless` with its reads. -/
def branchlessReads (cu : Ptr) (len : ℕ) : Bool × List ℕ :=
  let (state, reads) := (forLt len 1 (updateAt update cu) 0 (0, [])).2
  (state != reject, reads)

/-- `Dfa.earlyExit` with its reads. The byte that leads to the reject state is the last one. -/
def earlyExitReads (cu : Ptr) (len : ℕ) : Bool × List ℕ :=
  let (result, reads) :=
    untilExit
      (fun state byte =>
        let state := update state byte
        if state = reject then none else some state)
      cu len 0 0 []
  (result.isSome, reads)

/-- `while (c[half] <= 0xBF && c[half] > 0x80 && half > 0) half--;`, where the first two tests
read the byte. -/
def splitPointReads (c : Ptr) : ℕ → List ℕ → ℕ × List ℕ
  -- At zero both tests may still read, before `half > 0` ends the search.
  | 0, reads =>
      let (byte, reads) := readAt c 0 reads
      if byte ≤ 0xBF then (0, (readAt c 0 reads).2) else (0, reads)
  | half + 1, reads =>
      let (byte, reads) := readAt c (half + 1) reads
      if byte ≤ 0xBF then
        let (byte, reads) := readAt c (half + 1) reads
        if byte > 0x80 then splitPointReads c half reads else (half + 1, reads)
      else (half + 1, reads)

/-- `Dfa.double` with its reads: those of the search, of the two runs, and of the bytes left
over. -/
def doubleReads (c : Ptr) (len : ℕ) : Option (Bool × List ℕ) := do
  let (half, reads) := splitPointReads c (len / 2) []
  let (s1, s2, reads) :=
    (forLt half 1 (updatePairAt update c half) 0 (0, 0, reads)).2
  let (s2, reads) ← forInt len (updateAt update c) (toCInt (half * 2)) (s2, reads)
  return (s1 != reject && s2 != reject, reads)

end Dfa

/-- `validateDfaUtf8Branchless` with its reads. -/
def validateDfaUtf8BranchlessReads (c : Ptr) (len : ℕ) : Bool × List ℕ :=
  Dfa.branchlessReads updatestate UTF8_REJECT c len

/-- `shiftlessValidateDfaUtf8Branchless` with its reads. -/
def shiftlessValidateDfaUtf8BranchlessReads (c : Ptr) (len : ℕ) : Bool × List ℕ :=
  Dfa.branchlessReads shiftlessUpdatestate SHIFTLESS_UTF8_REJECT c len

/-- `validateDfaUtf8` with its reads. -/
def validateDfaUtf8Reads (c : Ptr) (len : ℕ) : Bool × List ℕ :=
  Dfa.earlyExitReads updatestate UTF8_REJECT c len

/-- `shiftlessValidateDfaUtf8` with its reads. -/
def shiftlessValidateDfaUtf8Reads (c : Ptr) (len : ℕ) : Bool × List ℕ :=
  Dfa.earlyExitReads shiftlessUpdatestate SHIFTLESS_UTF8_REJECT c len

/-- `validateDfaUtf8Double` with its reads. -/
def validateDfaUtf8DoubleReads (c : Ptr) (len : ℕ) : Option (Bool × List ℕ) :=
  Dfa.doubleReads updatestate UTF8_REJECT c len

/-- `shiftlessValidateDfaUtf8Double` with its reads. -/
def shiftlessValidateDfaUtf8DoubleReads (c : Ptr) (len : ℕ) : Option (Bool × List ℕ) :=
  Dfa.doubleReads shiftlessUpdatestate SHIFTLESS_UTF8_REJECT c len

end FastValidate.Code
