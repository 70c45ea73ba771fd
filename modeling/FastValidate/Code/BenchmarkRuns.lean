import FastValidate.Code.Benchmark
import FastValidate.Code.Hoehrmann
import FastValidate.Code.SimdAsciiCheck
import FastValidate.Code.SimdUtf8CheckAvx512

/-!
# `FastValidate.Code.BenchmarkRuns`: the measurements of `benchmarks/benchmark.c`

`demo` and `demo_utf8` measure one validator after the other with `BEST_TIME`. Before each
repetition the text is written anew, and the verdict is compared with the expected one. The
model keeps the texts, the verdicts and the lines `not expected`; the clocks and the other
output are left out.

A buffer is a pointer. `demo` reads the byte behind the end of its buffer, which C leaves
undefined: here that is a byte like any other, which keeps its value. `demo_utf8` may write
behind the end of its buffer, and then there is no result. The values of `rand()` are a
stream, and a measurement goes on where the one before it stopped.
-/

set_option autoImplicit false

namespace FastValidate.Code

open Simd Memory Loops

/-- What a measurement changes: the buffer, the local `actualN` of `demo_utf8`, and the number
of calls of `rand()`. -/
structure Bench where
  data : Ptr
  actualN : ℕ
  calls : ℕ

/-- `populate(data, N)` -/
def populate (rand : ℕ → ℕ) (N : ℕ) (s : Bench) : Bench :=
  (forLt N 1
    (fun i s =>
      { s with
          data := Function.update s.data i (BitVec.ofNat 8 (rand s.calls &&& 0x7f))
          calls := s.calls + 1 })
    0 s).2

/-- `actualN = populate_utf8(data, N)` over the buffer of `malloc(2 * N)`, whose size is a
`size_t`. It has a result where the call returns within `fuel` rounds and has written inside
the buffer only. -/
def assignPopulateUtf8 (rand : ℕ → ℕ) (fuel N : ℕ) (s : Bench) : Option Bench := do
  let p ← populateUtf8 (fun k => rand (s.calls + k)) fuel s.data N
  if ∀ j ∈ p.written, j < 2 * N % 2 ^ 64 then
    return { data := p.data, actualN := p.i, calls := s.calls + p.calls }
  else none

/-- The two values of a line `not expected (%d , %d )`, if there is one. -/
abbrev Report := Option (Bool × Bool)

/-- `BEST_TIME(test, expected, pre, repeat, size, verbose)`: the loop ends at the first
verdict that is not the expected one, and the line calls `test` once more. -/
def bestTime (test : Bench → Option Bool) (expected : Bool) (pre : Bench → Option Bench) :
    ℕ → Bench → Option (Report × Bench)
  | 0, s => some (none, s)
  | rounds + 1, s => do
      let s ← pre s
      let verdict ← test s
      if verdict ≠ expected then
        let verdict ← test s
        return (some (verdict, expected), s)
      else bestTime test expected pre rounds s

/-- Measurements in a row, with the same `expected` and `pre`, and `int repeat = 5`. -/
def bestTimes (expected : Bool) (pre : Bench → Option Bench) :
    List (Bench → Option Bool) → Bench → Option (List Report × Bench)
  | [], s => some ([], s)
  | test :: tests, s => do
      let (report, s) ← bestTime test expected pre 5 s
      let (reports, s) ← bestTimes expected pre tests s
      return (report :: reports, s)

/-- The calls that `demo` measures, up to `BEST_TIME_LINUX`. The table-driven validators get
one byte more than the others. -/
def demoTests (N : ℕ) : List (Bench → Option Bool) :=
  [fun s => validateUtf8 s.data N,
    fun s => some (validateUtf8Fast s.data N),
    fun s => some (shiftlessValidateDfaUtf8Branchless s.data (N + 1)),
    fun s => some (shiftlessValidateDfaUtf8Branchless s.data (N + 1)),
    fun s => some (shiftlessValidateDfaUtf8 s.data (N + 1)),
    fun s => some (shiftlessValidateDfaUtf8 s.data (N + 1)),
    fun s => validateDfaUtf8Double s.data (N + 1),
    fun s => shiftlessValidateDfaUtf8Double s.data (N + 1),
    fun s => some (validateUtf8FastAvx s.data N),
    fun s => some (validateUtf8FastAvxAsciipath s.data N),
    fun s => some (validateUtf8FastAvx512 s.data N),
    fun s => some (validateUtf8FastAvx512Asciipath s.data N),
    fun s => some (validateAsciiFast s.data N),
    fun s => some (validateAsciiFastAvx s.data N),
    fun s => some (validateAsciiFastAvx512 s.data N),
    fun s => some (validateAsciiNosimd s.data N),
    fun s => some (validateAsciiNointrin s.data N),
    -- The loop of `BEST_TIME_LINUX` is the same, with another clock.
    fun s => some (validateUtf8Fast s.data N),
    fun s => some (validateAsciiFast s.data N)]

/-- `demo(N)`, over the buffer that `malloc(N)` gives. -/
def demo (rand : ℕ → ℕ) (N : ℕ) (s : Bench) : Option (List Report × Bench) :=
  bestTimes true (fun s => some (populate rand N s)) (demoTests N) s

/-- The calls that `demo_utf8` measures. -/
def demoUtf8Tests : List (Bench → Option Bool) :=
  [fun s => validateUtf8 s.data s.actualN,
    fun s => validateUtf8 s.data s.actualN,
    fun s => some (shiftlessValidateDfaUtf8Branchless s.data (s.actualN + 1)),
    fun s => some (shiftlessValidateDfaUtf8Branchless s.data (s.actualN + 1)),
    fun s => some (shiftlessValidateDfaUtf8 s.data (s.actualN + 1)),
    fun s => some (shiftlessValidateDfaUtf8 s.data (s.actualN + 1)),
    fun s => validateDfaUtf8Double s.data (s.actualN + 1),
    fun s => shiftlessValidateDfaUtf8Double s.data (s.actualN + 1),
    fun s => some (validateUtf8FastAvx s.data s.actualN),
    fun s => some (validateUtf8FastAvxAsciipath s.data s.actualN),
    fun s => some (validateUtf8FastAvx512 s.data s.actualN),
    fun s => some (validateUtf8FastAvx512Asciipath s.data s.actualN)]

/-- `demo_utf8(N)`, over the buffer that `malloc(2 * N)` gives. Each call of `populate_utf8`
has `fuel` rounds. -/
def demoUtf8 (rand : ℕ → ℕ) (fuel N : ℕ) (s : Bench) : Option (List Report × Bench) :=
  bestTimes true (assignPopulateUtf8 rand fuel N) demoUtf8Tests s

end FastValidate.Code
