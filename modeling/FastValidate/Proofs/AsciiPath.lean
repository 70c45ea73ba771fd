import FastValidate.Proofs.SimdUtf8Check
import FastValidate.Proofs.SimdUtf8CheckAvx512

/-!
# `FastValidate.Proofs.AsciiPath`: the ASCII fast paths

On a block of ASCII bytes the fast path keeps the old registers and only compares their
carries with the limits. The registers of the two runs then differ, by any number of
blocks, but both are at the boundary between two sequences: `AtBoundary` is the simulation
relation, and `Follows.asciiPath` shows that the fast path follows `lateMachine` as well.
-/

set_option autoImplicit false

namespace FastValidate.Proofs

open Simd Memory
open FastValidate.Spec
open FastValidate.Code

/-- No bit in common with `0x80` in any lane: all bytes are ASCII. -/
theorem testz_80_iff {n : ℕ} (cur : Reg n) :
    testz cur (set1Epi8 n 0x80) = true ↔ ∀ i < n, lane cur i ≤ 0x7F := by
  have hbit : ∀ b : Byte, b &&& 0x80 = 0 ↔ b ≤ 0x7F := by decide +kernel
  rw [testz, decide_eq_true_iff]
  constructor
  · intro h i hi
    have hlane : lane (andSi cur (set1Epi8 n 0x80)) i = 0 := by rw [h, lane_setzero hi]
    rw [lane_andSi _ _ hi, lane_set1Epi8 _ hi] at hlane
    exact (hbit _).mp hlane
  · intro h
    refine reg_ext fun i hi => ?_
    rw [lane_andSi _ _ hi, lane_set1Epi8 _ hi, lane_setzero hi]
    exact (hbit _).mpr (h i hi)

/-- No byte is `0x80` or above: all bytes are ASCII. -/
theorem cmpgeEpu8Mask_80_iff {n : ℕ} (cur : Reg n) :
    decide (cmpgeEpu8Mask cur (set1Epi8 n 0x80) = 0) = true ↔ ∀ i < n, lane cur i ≤ 0x7F := by
  have hle : ∀ b : Byte, ¬ 0x80 ≤ b ↔ b ≤ 0x7F := by decide +kernel
  rw [decide_eq_true_iff, mask_eq_zero_iff_of_lane (p := fun i => 0x80 ≤ lane cur i)]
  · simp only [hle]
  · intro i hi
    rw [getLsbD_cmpgeEpu8Mask _ _ hi, lane_set1Epi8 _ hi]

/-- Off the ASCII path the body is a copy of `avxcheckUTF8Bytes`. -/
theorem avxcheckUTF8BytesAsciipath_eq :
    avxcheckUTF8BytesAsciipath = fun cur p e =>
      if testz cur (set1Epi8 32 0x80) then (p, avxCarryThreshold p e)
      else avxcheckUTF8Bytes cur p e := rfl

/-- The AVX-512 step with the ASCII path is the plain step behind one test. -/
theorem avx512CheckUTF8BytesAsciipath_eq :
    avx512CheckUTF8BytesAsciipath = fun cur p e =>
      if decide (cmpgeEpu8Mask cur (set1Epi8 64 0x80) = 0) then (p, avx512CarryThreshold p e)
      else avx512CheckUTF8Bytes cur p e := by
  simp only [decide_eq_true_iff]
  rfl

/-- The AVX2 step with the ASCII path keeps the invariant of the blocks. -/
theorem follows_avxcheckUTF8BytesAsciipath : Follows IsZero avxcheckUTF8BytesAsciipath := by
  rw [avxcheckUTF8BytesAsciipath_eq]
  exact follows_avxcheckUTF8Bytes.asciiPath thresholdSpec_avxCarryThreshold (by omega)
    testz_80_iff

/-- So does the AVX-512 step. -/
theorem follows_avx512CheckUTF8BytesAsciipath :
    Follows (fun e : BitVec 64 => e = 0) avx512CheckUTF8BytesAsciipath := by
  rw [avx512CheckUTF8BytesAsciipath_eq]
  exact follows_avx512CheckUTF8Bytes.asciiPath thresholdSpec_avx512CarryThreshold
    (by omega) cmpgeEpu8Mask_80_iff

/-- The AVX2 validator with the ASCII path is exact. -/
theorem acceptsWellFormed_validateUtf8FastAvxAsciipath :
    AcceptsWellFormed validateUtf8FastAvxAsciipath := by
  show AcceptsWellFormed (Shape.validate avxcheckUTF8BytesAsciipath avxcheckUTF8Bytes
    avxCarryThreshold (setzero 32) fun hasError => testz hasError hasError)
  exact acceptsWellFormed_validate (by omega) follows_avxcheckUTF8BytesAsciipath
    follows_avxcheckUTF8Bytes thresholdSpec_avxCarryThreshold isZero_setzero testz_self

/-- The AVX-512 validator with the ASCII path is exact. -/
theorem acceptsWellFormed_validateUtf8FastAvx512Asciipath :
    AcceptsWellFormed validateUtf8FastAvx512Asciipath := by
  show AcceptsWellFormed (Shape.validate avx512CheckUTF8BytesAsciipath avx512CheckUTF8Bytes
    avx512CarryThreshold 0 fun hasError => decide (hasError = 0))
  exact acceptsWellFormed_validate (by omega) follows_avx512CheckUTF8BytesAsciipath
    follows_avx512CheckUTF8Bytes thresholdSpec_avx512CarryThreshold rfl
    (fun _ => decide_eq_true_iff)

/-- At both widths the fast path and the plain path have errors after the same blocks, and
the validators built on them agree on every string. -/
theorem asciipath_agrees :
    (∀ blocks : List (Reg 32),
      IsZero (foldBlocks avxcheckUTF8BytesAsciipath (setzero 32) blocks).2
        ↔ IsZero (foldBlocks avxcheckUTF8Bytes (setzero 32) blocks).2) ∧
    (∀ blocks : List (Reg 64),
      (foldBlocks avx512CheckUTF8BytesAsciipath 0 blocks).2 = 0
        ↔ (foldBlocks avx512CheckUTF8Bytes 0 blocks).2 = 0) ∧
    (∀ (src : Ptr) (len : ℕ),
      validateUtf8FastAvxAsciipath src len = validateUtf8FastAvx src len) ∧
    ∀ (src : Ptr) (len : ℕ),
      validateUtf8FastAvx512Asciipath src len = validateUtf8FastAvx512 src len := by
  refine ⟨?_, ?_, ?_, ?_⟩
  · exact follows_avxcheckUTF8BytesAsciipath.clean_foldBlocks_iff follows_avxcheckUTF8Bytes
      (by omega) isZero_setzero
  · exact follows_avx512CheckUTF8BytesAsciipath.clean_foldBlocks_iff
      follows_avx512CheckUTF8Bytes (by omega) rfl
  · -- Both validators accept the well-formed strings.
    exact acceptsWellFormed_validateUtf8FastAvxAsciipath.agree
      acceptsWellFormed_validateUtf8FastAvx
  · exact acceptsWellFormed_validateUtf8FastAvx512Asciipath.agree
      acceptsWellFormed_validateUtf8FastAvx512

end FastValidate.Proofs
