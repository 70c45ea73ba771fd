import FastValidate.Code.Unit
import FastValidate.Proofs.CarryLaw
import FastValidate.Proofs.Composition
import FastValidate.Proofs.SimdAsciiCheck

/-!
# `FastValidate.Proofs.Unit`: what `test` checks

The buffer of spaces changes no verdict (`AcceptsWellFormed.padded`), and the NUL byte makes
the table-driven validators exact. So the body of either loop checks one thing several times:
whether the sequence is well formed. The two loops run to the end exactly when the first 8
good sequences are well formed and the first 23 bad ones are not, whatever the arrays hold
(`isSome_sequences_iff`). They look at no other sequence.

The asserts about the carries ask whether a register of lengths fits behind a register of
carries. Where the carries are those of a boundary, `countdown` answers that
(`noErrors_setrEpi8`, `noErrors512_set4Epi32`), and all asserts hold. So `test` itself runs to
its end exactly when its loops do (`isSome_test_iff`).
-/

set_option autoImplicit false

namespace FastValidate.Proofs

open Simd Memory Loops
open Automata
open FastValidate.Spec
open FastValidate.Code

/-- Spaces are well formed. -/
theorem wellFormed_replicate_space (k : ℕ) : WellFormed (List.replicate k 0x20) := by
  induction k with
  | zero => exact Language.nil_mem_kstar legalSequence
  | succ k ih =>
      rw [List.replicate_succ', wellFormed_append_iff_left]
      · exact ih
      · rw [← run_utf8Machine_eq_start_iff]
        decide

/-! ### Literals -/

/-- The bytes of a literal, up to its NUL byte. -/
theorem slice_ptr (s : CString) : slice s.ptr s.strlen = s.1 := by
  refine List.ext_getElem (by simp [CString.strlen]) ?_
  intro i hi hi'
  simp [slice, CString.ptr, hi']

/-- The NUL byte is read as well. -/
theorem slice_ptr_nul (s : CString) : slice s.ptr (s.strlen + 1) = s.1 ++ [0] := by
  rw [slice_succ, slice_ptr]
  simp [CString.ptr, CString.strlen]

/-! ### The checks -/

/-- A table-driven validator over a literal and its NUL byte. -/
theorem AcceptsPrefixes.literal {validate : Ptr → ℕ → Bool} (h : AcceptsPrefixes validate)
    (s : CString) : validate s.ptr (s.strlen + 1) = true ↔ WellFormed s.1 := by
  rw [h, slice_ptr_nul]
  exact isPrefix_concat_zero_iff s.1

/-- A block validator over a literal without its NUL byte. -/
theorem AcceptsWellFormed.literal {validate : Ptr → ℕ → Bool} (h : AcceptsWellFormed validate)
    (s : CString) : validate s.ptr s.strlen = true ↔ WellFormed s.1 := by
  rw [h, slice_ptr]

/-- In a buffer of spaces the verdict is the verdict on the sequence. -/
theorem AcceptsWellFormed.padded {validate : Ptr → ℕ → Bool} (h : AcceptsWellFormed validate)
    (s : CString) {N offset : ℕ} (hN : offset + s.strlen ≤ N) (buffer : Ptr) :
    validate (memcpy (memset buffer 0x20 N) offset s.ptr s.strlen) N = true
      ↔ WellFormed s.1 := by
  rw [h, slice_memcpy_memset buffer s.ptr 0x20 hN, slice_ptr,
    wellFormed_append_iff_left (wellFormed_replicate_space _),
    wellFormed_append_iff_right (wellFormed_replicate_space _)]

/-- Where the verdict is the expected one, the loop over the offsets runs to its end. -/
theorem AcceptsWellFormed.exists_offsets {validate : Ptr → ℕ → Bool}
    (h : AcceptsWellFormed validate) (s : CString) {N : ℕ} (hN : s.strlen ≤ N) {expected : Bool}
    (hexpected : WellFormed s.1 ↔ expected = true) (buffer : Ptr) :
    ∃ buffer', Unit.offsets validate expected N s.ptr s.strlen buffer = some buffer' := by
  have hbody : ∀ offset buffer, offset < N - s.strlen →
      ((if validate (memcpy (memset buffer 0x20 N) offset s.ptr s.strlen) N = expected then
        some (memcpy (memset buffer 0x20 N) offset s.ptr s.strlen) else none).isSome
        ↔ True) := by
    intro offset buffer hoffset
    rw [if_pos]
    · simp
    · rw [Bool.eq_iff_iff, h.padded s (by omega) buffer]
      exact hexpected
  rw [← Option.isSome_iff_exists]
  exact (isSome_forLtM_iff hbody 0 buffer).mpr fun _ _ _ => trivial

/-! ### The loops -/

/-- The body of the first loop ends exactly on the well-formed sequences. -/
theorem isSome_goodSequence_iff (s : CString) {N : ℕ} (hN : s.strlen ≤ N) (buffer : Ptr) :
    (Unit.goodSequence N s buffer).isSome ↔ WellFormed s.1 := by
  by_cases hs : WellFormed s.1
  · -- Every check passes, and every loop over the offsets ends with some buffer.
    have hexpected : WellFormed s.1 ↔ true = true := by simp [hs]
    obtain ⟨b1, hb1⟩ := acceptsWellFormed_validateUtf8Fast.exists_offsets s hN hexpected buffer
    obtain ⟨b2, hb2⟩ :=
      acceptsWellFormed_validateUtf8FastAvx512.exists_offsets s hN hexpected b1
    obtain ⟨b3, hb3⟩ :=
      acceptsWellFormed_validateUtf8FastAvx512Asciipath.exists_offsets s hN hexpected b2
    obtain ⟨b4, hb4⟩ := acceptsWellFormed_validateUtf8FastAvx.exists_offsets s hN hexpected b3
    obtain ⟨b5, hb5⟩ :=
      acceptsWellFormed_validateUtf8FastAvxAsciipath.exists_offsets s hN hexpected b4
    simp only [Unit.goodSequence, Unit.require, (acceptsPrefixes_earlyExit.literal s).mpr hs,
      (acceptsPrefixes_branchless.literal s).mpr hs,
      (acceptsPrefixes_shiftlessEarlyExit.literal s).mpr hs,
      (acceptsPrefixes_shiftlessBranchless.literal s).mpr hs,
      (acceptsWellFormed_validateUtf8Fast.literal s).mpr hs,
      (acceptsWellFormed_validateUtf8FastAvx512.literal s).mpr hs,
      (acceptsWellFormed_validateUtf8FastAvx512Asciipath.literal s).mpr hs,
      (acceptsWellFormed_validateUtf8FastAvx.literal s).mpr hs,
      (acceptsWellFormed_validateUtf8FastAvxAsciipath.literal s).mpr hs, if_true,
      hb1, hb2, hb3, hb4, hb5, Option.bind_eq_bind, Option.bind_some, Option.isSome_some, hs]
  · -- The first check fails.
    have hfirst : validateDfaUtf8 s.ptr (s.strlen + 1) = false := by
      rw [← Bool.not_eq_true, acceptsPrefixes_earlyExit.literal s]
      exact hs
    simp [Unit.goodSequence, Unit.require, hfirst, hs]

/-- The body of the second loop ends exactly on the other sequences. -/
theorem isSome_badSequence_iff (s : CString) {N : ℕ} (hN : s.strlen ≤ N) (buffer : Ptr) :
    (Unit.badSequence N s buffer).isSome ↔ ¬ WellFormed s.1 := by
  by_cases hs : WellFormed s.1
  · -- The first check fails.
    simp [Unit.badSequence, Unit.require, (acceptsPrefixes_earlyExit.literal s).mpr hs, hs]
  · have hexpected : WellFormed s.1 ↔ false = true := by simp [hs]
    have hdfa : ∀ validate, AcceptsPrefixes validate →
        validate s.ptr (s.strlen + 1) = false := by
      intro validate h
      rw [← Bool.not_eq_true, h.literal s]
      exact hs
    have hsimd : ∀ validate, AcceptsWellFormed validate → validate s.ptr s.strlen = false := by
      intro validate h
      rw [← Bool.not_eq_true, h.literal s]
      exact hs
    obtain ⟨b1, hb1⟩ := acceptsWellFormed_validateUtf8Fast.exists_offsets s hN hexpected buffer
    obtain ⟨b2, hb2⟩ := acceptsWellFormed_validateUtf8FastAvx.exists_offsets s hN hexpected b1
    obtain ⟨b3, hb3⟩ :=
      acceptsWellFormed_validateUtf8FastAvxAsciipath.exists_offsets s hN hexpected b2
    obtain ⟨b4, hb4⟩ :=
      acceptsWellFormed_validateUtf8FastAvx512.exists_offsets s hN hexpected b3
    obtain ⟨b5, hb5⟩ :=
      acceptsWellFormed_validateUtf8FastAvx512Asciipath.exists_offsets s hN hexpected b4
    simp only [Unit.badSequence, Unit.require, hdfa _ acceptsPrefixes_earlyExit,
      hdfa _ acceptsPrefixes_branchless, hdfa _ acceptsPrefixes_shiftlessEarlyExit,
      hdfa _ acceptsPrefixes_shiftlessBranchless,
      hsimd _ acceptsWellFormed_validateUtf8FastAvx,
      hsimd _ acceptsWellFormed_validateUtf8FastAvxAsciipath,
      hsimd _ acceptsWellFormed_validateUtf8FastAvx512,
      hsimd _ acceptsWellFormed_validateUtf8FastAvx512Asciipath, Bool.not_false, if_true,
      hb1, hb2, hb3, hb4, hb5, Option.bind_eq_bind, Option.bind_some, Option.isSome_some, hs,
      not_false_eq_true]

/-- Whatever the arrays hold, as long as there are as many sequences as the loops read and
these fit the buffer, the two loops run to their end exactly when the first 8 good sequences
are well formed and the first 23 bad ones are not. -/
theorem isSome_sequences_iff (N : ℕ) (good bad : List CString) (buffer : Ptr)
    (hgoodLength : 8 ≤ good.length) (hbadLength : 23 ≤ bad.length)
    (hgood : ∀ s ∈ good.take 8, s.strlen ≤ N) (hbad : ∀ s ∈ bad.take 23, s.strlen ≤ N) :
    (Unit.sequences N good bad buffer).isSome
      ↔ (∀ s ∈ good.take 8, WellFormed s.1) ∧ ∀ s ∈ bad.take 23, ¬ WellFormed s.1 := by
  have hfirst := isSome_forLtM_take_iff (f := Unit.goodSequence N) hgoodLength
    (fun s hs b => isSome_goodSequence_iff s (hgood s hs) b) buffer
  have hsecond := isSome_forLtM_take_iff (f := Unit.badSequence N) hbadLength
    fun s hs b => isSome_badSequence_iff s (hbad s hs) b
  rw [← hfirst]
  exact isSome_bind_iff hsecond

/-! ### The asserts about ASCII texts -/

/-- The asserts about ASCII texts hold. -/
theorem asciiAsserts_hold : ∀ b ∈ Unit.asciiAsserts, b = true := by
  have hascii : AsciiBelow Unit.ascii.ptr Unit.ascii.strlen := by
    rw [asciiBelow_iff_slice, slice_ptr]
    decide
  have hnot : ¬ AsciiBelow Unit.notascii.ptr Unit.notascii.strlen := by
    rw [asciiBelow_iff_slice, slice_ptr]
    decide
  simp only [Unit.asciiAsserts, List.forall_mem_cons, Bool.not_eq_true', ← Bool.not_eq_true,
    validateAsciiFast, validateAsciiFastAvx, validateAsciiBlocks_eq_true_iff 16 (by omega),
    validateAsciiBlocks_eq_true_iff 32 (by omega), validateAsciiFastAvx512_eq_true_iff]
  exact ⟨hascii, hascii, hascii, hnot, hnot, hnot, by simp⟩

/-! ### The asserts about carries -/

section Carries

variable {n : ℕ} {ε : Type} {clean : ε → Prop} {carry : Reg n → Reg n → Reg n}
  {check : Reg n → Reg n → ε → ε} {lens prev : Reg n} {L : ℕ → ℕ} {r : ℕ}

/-- Behind a boundary, lengths up to four are an input of the carry computation. -/
theorem Boundary.carryInput
    (h : Boundary r (lane prev (n - 1)).toNat (lane prev (n - 2)).toNat)
    (hlens : ∀ i < n, (lane lens i).toNat = L i) (hL : ∀ i, L i ≤ 4) :
    CarryInput lens prev L := by
  obtain ⟨hbound, hlast, hbefore⟩ := h
  exact ⟨hlens, hL, by omega, by omega⟩

/-- Behind a boundary and without errors before, the check finds no error exactly when
`countdown` reads the lengths. -/
theorem CarrySpec.clean_lengths (hspec : CarrySpec clean carry check)
    (hboundary : Boundary r (lane prev (n - 1)).toNat (lane prev (n - 2)).toNat)
    (hlens : ∀ i < n, (lane lens i).toNat = L i) (hL : ∀ i, L i ≤ 4) {e : ε} (he : clean e) :
    clean (check lens (carry lens prev) e)
      ↔ (countdown.run r ((List.range n).map L)).isSome := by
  have hinput := hboundary.carryInput hlens hL
  have hlengths : ∀ i < n, (lane lens i).toNat = L i ∧ L i < 128 := fun i hi =>
    ⟨hlens i hi, Nat.lt_of_le_of_lt (hL i) (by omega)⟩
  have hcarries : ∀ i < n, (lane (carry lens prev) i).toNat
        = carryAt L (lane prev (n - 1)).toNat (lane prev (n - 2)).toNat i ∧
      carryAt L (lane prev (n - 1)).toNat (lane prev (n - 2)).toNat i < 128 := by
    intro i hi
    have hle := (carryAt_le hL hinput.last hinput.beforeLast i).2.1
    exact ⟨hspec.lane_carry hinput i hi, by omega⟩
  rw [hspec.clean_check hlengths hcarries, and_iff_right he]
  exact (fits_iff_countdown hL hboundary n).1

/-- Behind carries that are all 1 nothing is owed. -/
theorem boundary_ones (hn : 2 ≤ n) :
    Boundary 0 (lane (set1Epi8 n 1) (n - 1)).toNat (lane (set1Epi8 n 1) (n - 2)).toNat := by
  rw [lane_set1Epi8 _ (by omega), lane_set1Epi8 _ (by omega)]
  exact ⟨by decide, by decide, by decide⟩

/-- The length in a lane of a listed register. -/
def listLength (xs : List Byte) (i : ℕ) : ℕ := (xs.getD i 0).toNat

/-- Listed lengths are at most four where the bytes of the list are. -/
theorem listLength_le {xs : List Byte} (hxs : ∀ x ∈ xs, x.toNat ≤ 4) (i : ℕ) :
    listLength xs i ≤ 4 := by
  rw [listLength, List.getD_eq_getElem?_getD]
  cases h : xs[i]? with
  | none => simp
  | some x => exact hxs x (List.mem_of_getElem? h)

/-- The lanes of a listed register are these lengths. -/
theorem toNat_lane_setrEpi8 (xs : List Byte) :
    ∀ i < n, (lane (setrEpi8 n xs) i).toNat = listLength xs i := by
  intro i hi
  rw [lane_setrEpi8 xs hi, listLength]

/-- The length in a lane of four repeated words. -/
def wordLength (w₃ w₂ w₁ w₀ : BitVec 32) (i : ℕ) : ℕ :=
  (byteOf ([w₀, w₁, w₂, w₃].getD (i / 4 % 4) 0) (i % 4)).toNat

/-- The bytes of the four words are lengths. -/
def WordsLeFour (w₃ w₂ w₁ w₀ : BitVec 32) : Prop :=
  ∀ j < 4, ∀ k < 4, (byteOf ([w₀, w₁, w₂, w₃].getD j 0) k).toNat ≤ 4

/-- Sixteen bytes are compared. -/
instance (w₃ w₂ w₁ w₀ : BitVec 32) : Decidable (WordsLeFour w₃ w₂ w₁ w₀) :=
  inferInstanceAs (Decidable
    (∀ j < 4, ∀ k < 4, (byteOf ([w₀, w₁, w₂, w₃].getD j 0) k).toNat ≤ 4))

/-- The lengths in the lanes are those of the four words. -/
theorem WordsLeFour.wordLength_le {w₃ w₂ w₁ w₀ : BitVec 32} (h : WordsLeFour w₃ w₂ w₁ w₀)
    (i : ℕ) : wordLength w₃ w₂ w₁ w₀ i ≤ 4 :=
  h _ (Nat.mod_lt _ (by omega)) _ (Nat.mod_lt _ (by omega))

/-- The lanes of four repeated words are these lengths. -/
theorem toNat_lane_set4Epi32 (w₃ w₂ w₁ w₀ : BitVec 32) :
    ∀ i < n, (lane (set4Epi32 n w₃ w₂ w₁ w₀) i).toNat = wordLength w₃ w₂ w₁ w₀ i := by
  intro i hi
  rw [set4Epi32, lane_setr4Epi32 _ _ _ _ hi, wordLength]

end Carries

/-- The SSE asserts: the lengths `xs` behind carries of a boundary. -/
theorem noErrors_setrEpi8 {xs : List Byte} {prev : Reg 16} {r : ℕ}
    (hboundary : Boundary r (lane prev 15).toNat (lane prev 14).toNat)
    (hxs : ∀ x ∈ xs, x.toNat ≤ 4) :
    Unit.noErrors (setrEpi8 16 xs) prev = true
      ↔ (countdown.run r ((List.range 16).map (listLength xs))).isSome := by
  rw [Unit.noErrors, testz_self]
  exact (carrySpec_of_checksSpec lookback_alignrEpi8 checksSpec_sse).clean_lengths hboundary
    (toNat_lane_setrEpi8 xs) (listLength_le hxs) isZero_setzero

/-- The AVX-512 asserts. -/
theorem noErrors512_set4Epi32 {w₃ w₂ w₁ w₀ : BitVec 32} {prev : Reg 64} {r : ℕ}
    (hboundary : Boundary r (lane prev 63).toNat (lane prev 62).toNat)
    (hw : WordsLeFour w₃ w₂ w₁ w₀) :
    Unit.noErrors512 (set4Epi32 64 w₃ w₂ w₁ w₀) prev = true
      ↔ (countdown.run r ((List.range 64).map (wordLength w₃ w₂ w₁ w₀))).isSome := by
  rw [Unit.noErrors512, decide_eq_true_iff]
  exact (carrySpec_of_checksSpec lookback_avx512PushLastBytes checksSpec_mask).clean_lengths
    hboundary (toNat_lane_set4Epi32 w₃ w₂ w₁ w₀) hw.wordLength_le rfl

/-- All lanes are equal when the comparison is all ones. -/
theorem testAllOnes_cmpeqEpi8 {n : ℕ} (a b : Reg n) :
    testAllOnes (cmpeqEpi8 a b) = true ↔ ∀ i < n, (lane a i).toNat = (lane b i).toNat := by
  rw [testAllOnes, decide_eq_true_iff]
  constructor
  · intro h i hi
    have hlane := lane_cmpeqEpi8 a b hi
    rw [h, lane_set1Epi8 _ hi] at hlane
    by_contra hne
    rw [if_neg fun heq => hne (congrArg BitVec.toNat heq)] at hlane
    exact absurd hlane (by decide)
  · intro h
    refine reg_ext fun i hi => ?_
    rw [lane_cmpeqEpi8 _ _ hi, lane_set1Epi8 _ hi, if_pos (BitVec.eq_of_toNat_eq (h i hi))]

/-- All lanes are equal when the mask is all ones. -/
theorem cmpeqEpi8Mask_eq_allOnes (a b : Reg 64) : cmpeqEpi8Mask a b = 0xFFFFFFFFFFFFFFFF ↔
    ∀ i < 64, (lane a i).toNat = (lane b i).toNat := by
  show cmpeqEpi8Mask a b = BitVec.allOnes 64 ↔ _
  constructor
  · intro h i hi
    have hbit := getLsbD_cmpeqEpi8Mask a b hi
    rw [h, BitVec.getLsbD_allOnes, decide_eq_true hi] at hbit
    exact congrArg BitVec.toNat (of_decide_eq_true hbit.symm)
  · intro h
    refine BitVec.eq_of_getLsbD_eq fun i hi => ?_
    rw [getLsbD_cmpeqEpi8Mask _ _ hi, BitVec.getLsbD_allOnes, decide_eq_true hi,
      decide_eq_true (BitVec.eq_of_toNat_eq (h i hi))]

/-- The SSE carries of the lengths `xs` behind carries of a boundary. -/
theorem carries_setrEpi8 {xs : List Byte} {prev : Reg 16} {r : ℕ}
    (hboundary : Boundary r (lane prev 15).toNat (lane prev 14).toNat)
    (hxs : ∀ x ∈ xs, x.toNat ≤ 4) :
    ∀ i < 16, (lane (carryContinuations (setrEpi8 16 xs) prev) i).toNat
      = carryAt (listLength xs) (lane prev 15).toNat (lane prev 14).toNat i :=
  (carrySpec_of_checksSpec lookback_alignrEpi8 checksSpec_sse).lane_carry
    (hboundary.carryInput (toNat_lane_setrEpi8 xs) (listLength_le hxs))

/-- The AVX-512 carries of the lengths in four words. -/
theorem carries512_set4Epi32 {w₃ w₂ w₁ w₀ : BitVec 32} {prev : Reg 64} {r : ℕ}
    (hboundary : Boundary r (lane prev 63).toNat (lane prev 62).toNat)
    (hw : WordsLeFour w₃ w₂ w₁ w₀) :
    ∀ i < 64, (lane (avx512CarryContinuations (set4Epi32 64 w₃ w₂ w₁ w₀) prev) i).toNat
      = carryAt (wordLength w₃ w₂ w₁ w₀) (lane prev 63).toNat (lane prev 62).toNat i :=
  (carrySpec_of_checksSpec lookback_avx512PushLastBytes checksSpec_mask).lane_carry
    (hboundary.carryInput (toNat_lane_set4Epi32 w₃ w₂ w₁ w₀) hw.wordLength_le)

/-- The asserts about the carries hold: `countdown` and `carryAt` answer them on numbers. -/
theorem carryAsserts_hold : ∀ b ∈ Unit.carryAsserts, b = true := by
  simp only [Unit.carryAsserts, List.forall_mem_cons, Bool.not_eq_true', ← Bool.not_eq_true]
  refine ⟨?_, ?_, ?_, ?_, ?_, ?_, ?_, ?_, ?_, ?_, by simp⟩
  · rw [noErrors_setrEpi8 (boundary_ones (by decide)) (by decide)]
    decide
  · rw [testAllOnes_cmpeqEpi8]
    intro i hi
    rw [carries_setrEpi8 (boundary_ones (by decide)) (by decide) i hi,
      toNat_lane_setrEpi8 _ i hi, lane_set1Epi8 _ (by decide), lane_set1Epi8 _ (by decide)]
    revert i
    decide
  · rw [noErrors512_set4Epi32 (boundary_ones (by decide)) (by decide)]
    decide
  · rw [decide_eq_true_iff, cmpeqEpi8Mask_eq_allOnes]
    intro i hi
    rw [carries512_set4Epi32 (boundary_ones (by decide)) (by decide) i hi,
      toNat_lane_set4Epi32 _ _ _ _ i hi, lane_set1Epi8 _ (by decide),
      lane_set1Epi8 _ (by decide)]
    revert i
    decide +kernel
  -- overlap
  · rw [noErrors_setrEpi8 (boundary_ones (by decide)) (by decide)]
    decide
  · rw [noErrors512_set4Epi32 (boundary_ones (by decide)) (by decide)]
    decide
  -- underlap
  · rw [noErrors_setrEpi8 (boundary_ones (by decide)) (by decide)]
    decide
  · rw [noErrors512_set4Epi32 (boundary_ones (by decide)) (by decide)]
    decide
  -- register crossing: one byte is owed
  · refine (noErrors_setrEpi8 (r := 1) ?_ (by decide)).mpr (by decide)
    rw [toNat_lane_setrEpi8 _ 15 (by decide), toNat_lane_setrEpi8 _ 14 (by decide)]
    exact ⟨by decide, by decide, by decide⟩
  · refine mt (noErrors512_set4Epi32 (r := 1) ?_ (by decide)).mp (by decide)
    rw [toNat_lane_set4Epi32 _ _ _ _ 63 (by decide), toNat_lane_set4Epi32 _ _ _ _ 62 (by decide)]
    exact ⟨by decide, by decide, by decide⟩

/-! ### `test` -/

/-- Whatever the arrays hold, as long as there are as many sequences as the loops read and
these fit the buffer, `test` runs to its end exactly when the first 8 good sequences are well
formed and the first 23 bad ones are not. -/
theorem isSome_test_iff (N : ℕ) (good bad : List CString) (buffer : Ptr)
    (hgoodLength : 8 ≤ good.length) (hbadLength : 23 ≤ bad.length)
    (hgood : ∀ s ∈ good.take 8, s.strlen ≤ N) (hbad : ∀ s ∈ bad.take 23, s.strlen ≤ N) :
    (Unit.test N good bad buffer).isSome
      ↔ (∀ s ∈ good.take 8, WellFormed s.1) ∧ ∀ s ∈ bad.take 23, ¬ WellFormed s.1 := by
  have hasserts : (Unit.asciiAsserts ++ Unit.carryAsserts).all id = true := by
    rw [List.all_eq_true]
    intro b hb
    rcases List.mem_append.mp hb with hb | hb
    · exact asciiAsserts_hold b hb
    · exact carryAsserts_hold b hb
  -- Behind the loops the asserts hold, whatever the loops leave in the buffer.
  have hrest : ∀ b : Ptr, (do Unit.require true; return b : Option Ptr).isSome ↔ True := by
    simp [Unit.require]
  rw [← isSome_sequences_iff N good bad buffer hgoodLength hbadLength hgood hbad, Unit.test,
    hasserts]
  exact (isSome_bind_iff hrest).trans (and_iff_left trivial)

/-- `test` of the repository runs to its end. -/
theorem isSome_test_unit : (Unit.test 128 goodsequences badsequences fun _ => 0).isSome := by
  refine (isSome_test_iff 128 goodsequences badsequences _ (by decide) (by decide) (by decide)
    (by decide)).mpr ⟨?_, ?_⟩
  · simp only [← run_utf8Machine_eq_start_iff]
    decide
  · simp only [← run_utf8Machine_eq_start_iff]
    decide

end FastValidate.Proofs
